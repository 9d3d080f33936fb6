import Mathlib.Logic.Relation
import Wrouter.Edges

/-!
# The terminal dictionary of a compiled router

The offsets that the compiler appends are those of the terminating nodes, in increasing
order. So the dictionary may be searched either way, and the matcher, which jumps to the
lookup from terminating nodes only, always finds a route there.
-/
namespace Wrouter

open CLib

/-- The cell at `ref` terminates the route: it is the node `x`, or the one that the
wildcard edge or the trailing edge of `x` leads to. -/
def Terminates (g : List Nat) (x : Segment × Nat) (ref : Nat) (route : Route) : Prop :=
  (x.1.terminal = some route ∧ ref = x.2) ∨
    (x.1.special = .wildcard route ∧ ref = cell g (x.2 + 1)) ∨
    (x.1.trailing = some route ∧ ref = cell g (x.1.trailingEdge x.2))

section Terms

theorem mem_termsChildren {l : List Segment} {o : Nat} {y : Nat × Route} :
    y ∈ termsChildren l o ↔ ∃ x ∈ placed o l, y ∈ x.1.terms x.2 := by
  induction l generalizing o with
  | nil => simp [termsChildren, placed]
  | cons c l ih => simp [termsChildren, placed, ih]

/-- The dictionary's pairs by where they come from in the tree. -/
theorem mem_terms {s : Segment} {o ref : Nat} {route : Route} : (ref, route) ∈ s.terms o ↔
    (s.terminal = some route ∧ ref = o) ∨
      (∃ x ∈ placed (s.childBase o) s.children, (ref, route) ∈ x.1.terms x.2) ∨
      (ref, route) ∈ termsSpecial s.special (s.specialBase o) ∨
      (s.trailing = some route ∧ ref = s.trailingBase o) := by
  have hoption (slot : Option Route) (off : Nat) :
      (ref, route) ∈ slot.toList.map (fun r => (off, r)) ↔ slot = some route ∧ ref = off := by
    cases slot with
    | none => simp
    | some r => simp [and_comm, eq_comm]
  rw [terms_eq]
  simp only [List.mem_append, hoption, mem_termsChildren, or_assoc]

variable {L : Libc} {router : Router} {g : List Nat} {s : Segment} {o ref : Nat} {route : Route}

/-- The terminals of a tree are those of its nodes. -/
theorem mem_terms_places (h : Packed L router g s o) :
    (ref, route) ∈ s.terms o ↔ ∃ x ∈ s.places o, Terminates g x ref route := by
  have hs := h.sound
  induction hs generalizing o with
  | node s hn _ _ ihc ihp =>
    have hself := self_mem_places s o
    have htrailing : s.trailing = some route →
        cell g (s.trailingEdge o) = s.trailingBase o := fun ht => h.trailingEdge (by simp [ht])
    have hwild : ∀ r, s.special = .wildcard r → cell g (o + 1) = s.specialBase o := by
      intro r hr
      cases h.encodes with
      | node _ _ hwildcard _ _ _ _ => exact (hwildcard r hr).1
    rw [mem_terms]
    constructor
    · rintro (⟨ht, rfl⟩ | ⟨x, hx, hmem⟩ | hmem | ⟨ht, rfl⟩)
      · exact ⟨_, hself, Or.inl ⟨ht, rfl⟩⟩
      · obtain ⟨z, hz, hterm⟩ := (ihc x.1 (placed_mem hx).1 (h.child hx)).mp hmem
        exact ⟨z, child_mem_places hx hz, hterm⟩
      · cases hc : s.special with
        | param p =>
          rw [hc] at hmem
          obtain ⟨z, hz, hterm⟩ := (ihp p hc (h.param hc)).mp hmem
          exact ⟨z, param_mem_places hc hz, hterm⟩
        | wildcard r =>
          rw [hc, termsSpecial, List.mem_singleton, Prod.mk.injEq] at hmem
          obtain ⟨rfl, rfl⟩ := hmem
          exact ⟨_, hself, Or.inr (Or.inl ⟨hc, (hwild _ hc).symm⟩)⟩
        | _ => simp [hc, termsSpecial] at hmem
      · exact ⟨_, hself, Or.inr (Or.inr ⟨ht, (htrailing ht).symm⟩)⟩
    · rintro ⟨x, hx, hterm⟩
      rcases mem_places.mp hx with rfl | ⟨z, hz, hx⟩ | ⟨p, hp, hx⟩
      · rcases hterm with ⟨ht, rfl⟩ | ⟨hc, rfl⟩ | ⟨ht, rfl⟩
        · exact Or.inl ⟨ht, rfl⟩
        · refine Or.inr (Or.inr (Or.inl ?_))
          dsimp only at hc ⊢
          rw [hwild _ hc, hc]
          exact List.mem_singleton_self _
        · exact Or.inr (Or.inr (Or.inr ⟨ht, htrailing ht⟩))
      · exact Or.inr (Or.inl ⟨z, hz,
          (ihc z.1 (placed_mem hz).1 (h.child hz)).mpr ⟨x, hx, hterm⟩⟩)
      · refine Or.inr (Or.inr (Or.inl ?_))
        rw [hp]
        exact (ihp p hp (h.param hp)).mpr ⟨x, hx, hterm⟩

/-- The terminals stand at the flagged cells among those of nodes, and at no others. -/
theorem flagged_iff (h : Packed L router g s o) : (∃ route, (ref, route) ∈ s.terms o) ↔
    ∃ role : Role, (ref, role) ∈ s.cells o ∧ role.isNode ∧
      hasFlag (cell g ref) nodeFlagTerminal = true := by
  have hs := h.sound
  have hcells := h.encodes.cells_hold hs
  constructor
  · rintro ⟨route, hmem⟩
    obtain ⟨x, hx, hterm⟩ := (mem_terms_places h).mp hmem
    have hplace := h.place hx
    have hflag : ∀ role : Role, (ref, role) ∈ x.1.cells x.2 → role.isNode →
        (∀ n t p w tr, role = .node n t p w tr → t = true) →
        ∃ role : Role, (ref, role) ∈ s.cells o ∧ role.isNode ∧
          hasFlag (cell g ref) nodeFlagTerminal = true := by
      intro role hrole hnode ht
      have hmem := places_cells hs hx hrole
      refine ⟨role, hmem, hnode, ?_⟩
      have hhold := hcells _ hmem
      cases role with
      | node n t p w tr => exact hhold.2.1.trans (ht n t p w tr rfl)
      | _ => simp [Role.isNode] at hnode
    rcases hterm with ⟨ht, rfl⟩ | ⟨hc, rfl⟩ | ⟨ht, rfl⟩
    · refine hflag x.1.role (self_mem_cells x.1 x.2) rfl (fun n t p w tr he => ?_)
      rw [Segment.role, Role.node.injEq] at he
      rw [← he.2.1, ht]
      rfl
    · have hedge : cell g (x.2 + 1) = x.1.specialBase x.2 := by
        cases hplace.encodes with
        | node _ _ hwildcard _ _ _ _ => exact (hwildcard route hc).1
      refine hflag .last ?_ rfl (fun n t p w tr he => ?_)
      · rw [hedge]
        exact special_mem_cells (by rw [hc]; exact List.mem_singleton_self _)
      · rw [Role.last, Role.node.injEq] at he
        exact he.2.1.symm
    · have htrailing : x.1.trailing.isSome := by simp [ht]
      refine hflag .last ?_ rfl (fun n t p w tr he => ?_)
      · rw [hplace.trailingEdge htrailing]
        exact last_mem_cells htrailing
      · rw [Role.last, Role.node.injEq] at he
        exact he.2.1.symm
  · rintro ⟨role, hmem, hnode, hflag⟩
    obtain ⟨x, hx, hcase⟩ := cells_places hs hmem hnode
    have hplace := h.place hx
    simp only [mem_terms_places h]
    rcases hcase with he | ⟨r, hc, he⟩ | ⟨ht, he⟩
    · obtain ⟨rfl, rfl⟩ := Prod.mk.inj he
      rw [hplace.word, word_terminal hplace.sound.node.count_le] at hflag
      obtain ⟨route, ht⟩ := Option.isSome_iff_exists.mp hflag
      exact ⟨route, x, hx, Or.inl ⟨ht, rfl⟩⟩
    · obtain ⟨rfl, rfl⟩ := Prod.mk.inj he
      refine ⟨r, x, hx, Or.inr (Or.inl ⟨hc, ?_⟩)⟩
      cases hplace.encodes with
      | node _ _ hwildcard _ _ _ _ => exact (hwildcard r hc).1.symm
    · obtain ⟨rfl, rfl⟩ := Prod.mk.inj he
      obtain ⟨route, hr⟩ := Option.isSome_iff_exists.mp ht
      exact ⟨route, x, hx, Or.inr (Or.inr ⟨hr, (hplace.trailingEdge ht).symm⟩)⟩

end Terms

/-! ## Searching the dictionary -/

/-- The offset at an index, and the pairs of the two arrays. -/
def Terminals.ref (t : Terminals) (i : Nat) : Nat := t.refsData.getD i 0

/-- The lookup is the library search over the offsets. -/
theorem terminalLookup_eq (t : Terminals) (ref : Nat) :
    terminalLookup t ref = (Search.search 16 t.ref ref t.count).bind (t.baseData[·]?) := by
  have hkeys : (fun i => t.refsData.getD i 0) = t.ref := rfl
  rw [terminalLookup, hkeys]
  cases Search.search 16 t.ref ref t.count <;> rfl

section Holds

variable {t : Terminals} {cap : Nat} {ts : List (Nat × Route)}

theorem Terminals.Holds.pairs (h : t.Holds cap ts) (ref : Nat) (route : Route) :
    (∃ i < t.count, t.ref i = ref ∧ t.baseData[i]? = some route) ↔ (ref, route) ∈ ts := by
  constructor
  · rintro ⟨i, hi, href, hroute⟩
    rw [h.count] at hi
    have hget := List.getElem?_eq_getElem hi
    have hpair : (ref, route) = ts[i] := by
      refine Prod.ext (href.symm.trans (h.refs i _ hget)) ?_
      exact Option.some.inj (hroute.symm.trans (h.base i _ hget))
    rw [hpair]
    exact List.getElem_mem hi
  · intro hmem
    obtain ⟨i, hi⟩ := List.getElem?_of_mem hmem
    have hlt := (List.getElem?_eq_some_iff.mp hi).1
    exact ⟨i, by rw [h.count]; exact hlt, h.refs i _ hi, h.base i _ hi⟩

theorem Terminals.Holds.refs_mem (h : t.Holds cap ts) (ref : Nat) :
    (∃ i < t.count, t.ref i = ref) ↔ ∃ route, (ref, route) ∈ ts := by
  simp only [← h.pairs]
  constructor
  · rintro ⟨i, hi, href⟩
    have hlt : i < ts.length := h.count ▸ hi
    exact ⟨ts[i].2, i, hi, href, h.base i _ (List.getElem?_eq_getElem hlt)⟩
  · rintro ⟨route, i, hi, href, -⟩
    exact ⟨i, hi, href⟩

theorem Terminals.Holds.increasing (h : t.Holds cap ts)
    (hs : ts.Pairwise (fun x y => x.1 < y.1)) : Search.Increasing t.ref t.count := by
  intro i j hij hj
  rw [h.count] at hj
  rw [Terminals.ref, Terminals.ref, h.refs i _ (List.getElem?_eq_getElem (by omega)),
    h.refs j _ (List.getElem?_eq_getElem hj)]
  exact List.pairwise_iff_getElem.mp hs i j (by omega) hj hij

end Holds

/-! ## Jumps to the lookup -/

/-- The offset with which a pass of the matcher jumps to the lookup, if it does. -/
def exitRef (L : Libc) (router : Router) (g : List Nat) (s : MatchState) : Option Nat :=
  let r := lexerNext s.lx
  let tok := r.1
  let node := s.cursor
  let word := cell g node
  let s := { s with lx := r.2 }.enter word tok
  match tok.type with
  | .literal =>
    match literalEdge L router g s.cursor (word &&& nodeLiteralsMask) tok with
    | some _ => none
    | none => if hasFlag word nodeFlagHasParam then none else s.wEdge.map (cell g)
  | .trailing => if hasFlag word nodeFlagHasTrailing then some (cell g (s.tEdge.getD 0)) else none
  | .end_ => if hasFlag word nodeFlagTerminal then some node else none
  | _ => none

variable {L : Libc} {router : Router} {g : List Nat} {m : MatchState} {s : Segment}
  {fallback : Fallback} {recorded : List Param}

/-- A pass goes on, fails, or ends with the lookup of the offset it jumps with. -/
theorem matchStep_exitRef (L : Libc) (router : Router) (g : List Nat) (m : MatchState) :
    (∀ ref, exitRef L router g m = some ref → ∃ m',
      matchStep L router g m = .done (terminalLookup router.terminals ref) m') ∧
    (exitRef L router g m = none →
      (∃ m', matchStep L router g m = .next m') ∨
        ∃ m' : MatchState, matchStep L router g m = m'.notFound) := by
  rw [exitRef, matchStep]
  dsimp only
  generalize MatchState.enter { m with lx := (lexerNext m.lx).2 } (cell g m.cursor)
    (lexerNext m.lx).1 = m₁
  cases (lexerNext m.lx).1.type with
  | literal =>
    cases literalEdge L router g m₁.cursor (cell g m.cursor &&& nodeLiteralsMask)
      (lexerNext m.lx).1 with
    | some offset => exact ⟨by simp, fun _ => Or.inl ⟨_, rfl⟩⟩
    | none =>
      cases hasFlag (cell g m.cursor) nodeFlagHasParam with
      | true => exact ⟨by simp, fun _ => Or.inl ⟨_, rfl⟩⟩
      | false =>
        cases hw : m₁.wEdge with
        | some wEdge => exact ⟨by simp, by simp⟩
        | none => exact ⟨by simp, fun _ => Or.inr ⟨m₁, by simp⟩⟩
  | trailing =>
    cases hasFlag (cell g m.cursor) nodeFlagHasTrailing with
    | true => exact ⟨by simp, by simp⟩
    | false => exact ⟨by simp, fun _ => Or.inr ⟨m₁, by simp⟩⟩
  | end_ =>
    cases hasFlag (cell g m.cursor) nodeFlagTerminal with
    | true => exact ⟨by simp, by simp⟩
    | false => exact ⟨by simp, fun _ => Or.inr ⟨m₁, by simp⟩⟩
  | _ => exact ⟨by simp, fun _ => Or.inr ⟨m₁, rfl⟩⟩

/-- What a pass jumps with on a packed tree is found. -/
theorem Follows.exitRef_found (h : Follows L router g m s fallback recorded)
    (hshort : ((lexerNext m.lx).1.ptr.getD []).length < 65536) {ref : Nat}
    (hexit : exitRef L router g m = some ref) :
    (terminalLookup router.terminals ref).isSome := by
  have hmax := h.packed.sound.node.count_le
  have he := enter_follows h hshort
  rw [exitRef] at hexit
  simp only [h.packed.word] at hexit
  generalize MatchState.enter { m with lx := (lexerNext m.lx).2 } s.word (lexerNext m.lx).1 = m₁
    at he hexit
  split at hexit
  · -- the remembered wildcard
    split at hexit
    · simp at hexit
    split at hexit
    · simp at hexit
    obtain ⟨i, hi, rfl⟩ := Option.map_eq_some_iff.mp hexit
    have hrem := he.wildcard
    cases hf : remember s (lexerNext m.lx).1 fallback with
    | none =>
      rw [hf] at hrem
      have hw : m₁.wEdge = none := hrem
      simp [hi] at hw
    | some fb =>
      rw [hf] at hrem
      obtain ⟨j, hj, hlook, -⟩ := hrem
      obtain rfl : i = j := Option.some.inj (hi.symm.trans hj)
      rw [hlook]
      rfl
  · rw [word_trailing hmax] at hexit
    split at hexit
    · rename_i ht
      obtain ⟨r, hr⟩ := Option.isSome_iff_exists.mp ht
      obtain rfl := Option.some.inj hexit
      rw [he.trailing ht, Option.getD_some, h.packed.trailingEdge ht,
        h.packed.lookup (r := r) (by rw [terms_eq, hr]; simp)]
      rfl
    · simp at hexit
  · rw [word_terminal hmax] at hexit
    split at hexit
    · rename_i ht
      obtain ⟨r, hr⟩ := Option.isSome_iff_exists.mp ht
      obtain rfl := Option.some.inj hexit
      rw [h.packed.lookup (r := r) (by rw [terms_eq, hr]; simp)]
      rfl
    · simp at hexit
  · simp at hexit

def Passes (L : Libc) (router : Router) (g : List Nat) (m m' : MatchState) : Prop :=
  matchStep L router g m = .next m'

structure Running (L : Libc) (router : Router) (g : List Nat) (m : MatchState) : Prop where
  follows : ∃ s fallback recorded, Follows L router g m s fallback recorded
  tokens : ∃ fuel, (∀ t ∈ lexerRun (fuel + 1) m.lx,
    (t.type = .literal → t.Named) ∧ (t.ptr.getD []).length < 65536) ∧
    ∃ t ∈ lexerRun (fuel + 1) m.lx, t.type ≠ .literal

theorem lexerRun_head (fuel : Nat) (lx : Lexer) : (lexerNext lx).1 ∈ lexerRun (fuel + 1) lx := by
  rw [lexerRun]
  split <;> exact List.mem_cons_self

/-- The step lemma: a pass of the matcher leads from node to node of the tree. -/
theorem Running.step {m' : MatchState} (h : Running L router g m) (hl : router.literals.Ok)
    (hstep : Passes L router g m m') : Running L router g m' := by
  obtain ⟨⟨s, fallback, recorded, hf⟩, fuel, hgood, t, ht, hne⟩ := h
  have hhead := hgood _ (lexerRun_head fuel m.lx)
  have hfollows := matchStep_follows hf hhead.2 hl hhead.1
  rw [hstep] at hfollows
  cases hfollows with
  | next hlit hlx halloc hf' hwalk =>
    have hrun : lexerRun (fuel + 1) m.lx = (lexerNext m.lx).1 :: lexerRun fuel m'.lx := by
      rw [lexerRun, if_pos hlit, hlx]
    rw [hrun] at hgood ht
    have ht' : t ∈ lexerRun fuel m'.lx := by
      rcases List.mem_cons.mp ht with rfl | ht
      · exact absurd hlit hne
      · exact ht
    cases fuel with
    | zero => simp [lexerRun] at ht'
    | succ fuel =>
      exact ⟨⟨_, _, _, hf'⟩, fuel, fun u hu => hgood u (List.mem_cons_of_mem _ hu), t, ht', hne⟩

def matchStart (d : Dispatcher) (path : Bytes) : MatchState :=
  ⟨0, none, none, none, none, none, lexerLoad (some path), { d.params with count := 0 }, []⟩

/-- The run that answers a request starts there. -/
theorem resolveRequest_start (L : Libc) {d : Dispatcher} {block : Block} {g : List Nat}
    (hgraph : d.router.graph = some ⟨block, g⟩) (path : Bytes) : resolveRequest L d path =
      (matchLoop L d.router g ((lexerLoad (some path)).length + 1) (matchStart d path)).map fun r =>
        ⟨r.1, { d with lx := r.2.lx, params := r.2.params }, r.2.touched⟩ := by
  simp only [resolveRequest, routeMatch, hgraph]
  rfl

theorem running_start {d : Dispatcher} (h : Packed L d.router g s 0) (path : Bytes) :
    Running L d.router g (matchStart d path) := by
  refine ⟨⟨s, none, [], h, rfl, by simp [matchStart, Params.list], rfl⟩,
    (lexerLoad (some path)).length, ?_⟩
  rw [matchStart, lexerRun_length]
  exact ⟨fun t ht => lexerTokens_mem ht, lexerTokens_ends path⟩

/-- The run lemma, by induction on the passes. -/
theorem Running.reaches {m' : MatchState} (h : Running L router g m) (hl : router.literals.Ok)
    (hrun : Relation.ReflTransGen (Passes L router g) m m') : Running L router g m' := by
  induction hrun with
  | refl => exact h
  | tail _ hstep ih => exact ih.step hl hstep

/-- The dictionary of a compiled router: increasing offsets, exactly those of the flagged
nodes, each with the route that ends there; either search gives the same answer, and no
jump of the matcher misses. -/
theorem terminal_dictionary (L : Libc) {options : Options} {routes : List (Bytes × Route)}
    {b : Builder} (hb : Built options routes b) {w : World} {router : Router}
    (hr : (wrouterCompile L (some b) w).1 = some router) :
    ∃ block g, router.graph = some ⟨block, g⟩ ∧
      Search.Increasing router.terminals.ref router.terminals.count ∧
      (∀ ref, (∃ i < router.terminals.count, router.terminals.ref i = ref) ↔
        ∃ role : Role, (ref, role) ∈ b.root.cells 0 ∧ role.isNode ∧
          hasFlag (cell g ref) nodeFlagTerminal = true) ∧
      (∀ ref route, (∃ i < router.terminals.count, router.terminals.ref i = ref ∧
          router.terminals.baseData[i]? = some route) ↔
        ∃ x ∈ b.root.places 0, Terminates g x ref route) ∧
      (∀ ref, Search.halvingWord (fun x k => (x : Int) - k) router.terminals.ref ref
          router.terminals.count 0 router.terminals.count =
          Search.scan router.terminals.ref ref router.terminals.count 0 ∧
        terminalLookup router.terminals ref =
          (Search.scan router.terminals.ref ref router.terminals.count 0).bind
            (router.terminals.baseData[·]?)) ∧
      ∀ (d : Dispatcher) (path : Bytes), d.router = router →
        resolveRequest L d path = ((matchLoop L router g ((lexerLoad (some path)).length + 1)
          (matchStart d path)).map fun r =>
            ⟨r.1, { d with lx := r.2.lx, params := r.2.params }, r.2.touched⟩) ∧
        ∀ m, Relation.ReflTransGen (Passes L router g) (matchStart d path) m →
          ∀ ref, exitRef L router g m = some ref →
            (terminalLookup router.terminals ref).isSome ∧
            ∃ m', matchStep L router g m = .done (terminalLookup router.terminals ref) m' := by
  have hfrom := wrouterCompile_ok hr
  have hholds := hb.holds.1
  obtain ⟨block, g, hgraph, -, hl, -, hpacked⟩ := packed_of_compiled hholds hfrom
  have hdict := terminals_of_compiled hholds hfrom
  have hinc := hdict.increasing (terms_sorted hholds.sound 0)
  have hshort : router.terminals.count < 2 ^ 16 := by
    have := hdict.short
    have := hdict.le
    have := hdict.count
    omega
  refine ⟨block, g, hgraph, hinc, fun ref => ?_, fun ref route => ?_, fun ref => ⟨?_, ?_⟩,
    fun d path hd => ?_⟩
  · rw [hdict.refs_mem, flagged_iff hpacked]
  · rw [hdict.pairs, mem_terms_places hpacked]
  · rw [Search.halvingWord_eq hshort (fun i _ => rfl), Search.halving_eq_scan hinc]
  · have hsearch : Search.search 16 router.terminals.ref ref router.terminals.count =
        Search.scan router.terminals.ref ref router.terminals.count 0 := by
      unfold Search.search
      split
      · exact Search.halving_eq_scan hinc
      · rfl
    rw [terminalLookup_eq, hsearch]
  · subst hd
    refine ⟨resolveRequest_start L hgraph path, fun m hrun ref hexit => ?_⟩
    obtain ⟨⟨s, fallback, recorded, hf⟩, fuel, hgood, -⟩ :=
      (running_start hpacked path).reaches hl hrun
    exact ⟨hf.exitRef_found (hgood _ (lexerRun_head fuel m.lx)).2 hexit,
      (matchStep_exitRef L d.router g m).1 ref hexit⟩

/-- A terminal, a wildcard and a trailing slash, in increasing offsets. -/
theorem terminal_dictionary_three : ∃ (b : Builder) (router : Router),
    Built plainOptions
        [(ascii "/b", ⟨0, 1⟩), (ascii "/a/*", ⟨0, 2⟩), (ascii "/c/:x/", ⟨0, 3⟩)] b ∧
      (wrouterCompile .reference (some b) .empty).1 = some router ∧
      Search.Increasing router.terminals.ref router.terminals.count := by
  obtain ⟨b, hb, hok⟩ : ∃ b, Built plainOptions
        [(ascii "/b", ⟨0, 1⟩), (ascii "/a/*", ⟨0, 2⟩), (ascii "/c/:x/", ⟨0, 3⟩)] b ∧
      (wrouterCompile .reference (some b) .empty).1.isSome :=
    buildRoutes_any (w := .empty) (by decide +kernel)
  obtain ⟨router, hc⟩ := Option.isSome_iff_exists.mp hok
  obtain ⟨block, g, -, hinc, -⟩ := terminal_dictionary .reference hb hc
  exact ⟨b, router, hb, hc, hinc⟩

end Wrouter
