import Mathlib.Data.Nat.Bitwise
import Wrouter.Layout
import Wrouter.Request

/-!
# The walk over the tree, and the matcher that follows it

Token by token down the segment tree itself: what a lookup means before anything
is packed. The matcher takes the same steps on the compiled graph, with a cursor
for the node and an edge for the remembered wildcard.
-/
namespace Wrouter

open CLib

structure Walk where
  route : Option Route
  recorded : List Param
  deriving DecidableEq, Repr

/-- The parameters a caller sees; without a route there are none. -/
def Walk.params (w : Walk) : List Param := if w.route.isSome then w.recorded else []

/-- The deepest wildcard met so far, with the request from the segment met there on. -/
abbrev Fallback := Option (Route × Option Bytes)

/-- A node's own wildcard replaces the one remembered. -/
def remember (s : Segment) (tok : Token) (fallback : Fallback) : Fallback :=
  match s.special with
  | .wildcard r => some (r, tok.ptr)
  | _ => fallback

theorem remember_wildcard {s : Segment} {r : Route} (h : s.special = .wildcard r) (tok : Token)
    (fallback : Fallback) : remember s tok fallback = some (r, tok.ptr) := by
  rw [remember, h]

theorem remember_other {s : Segment} (h : ∀ r, s.special ≠ .wildcard r) (tok : Token)
    (fallback : Fallback) : remember s tok fallback = fallback := by
  unfold remember
  split
  · rename_i r hr
    exact absurd hr (h r)
  · rfl

def treeWalk : List Token → Segment → Fallback → List Param → Walk
  | [], _, _, recorded => ⟨none, recorded⟩
  | tok :: toks, s, fallback, recorded =>
    let fallback := remember s tok fallback
    match tok.type with
    | .literal =>
      match s.children.find? (fun c => c.label = tok.text) with
      | some c => treeWalk toks c fallback recorded
      | none =>
        match s.special with
        | .param p => treeWalk toks p fallback (recorded ++ [⟨some p.label, tok.ptr, tok.length⟩])
        | _ =>
          match fallback with
          | some (r, value) =>
            ⟨some r, recorded ++ [⟨some wildcardParam, value, (value.getD []).length⟩]⟩
          | none => ⟨none, recorded⟩
    | .trailing => ⟨s.trailing, recorded⟩
    | .end_ => ⟨s.terminal, recorded⟩
    | _ => ⟨none, recorded⟩

/-! ## Reading a node's cell -/

theorem hasFlag_two_pow (w k : Nat) : hasFlag w (2 ^ k) = w.testBit k := by
  rw [hasFlag, Nat.and_two_pow]
  cases w.testBit k <;> simp

theorem testBit_flagBit (b : Bool) (j k : Nat) :
    (flagBit b (2 ^ j)).testBit k = (b && decide (j = k)) := by
  cases b <;> simp [flagBit, Nat.testBit_two_pow]

section Word

variable {s : Segment} (h : s.children.length ≤ nodeMaxChildCount)

include h

theorem word_testBit {k : Nat} (hk : 12 ≤ k) : s.word.testBit k =
    (s.terminal.isSome && decide (12 = k) || s.special.isParam && decide (13 = k) ||
      s.special.isWildcard && decide (14 = k) || s.trailing.isSome && decide (15 = k)) := by
  have hn : s.children.length.testBit k = false := by
    refine Nat.testBit_lt_two_pow (Nat.lt_of_lt_of_le ?_ (Nat.pow_le_pow_right (by decide) hk))
    unfold nodeMaxChildCount at h
    omega
  simp only [Segment.word, Nat.testBit_or, nodeFlagTerminal, nodeFlagHasParam, nodeFlagHasWildcard,
    nodeFlagHasTrailing, testBit_flagBit, hn, Bool.false_or]

theorem word_terminal : hasFlag s.word nodeFlagTerminal = s.terminal.isSome := by
  rw [nodeFlagTerminal, hasFlag_two_pow, word_testBit h (by decide)]
  simp

theorem word_param : hasFlag s.word nodeFlagHasParam = s.special.isParam := by
  rw [nodeFlagHasParam, hasFlag_two_pow, word_testBit h (by decide)]
  simp

theorem word_wildcard : hasFlag s.word nodeFlagHasWildcard = s.special.isWildcard := by
  rw [nodeFlagHasWildcard, hasFlag_two_pow, word_testBit h (by decide)]
  simp

theorem word_trailing : hasFlag s.word nodeFlagHasTrailing = s.trailing.isSome := by
  rw [nodeFlagHasTrailing, hasFlag_two_pow, word_testBit h (by decide)]
  simp

theorem word_literals : s.word &&& nodeLiteralsMask = s.children.length := by
  have hflag (b : Bool) (j : Nat) (hj : 12 ≤ j) : flagBit b (2 ^ j) % 2 ^ 12 = 0 := by
    cases b
    · rfl
    · exact Nat.mod_eq_zero_of_dvd (Nat.pow_dvd_pow 2 hj)
  rw [nodeLiteralsMask, Nat.and_two_pow_sub_one_eq_mod, Segment.word]
  simp only [Nat.or_mod_two_pow, nodeFlagTerminal, nodeFlagHasParam, nodeFlagHasWildcard,
    nodeFlagHasTrailing, hflag _ 12 (by decide), hflag _ 13 (by decide), hflag _ 14 (by decide),
    hflag _ 15 (by decide), Nat.or_zero]
  unfold nodeMaxChildCount at h
  exact Nat.mod_eq_of_lt (by omega)

end Word

/-! ## The literal edges of a node -/

theorem consistent_edgeCmp : Consistent edgeCmp where
  swap a b := by
    unfold edgeCmp
    grind
  trans a b c := by
    unfold edgeCmp
    grind

theorem edgeCmp_neg {a b : Nat × Nat} : edgeCmp a b < 0 ↔ a.1 < b.1 := by
  unfold edgeCmp
  split
  · omega
  · split <;> omega

theorem edgeCmp_eq {a b : Nat × Nat} : edgeCmp a b = 0 ↔ a.1 = b.1 := by
  unfold edgeCmp
  split
  · omega
  · split <;> omega

section Edges

variable {L : Libc} {router : Router} {g : List Nat} {s : Segment} {o : Nat}

theorem Packed.label_mem (h : Packed L router g s o) {c : Segment} (hc : c ∈ s.children) :
    c.label ∈ router.literals.texts := by
  obtain ⟨e, he⟩ := List.exists_mem_of_ne_nil _ (h.sound.node.live c hc)
  exact h.literals _ (mem_routes.mpr (Or.inr (Or.inl ⟨c, hc, e, he, rfl⟩))) _ List.mem_cons_self

/-- In the sorted edges symbols increase strictly, and the edges are those of the children. -/
theorem Packed.sorted (h : Packed L router g s o) :
    Search.Increasing (fun i => cell g (s.literalBase o + i * 2)) s.children.length ∧
      ∀ sym off, (∃ i < s.children.length, cell g (s.literalBase o + i * 2) = sym ∧
        cell g (s.literalBase o + i * 2 + 1) = off) ↔
          (sym, off) ∈ s.edges router.literals o := by
  have hread : readEdges g (s.literalBase o) s.children.length =
      L.qsort edgeCmp (s.edges router.literals o) := by
    cases h.encodes with
    | node _ _ _ _ hs _ _ => exact hs
  have hdistinct : (s.edges router.literals o).Pairwise (fun a b => edgeCmp a b ≠ 0) := by
    have hlabels : ((placed (s.childBase o) s.children).map fun x => x.1.label).Nodup := by
      have := h.sound.node.distinct
      rw [← placed_fst (s.childBase o) s.children, List.map_map] at this
      exact this
    rw [Segment.edges, List.pairwise_map]
    rw [List.Nodup, List.pairwise_map] at hlabels
    refine hlabels.imp_of_mem (fun {x y} hx hy hne he => hne ?_)
    exact symbolOf_inj (h.label_mem (placed_mem hx).1) (h.label_mem (placed_mem hy).1)
      (edgeCmp_eq.mp he)
  have hstrict := L.qsort_strict consistent_edgeCmp hdistinct
  have hperm := L.qsort_perm edgeCmp (s.edges router.literals o)
  rw [← hread] at hstrict hperm
  constructor
  · intro i j hij hj
    have := List.pairwise_iff_getElem.mp hstrict i j (by simp; omega) (by simpa using hj) hij
    rw [edgeCmp_neg] at this
    have hi := readEdges_getElem? g (s.literalBase o)
      (show i < s.children.length by omega)
    have hj := readEdges_getElem? g (s.literalBase o) hj
    rw [(List.getElem?_eq_some_iff.mp hi).2, (List.getElem?_eq_some_iff.mp hj).2] at this
    exact this
  · intro sym off
    rw [← hperm.mem_iff]
    constructor
    · rintro ⟨i, hi, rfl, rfl⟩
      exact List.mem_of_getElem? (readEdges_getElem? _ _ hi)
    · intro hmem
      obtain ⟨i, hi⟩ := List.getElem?_of_mem hmem
      have hlt : i < s.children.length := by
        simpa using (List.getElem?_eq_some_iff.mp hi).1
      rw [readEdges_getElem? _ _ hlt, Option.some.injEq, Prod.mk.injEq] at hi
      exact ⟨i, hlt, hi⟩

variable {tok : Token}

/-- A literal resolves to the symbol of its bytes. -/
theorem symbolNresolve_text (hl : router.literals.Ok) (hn : tok.Named) :
    symbolNresolve L router.literals (tok.ptr.getD []) tok.length =
      router.literals.symbolOf tok.text := by
  obtain ⟨p, hp, hle, hf⟩ := hn
  simp only [Token.text, hp, Option.getD_some]
  exact symbolNresolve_eq L hl hle hf

/-- The edge of the child that the segment names. -/
theorem literalEdge_child (h : Packed L router g s o) (hl : router.literals.Ok) (hn : tok.Named)
    {x : Segment × Nat} (hx : x ∈ placed (s.childBase o) s.children) (ht : x.1.label = tok.text) :
    literalEdge L router g (s.literalBase o) s.children.length tok = some x.2 := by
  have hc := (placed_mem hx).1
  have hsym : router.literals.symbolOf tok.text ≠ 0 := by
    rw [← ht]
    exact (symbolOf_ne_zero _).mpr (h.label_mem hc)
  have hlen : s.children.length ≠ 0 := by
    have := List.length_pos_of_mem hc
    omega
  obtain ⟨hinc, hedge⟩ := h.sorted
  obtain ⟨i, hi, hkey, hoff⟩ := (hedge (router.literals.symbolOf tok.text) x.2).mpr
    (List.mem_map.mpr ⟨x, hx, by rw [ht]⟩)
  have hfound := (Search.search_eq_some hinc 16 i).mpr ⟨hi, hkey⟩
  rw [literalEdge, if_neg hlen, symbolNresolve_text hl hn]
  simp only [hsym, if_false, hfound, hoff]

/-- No edge where no child has the segment's name. -/
theorem literalEdge_none (h : Packed L router g s o) (hl : router.literals.Ok) (hn : tok.Named)
    (hno : ∀ c ∈ s.children, c.label ≠ tok.text) :
    literalEdge L router g (s.literalBase o) s.children.length tok = none := by
  rw [literalEdge, symbolNresolve_text hl hn]
  dsimp only
  split
  · rfl
  split
  · rfl
  rename_i hsym
  obtain ⟨hinc, hedge⟩ := h.sorted
  have hmiss : Search.search 16 (fun i => cell g (s.literalBase o + i * 2))
      (router.literals.symbolOf tok.text) s.children.length = none := by
    rw [Search.search_eq_none hinc]
    intro i hi hkey
    obtain ⟨x, hx, he⟩ := List.mem_map.mp ((hedge _ _).mp ⟨i, hi, hkey, rfl⟩)
    have hc := (placed_mem hx).1
    exact hno x.1 hc (symbolOf_inj (h.label_mem hc) ((symbolOf_ne_zero _).mp hsym)
      (Prod.mk.inj he).1)
  rw [hmiss]

end Edges

/-! ## The matcher follows the walk -/

def Remembers (router : Router) (g : List Nat) (m : MatchState) : Fallback → Prop
  | none => m.wEdge = none
  | some (r, value) => ∃ i, m.wEdge = some i ∧
      terminalLookup router.terminals (cell g i) = some r ∧ m.wParam = value ∧
      (value.getD []).length < 65536

/-- The matcher's state stands for a node of the tree, a remembered wildcard and the
parameters recorded so far. -/
structure Follows (L : Libc) (router : Router) (g : List Nat) (m : MatchState) (s : Segment)
    (fallback : Fallback) (recorded : List Param) : Prop where
  packed : Packed L router g s m.cursor
  wildcard : Remembers router g m fallback
  params : m.params.list = recorded
  touched : m.touched = List.range recorded.length

structure Agrees (allocated : Nat) (walk : Walk) (route : Option Route) (m : MatchState) :
    Prop where
  route : route = walk.route
  params : m.params.list = walk.params
  touched : m.touched = List.range walk.recorded.length
  allocated : m.params.allocated = allocated

theorem params_list_length (p : Params) : p.list.length = p.count := by simp [Params.list]

/-- Recording a parameter fills the next slot and leaves the others. -/
theorem record_list (m : MatchState) (param : Param) :
    (m.record param).params.list = m.params.list ++ [param] := by
  simp only [MatchState.record, paramNext, Params.list, Params.store, List.range_succ,
    List.map_append, List.map_singleton, if_true]
  congr 1
  refine List.map_congr_left (fun i hi => if_neg ?_)
  exact Nat.ne_of_lt (List.mem_range.mp hi)

theorem record_touched {m : MatchState} {recorded : List Param} (param : Param)
    (hp : m.params.list = recorded) (h : m.touched = List.range recorded.length) :
    (m.record param).touched = List.range (recorded ++ [param]).length := by
  rw [List.length_append, List.length_singleton, List.range_succ, ← h, ← hp, params_list_length]
  rfl

section Matcher

variable {L : Libc} {router : Router} {g : List Nat} {m : MatchState} {s : Segment}
  {fallback : Fallback} {recorded : List Param}

/-- A terminal of the node is in the dictionary. -/
theorem Packed.lookup {o : Nat} (h : Packed L router g s o) {ref : Nat} {r : Route}
    (hmem : (ref, r) ∈ s.terms o) : terminalLookup router.terminals ref = some r :=
  h.terms _ hmem

/-- The cell of a packed node is the node's own word. -/
theorem Packed.word {o : Nat} (h : Packed L router g s o) : cell g o = s.word := by
  cases h.encodes with
  | node hw _ _ _ _ _ _ => exact hw

/-- The parameter edge of a node: its name, then the node it leads to. -/
theorem Packed.paramEdge {o : Nat} (h : Packed L router g s o) {p : Segment}
    (hp : s.special = .param p) : cell g (o + 1) = router.params.symbolOf p.label ∧
      cell g (o + 2) = s.specialBase o := by
  cases h.encodes with
  | node _ hparam _ _ _ _ _ => exact hparam p hp

theorem Packed.trailingEdge {o : Nat} (h : Packed L router g s o) (ht : s.trailing.isSome) :
    cell g (s.trailingEdge o) = s.trailingBase o := by
  cases h.encodes with
  | node _ _ _ htrailing _ _ _ => exact (htrailing ht).1

theorem Packed.param_mem {o : Nat} (h : Packed L router g s o) {p : Segment}
    (hp : s.special = .param p) : p.label ∈ router.params.texts := by
  obtain ⟨-, -, hlive⟩ : SpecialOk s.children (.param p) := hp ▸ h.sound.node.special
  obtain ⟨e, he⟩ := List.exists_mem_of_ne_nil _ hlive
  refine h.params (push (.param p.label) e) ?_ _ List.mem_cons_self
  exact mem_routes.mpr (Or.inr (Or.inr (Or.inl (mem_routesSpecial.mpr (Or.inl ⟨p, hp, e, he, rfl⟩)))))

/-- Where a pass finds the edges of its node. -/
theorem enter_positions {s : Segment} (hmax : s.children.length ≤ nodeMaxChildCount)
    (m : MatchState) (tok : Token) :
    let m' := m.enter s.word tok
    m'.cursor = s.literalBase m.cursor ∧ m'.lx = m.lx ∧ m'.params = m.params ∧
      m'.touched = m.touched ∧
      (s.special.isParam → m'.pSym = some (m.cursor + 1) ∧ m'.pEdge = some (m.cursor + 2)) ∧
      (m'.wEdge, m'.wParam) =
        (if s.special.isWildcard then (some (m.cursor + 1), tok.ptr) else (m.wEdge, m.wParam)) ∧
      (s.trailing.isSome → m'.tEdge = some (s.trailingEdge m.cursor)) := by
  simp only [MatchState.enter, word_param hmax, word_wildcard hmax, word_trailing hmax]
  cases hc : s.special <;> cases ht : s.trailing <;>
    simp [Special.isParam, Special.isWildcard, Segment.literalBase, Segment.trailingEdge,
      trailingWidth, specialWidth, hc, ht]

/-- Entering a node reads its edges and remembers its wildcard. -/
theorem enter_edges (h : Follows L router g m s fallback recorded) (lx : Lexer) (tok : Token)
    (hshort : (tok.ptr.getD []).length < 65536) :
    let m' := MatchState.enter { m with lx := lx } s.word tok
    m'.cursor = s.literalBase m.cursor ∧ m'.lx = lx ∧ m'.params = m.params ∧
      m'.touched = m.touched ∧ Remembers router g m' (remember s tok fallback) ∧
      (∀ p, s.special = .param p → m'.pSym = some (m.cursor + 1) ∧
        m'.pEdge = some (m.cursor + 2)) ∧
      (s.trailing.isSome → m'.tEdge = some (s.trailingEdge m.cursor)) := by
  obtain ⟨hcursor, hlx, hparams, htouched, hparam, hwild, htrailing⟩ :=
    enter_positions h.packed.sound.node.count_le { m with lx := lx } tok
  refine ⟨hcursor, hlx, hparams, htouched, ?_,
    fun p hp => hparam (by simp [hp, Special.isParam]), htrailing⟩
  cases hc : s.special with
  | wildcard r =>
    rw [hc, Special.isWildcard, if_pos rfl, Prod.mk.injEq] at hwild
    have hterm : (s.specialBase m.cursor, r) ∈ s.terms m.cursor := by
      rw [terms_eq, hc]
      simp [termsSpecial]
    have hedge : cell g (m.cursor + 1) = s.specialBase m.cursor := by
      cases h.packed.encodes with
      | node _ _ hwildcard _ _ _ _ => exact (hwildcard r hc).1
    rw [remember_wildcard hc]
    exact ⟨m.cursor + 1, hwild.1, by rw [hedge]; exact h.packed.lookup hterm, hwild.2, hshort⟩
  | _ =>
    have hno : s.special.isWildcard = false := by
      rw [hc]
      rfl
    rw [hno, if_neg (by simp), Prod.mk.injEq] at hwild
    rw [remember_other (by simp [hc])]
    have hrem := h.wildcard
    unfold Remembers at hrem ⊢
    rw [hwild.1, hwild.2]
    exact hrem

structure Entered (router : Router) (g : List Nat) (m : MatchState) (s : Segment)
    (fallback : Fallback) (recorded : List Param) (m₁ : MatchState) : Prop where
  cursor : m₁.cursor = s.literalBase m.cursor
  lx : m₁.lx = (lexerNext m.lx).2
  params : m₁.params.list = recorded
  allocated : m₁.params.allocated = m.params.allocated
  touched : m₁.touched = List.range recorded.length
  wildcard : Remembers router g m₁ (remember s (lexerNext m.lx).1 fallback)
  param : ∀ p, s.special = .param p →
    m₁.pSym = some (m.cursor + 1) ∧ m₁.pEdge = some (m.cursor + 2)
  trailing : s.trailing.isSome → m₁.tEdge = some (s.trailingEdge m.cursor)

/-- Entering a node remembers its wildcard, as the walk does. -/
theorem enter_follows (h : Follows L router g m s fallback recorded)
    (hshort : ((lexerNext m.lx).1.ptr.getD []).length < 65536) :
    Entered router g m s fallback recorded
      (MatchState.enter { m with lx := (lexerNext m.lx).2 } s.word (lexerNext m.lx).1) := by
  obtain ⟨hcursor, hlx, hparams, htouched, hrem, hpar, htr⟩ := enter_edges h
    (lexerNext m.lx).2 (lexerNext m.lx).1 hshort
  exact ⟨hcursor, hlx, by rw [hparams, h.params], by rw [hparams], htouched.trans h.touched, hrem,
    hpar, htr⟩

inductive StepFollows (L : Libc) (router : Router) (g : List Nat) (m : MatchState) (s : Segment)
    (fallback : Fallback) (recorded : List Param) : MatchStep → Prop where
  | next {m' : MatchState} {s' : Segment} {recorded' : List Param} :
      (lexerNext m.lx).1.type = .literal → m'.lx = (lexerNext m.lx).2 →
      m'.params.allocated = m.params.allocated →
      Follows L router g m' s' (remember s (lexerNext m.lx).1 fallback) recorded' →
      (∀ toks, treeWalk ((lexerNext m.lx).1 :: toks) s fallback recorded =
        treeWalk toks s' (remember s (lexerNext m.lx).1 fallback) recorded') →
      StepFollows L router g m s fallback recorded (.next m')
  | done {m' : MatchState} {walk : Walk} :
      Agrees m.params.allocated walk walk.route m' →
      (∀ toks, treeWalk ((lexerNext m.lx).1 :: toks) s fallback recorded = walk) →
      StepFollows L router g m s fallback recorded (.done walk.route m')

section Entered

variable {m₁ : MatchState} (he : Entered router g m s fallback recorded m₁)

include he

/-- A pass that finds nothing, as the walk does. -/
theorem Entered.missed
    (hwalk : ∀ toks, treeWalk ((lexerNext m.lx).1 :: toks) s fallback recorded = ⟨none, recorded⟩) :
    StepFollows L router g m s fallback recorded m₁.notFound := by
  have hag : Agrees m.params.allocated ⟨none, recorded⟩ none
      { m₁ with params := { m₁.params with count := 0 } } :=
    ⟨rfl, by simp [Params.list, Walk.params], he.touched, he.allocated⟩
  exact .done hag hwalk

/-- A pass that ends in a route and records nothing more. -/
theorem Entered.reached {r : Route}
    (hwalk : ∀ toks, treeWalk ((lexerNext m.lx).1 :: toks) s fallback recorded =
      ⟨some r, recorded⟩) :
    StepFollows L router g m s fallback recorded (.done (some r) m₁) := by
  have hag : Agrees m.params.allocated ⟨some r, recorded⟩ (some r) m₁ :=
    ⟨rfl, he.params, he.touched, he.allocated⟩
  exact .done hag hwalk

/-- A pass without an edge to follow takes the wildcard it remembers. -/
theorem Entered.fellBack
    (hwalk : ∀ toks, treeWalk ((lexerNext m.lx).1 :: toks) s fallback recorded =
      match remember s (lexerNext m.lx).1 fallback with
      | some (r, value) =>
        ⟨some r, recorded ++ [⟨some wildcardParam, value, (value.getD []).length⟩]⟩
      | none => ⟨none, recorded⟩) :
    StepFollows L router g m s fallback recorded
      (match m₁.wEdge with
        | some wEdge =>
          .done (terminalLookup router.terminals (cell g wEdge))
            (m₁.record ⟨some wildcardParam, m₁.wParam, u16 (m₁.wParam.getD []).length⟩)
        | none => m₁.notFound) := by
  have hrem := he.wildcard
  cases hf : remember s (lexerNext m.lx).1 fallback with
  | none =>
    rw [hf] at hrem
    have hw : m₁.wEdge = none := hrem
    simp only [hf] at hwalk
    simp only [hw]
    exact he.missed hwalk
  | some fb =>
    obtain ⟨r, value⟩ := fb
    rw [hf] at hrem
    obtain ⟨i, hw, hlook, hvalue, hlen⟩ := hrem
    simp only [hf] at hwalk
    simp only [hw, hvalue, hlook, u16_eq hlen]
    have hag : Agrees m.params.allocated
        ⟨some r, recorded ++ [⟨some wildcardParam, value, (value.getD []).length⟩]⟩ (some r)
        (m₁.record ⟨some wildcardParam, value, (value.getD []).length⟩) := by
      refine ⟨rfl, ?_, record_touched _ he.params he.touched, he.allocated⟩
      rw [record_list, he.params]
      rfl
    exact .done hag hwalk

end Entered

section Step

variable (h : Follows L router g m s fallback recorded)
  (hshort : ((lexerNext m.lx).1.ptr.getD []).length < 65536)

include h hshort

/-- On a segment: its literal edge, else the parameter edge, else the wildcard. -/
theorem matchStep_literal (hl : router.literals.Ok) (hn : (lexerNext m.lx).1.Named)
    (htype : (lexerNext m.lx).1.type = .literal) :
    StepFollows L router g m s fallback recorded (matchStep L router g m) := by
  have hmax := h.packed.sound.node.count_le
  have he := enter_follows h hshort
  rw [matchStep]
  simp only [h.packed.word, word_param hmax, word_literals hmax, htype]
  generalize MatchState.enter { m with lx := (lexerNext m.lx).2 } s.word (lexerNext m.lx).1 = m₁
    at he ⊢
  rw [he.cursor]
  cases hfind : s.children.find? (fun c => c.label = (lexerNext m.lx).1.text) with
  | some c =>
    have hlabel : c.label = (lexerNext m.lx).1.text := by simpa using List.find?_some hfind
    obtain ⟨x, hx, rfl⟩ : ∃ x ∈ placed (s.childBase m.cursor) s.children, x.1 = c := by
      have := List.mem_of_find?_eq_some hfind
      rw [← placed_fst (s.childBase m.cursor) s.children] at this
      simpa using this
    rw [literalEdge_child h.packed hl hn hx hlabel]
    exact .next htype he.lx he.allocated
      ⟨h.packed.child hx, he.wildcard, he.params, he.touched⟩
      (fun toks => by simp only [treeWalk, htype, hfind])
  | none =>
    have hno : ∀ c ∈ s.children, c.label ≠ (lexerNext m.lx).1.text := by
      simpa using List.find?_eq_none.mp hfind
    rw [literalEdge_none h.packed hl hn hno]
    cases hc : s.special with
    | param p =>
      obtain ⟨hsym, hedge⟩ := h.packed.paramEdge hc
      obtain ⟨hpsym, hpedge⟩ := he.param p hc
      have hname : (symbolLookup router.params (cell g (m₁.pSym.getD 0))).map CString.text =
          some p.label := by
        rw [hpsym, Option.getD_some, hsym]
        exact symbolLookup_symbolOf (h.packed.param_mem hc)
      simp only [Special.isParam, if_true, hname]
      have hpacked : Packed L router g p (cell g (m₁.pEdge.getD 0)) := by
        rw [hpedge, Option.getD_some, hedge]
        exact h.packed.param hc
      exact .next htype he.lx he.allocated
        ⟨hpacked, he.wildcard, (record_list m₁ _).trans (by rw [he.params]),
          record_touched _ he.params he.touched⟩
        (fun toks => by simp only [treeWalk, htype, hfind, hc])
    | _ =>
      simp only [Special.isParam, Bool.false_eq_true, if_false]
      refine he.fellBack (fun toks => ?_)
      simp only [treeWalk, htype, hfind, hc]

/-- A last slash ends the pass: the trailing edge, or nothing. -/
theorem matchStep_trailing (htype : (lexerNext m.lx).1.type = .trailing) :
    StepFollows L router g m s fallback recorded (matchStep L router g m) := by
  have hmax := h.packed.sound.node.count_le
  have he := enter_follows h hshort
  rw [matchStep]
  simp only [h.packed.word, word_trailing hmax, htype]
  generalize MatchState.enter { m with lx := (lexerNext m.lx).2 } s.word (lexerNext m.lx).1 = m₁
    at he ⊢
  cases ht : s.trailing with
  | none =>
    simp only [Option.isSome_none, Bool.false_eq_true, if_false]
    exact he.missed (fun toks => by simp only [treeWalk, htype, ht])
  | some r =>
    have hlook : terminalLookup router.terminals (cell g (m₁.tEdge.getD 0)) = some r := by
      rw [he.trailing (by simp [ht]), Option.getD_some, h.packed.trailingEdge (by simp [ht])]
      refine h.packed.lookup ?_
      rw [terms_eq, ht]
      simp
    simp only [Option.isSome_some, if_true, hlook]
    exact he.reached (fun toks => by simp only [treeWalk, htype, ht])

/-- So does the end of the request: the terminal, or nothing. -/
theorem matchStep_end (htype : (lexerNext m.lx).1.type = .end_) :
    StepFollows L router g m s fallback recorded (matchStep L router g m) := by
  have hmax := h.packed.sound.node.count_le
  have he := enter_follows h hshort
  rw [matchStep]
  simp only [h.packed.word, word_terminal hmax, htype]
  generalize MatchState.enter { m with lx := (lexerNext m.lx).2 } s.word (lexerNext m.lx).1 = m₁
    at he ⊢
  cases ht : s.terminal with
  | none =>
    simp only [Option.isSome_none, Bool.false_eq_true, if_false]
    exact he.missed (fun toks => by simp only [treeWalk, htype, ht])
  | some r =>
    have hlook : terminalLookup router.terminals m.cursor = some r := by
      refine h.packed.lookup ?_
      rw [terms_eq, ht]
      simp
    simp only [Option.isSome_some, if_true, hlook]
    exact he.reached (fun toks => by simp only [treeWalk, htype, ht])

/-- One step of the matcher is one step of the walk. -/
theorem matchStep_follows (hl : router.literals.Ok)
    (hnamed : (lexerNext m.lx).1.type = .literal → (lexerNext m.lx).1.Named) :
    StepFollows L router g m s fallback recorded (matchStep L router g m) := by
  cases htype : (lexerNext m.lx).1.type with
  | literal => exact matchStep_literal h hshort hl (hnamed htype) htype
  | trailing => exact matchStep_trailing h hshort htype
  | end_ => exact matchStep_end h hshort htype
  | _ =>
    have he := enter_follows h hshort
    rw [matchStep]
    simp only [h.packed.word, htype]
    exact he.missed (fun toks => by simp only [treeWalk, htype])

end Step

/-- The whole run: as many passes as the walk takes, and the same result. -/
theorem matchLoop_agrees (fuel : Nat) (h : Follows L router g m s fallback recorded)
    (hl : router.literals.Ok)
    (hnamed : ∀ t ∈ lexerRun fuel m.lx, t.type = .literal → t.Named)
    (hshort : ∀ t ∈ lexerRun fuel m.lx, (t.ptr.getD []).length < 65536)
    (hends : ∃ t ∈ lexerRun fuel m.lx, t.type ≠ .literal) :
    ∃ m', matchLoop L router g fuel m =
        some ((treeWalk (lexerRun fuel m.lx) s fallback recorded).route, m') ∧
      Agrees m.params.allocated (treeWalk (lexerRun fuel m.lx) s fallback recorded)
        (treeWalk (lexerRun fuel m.lx) s fallback recorded).route m' := by
  induction fuel generalizing m s fallback recorded with
  | zero => simp [lexerRun] at hends
  | succ fuel ih =>
    obtain ⟨toks, htoks⟩ : ∃ toks, lexerRun (fuel + 1) m.lx = (lexerNext m.lx).1 :: toks := by
      rw [lexerRun]
      split <;> exact ⟨_, rfl⟩
    have hhead : (lexerNext m.lx).1 ∈ lexerRun (fuel + 1) m.lx := by
      rw [htoks]
      exact List.mem_cons_self
    have hfollows := matchStep_follows h (hshort _ hhead) hl (hnamed _ hhead)
    rw [matchLoop]
    cases hstep : matchStep L router g m with
    | next m' =>
      rw [hstep] at hfollows
      cases hfollows with
      | next hlit hlx halloc hfollows hwalk =>
        have hrun : lexerRun (fuel + 1) m.lx = (lexerNext m.lx).1 :: lexerRun fuel m'.lx := by
          rw [lexerRun, if_pos hlit, hlx]
        rw [hrun] at hnamed hshort hends ⊢
        have hends' : ∃ t ∈ lexerRun fuel m'.lx, t.type ≠ .literal := by
          obtain ⟨t, ht, hne⟩ := hends
          rcases List.mem_cons.mp ht with rfl | ht
          · exact absurd hlit hne
          · exact ⟨t, ht, hne⟩
        rw [hwalk, ← halloc]
        exact ih hfollows (fun t ht => hnamed t (List.mem_cons_of_mem _ ht))
          (fun t ht => hshort t (List.mem_cons_of_mem _ ht)) hends'
    | done route m' =>
      rw [hstep] at hfollows
      cases hfollows with
      | done hag hwalk =>
        rw [htoks, hwalk]
        exact ⟨m', rfl, hag⟩

end Matcher

/-! ## Requests to a compiled router -/

def Builder.walk (b : Builder) (path : Bytes) : Walk := treeWalk (lexerTokens path) b.root none []

structure Answers (b : Builder) (d : Dispatcher) (path : Bytes) (r : MatchResult) : Prop where
  route : r.route = (b.walk path).route
  params : r.dispatcher.params.list = (b.walk path).params
  touched : r.touched = List.range (b.walk path).recorded.length
  router : r.dispatcher.router = d.router
  allocated : r.dispatcher.params.allocated = d.params.allocated

theorem lexerTokens_mem {path : Bytes} {t : Token} (ht : t ∈ lexerTokens path) :
    (t.type = .literal → t.Named) ∧ (t.ptr.getD []).length < 65536 := by
  rw [lexerTokens_eq, List.mem_append, List.mem_singleton] at ht
  rcases ht with ht | rfl
  · obtain ⟨-, hn, p, hp, hlen⟩ := requestTokens_literal ht
    exact ⟨fun _ => hn, by simpa [hp] using hlen⟩
  · exact ⟨fun h => absurd h (parse_fin_ne path), by simp [Token.bare]⟩

theorem lexerTokens_ends (path : Bytes) : ∃ t ∈ lexerTokens path, t.type ≠ .literal := by
  refine ⟨Token.bare (parseRequest path).fin, ?_, parse_fin_ne path⟩
  rw [lexerTokens_eq]
  simp

/-- A request to a compiled router answers as the tree does. -/
theorem resolveRequest_answers {L : Libc} {b : Builder} {added : List Entry} {d : Dispatcher}
    (hb : b.Holds added) (hc : CompiledFrom L b d.router) (path : Bytes) :
    ∃ r, resolveRequest L d path = some r ∧ Answers b d path r := by
  obtain ⟨block, g, hgraph, -, hl, -, hpacked⟩ := packed_of_compiled hb hc
  have hstart : Follows L d.router g ⟨0, none, none, none, none, none, lexerLoad (some path),
      { d.params with count := 0 }, []⟩ b.root none [] :=
    ⟨hpacked, rfl, by simp [Params.list], rfl⟩
  obtain ⟨m, hm, hag⟩ := matchLoop_agrees ((lexerLoad (some path)).length + 1) hstart hl
    (by rw [lexerRun_length]; exact fun t ht => (lexerTokens_mem ht).1)
    (by rw [lexerRun_length]; exact fun t ht => (lexerTokens_mem ht).2)
    (by rw [lexerRun_length]; exact lexerTokens_ends path)
  rw [lexerRun_length] at hm hag
  refine ⟨_, by simp only [resolveRequest, routeMatch, hgraph, hm]; rfl, ?_⟩
  exact ⟨rfl, hag.params, hag.touched, rfl, hag.allocated⟩

theorem enter_lx (m : MatchState) (word : Nat) (tok : Token) : (m.enter word tok).lx = m.lx := by
  unfold MatchState.enter
  split <;> split <;> split <;> rfl

/-- Any router whatever: a pass that is not the last has taken a segment. -/
theorem matchStep_next {L : Libc} {router : Router} {g : List Nat} {m m' : MatchState}
    (h : matchStep L router g m = .next m') :
    (lexerNext m.lx).1.type = .literal ∧ m'.lx = (lexerNext m.lx).2 := by
  unfold matchStep at h
  dsimp only at h
  split at h
  · rename_i hlit
    refine ⟨hlit, ?_⟩
    split at h
    · obtain rfl := MatchStep.next.inj h
      exact enter_lx _ _ _
    · split at h
      · obtain rfl := MatchStep.next.inj h
        exact enter_lx _ _ _
      · split at h
        · cases h
        · cases h
  · split at h <;> cases h
  · split at h <;> cases h
  · cases h

/-- The loop ends once the lexer meets a token that is no literal. -/
theorem matchLoop_total (L : Libc) (router : Router) (g : List Nat) (fuel : Nat) {m : MatchState}
    (hends : ∃ t ∈ lexerRun fuel m.lx, t.type ≠ .literal) :
    ∃ r, matchLoop L router g fuel m = some r := by
  induction fuel generalizing m with
  | zero => simp [lexerRun] at hends
  | succ fuel ih =>
    rw [matchLoop]
    cases hm : matchStep L router g m with
    | done route m' => exact ⟨_, rfl⟩
    | next m' =>
      obtain ⟨hlit, hlx⟩ := matchStep_next hm
      refine ih ?_
      rw [lexerRun, if_pos hlit, ← hlx] at hends
      obtain ⟨t, ht, hne⟩ := hends
      obtain rfl | ht := List.mem_cons.mp ht
      · exact absurd hlit hne
      · exact ⟨t, ht, hne⟩

/-- A request comes to its end, whatever the router. -/
theorem resolveRequest_total (L : Libc) (d : Dispatcher) (path : Bytes) :
    ∃ r, resolveRequest L d path = some r := by
  unfold resolveRequest routeMatch
  dsimp only
  cases d.router.graph with
  | none => exact ⟨_, rfl⟩
  | some g =>
    obtain ⟨r, hr⟩ := matchLoop_total L d.router g.data ((lexerLoad (some path)).length + 1)
      (m := ⟨0, none, none, none, none, none, lexerLoad (some path), { d.params with count := 0 }, []⟩)
      (by rw [lexerRun_length]; exact lexerTokens_ends path)
    exact ⟨_, by simp only [hr, Option.map_some]; rfl⟩

/-- So what has no result has left its buffer. -/
theorem request_none {L : Libc} {d : Dispatcher} {path : Bytes} :
    d.request L path = none ↔ d.overruns L path = true := by
  obtain ⟨r, hr⟩ := resolveRequest_total L d path
  rw [Dispatcher.request, hr]
  cases d.overruns L path <;> simp

theorem routes_length_le {s : Segment} (hs : s.Sound) : s.routes.length ≤ s.size := by
  induction hs with
  | node s hn _ _ ihc ihp =>
    have hchildren : ∀ l : List Segment, (∀ c ∈ l, c.routes.length ≤ c.size) →
        (routesChildren l).length ≤ sizeChildren l := by
      intro l hl
      induction l with
      | nil => simp [routesChildren]
      | cons c l ih =>
        obtain ⟨hc, hl⟩ := List.forall_mem_cons.mp hl
        have := ih hl
        simp only [routesChildren, sizeChildren, List.length_append, List.length_map]
        omega
    have hspecial : (routesSpecial s.special).length ≤ sizeSpecial s.special := by
      cases hc : s.special with
      | param p =>
        have := ihp p hc
        simp only [routesSpecial, sizeSpecial, List.length_map]
        omega
      | _ => simp [routesSpecial, sizeSpecial]
    have := hchildren _ ihc
    rw [routes_eq, size_eq]
    cases s.terminal <;> cases s.trailing <;> simp <;> omega

theorem symbolCompile_error {L : Libc} {tbl : SymbolTable} {w : World} :
    (symbolCompile L tbl w).1 = .ok ∨ (symbolCompile L tbl w).1 = .noMemory := by
  unfold symbolCompile
  dsimp only
  split
  · exact Or.inl rfl
  split
  · exact Or.inr rfl
  split
  · exact Or.inr rfl
  · exact Or.inl rfl

/-- With a graph that fits 16 bits, only memory can fail. -/
theorem wrouterCompile_total {L : Libc} {b : Builder} {added : List Entry} (hb : b.Holds added)
    (hsize : (graphStats b.root .zero).size ≤ 65535) (w : World) :
    (∃ router w', wrouterCompile L (some b) w = (some router, .ok, w')) ∨
      ∃ w', wrouterCompile L (some b) w = (none, .noMemory, w') := by
  have hterm : (graphStats b.root .zero).terminals ≤ 65535 := by
    have := routes_length_le hb.sound
    rw [graphStats_zero hb.sound] at hsize ⊢
    exact this.trans hsize
  have herr : ∀ router w, (compileRouter L b router w).1 = .ok ∨
      (compileRouter L b router w).1 = .noMemory := by
    intro router w
    unfold compileRouter
    dsimp only
    rw [if_neg (by omega)]
    split
    · rename_i hne
      exact symbolCompile_error
    split
    · exact symbolCompile_error
    split
    · exact Or.inr rfl
    split
    · exact Or.inr rfl
    · exact Or.inl rfl
  unfold wrouterCompile
  dsimp only
  rw [hb.intact, if_neg (by simp)]
  split
  · exact Or.inr ⟨_, rfl⟩
  split
  · rename_i hne
    rw [(herr _ _).resolve_left hne]
    exact Or.inr ⟨_, rfl⟩
  · exact Or.inl ⟨_, _, rfl⟩

/-- The flat graph refines the route tree. -/
theorem graph_refines_tree (L : Libc) {options : Options} {routes : List (Bytes × Route)}
    {b : Builder} (hb : Built options routes b)
    (hsize : (graphStats b.root .zero).size ≤ 65535) (w : World) :
    (∃ router w', wrouterCompile L (some b) w = (some router, .ok, w') ∧
      ∀ (d : Dispatcher) (path : Bytes), d.router = router →
        ∃ r, resolveRequest L d path = some r ∧
          r.route = (treeWalk (lexerTokens path) b.root none []).route ∧
          r.dispatcher.params.list = (treeWalk (lexerTokens path) b.root none []).params ∧
          r.touched = List.range (treeWalk (lexerTokens path) b.root none []).recorded.length) ∨
    ∃ w', wrouterCompile L (some b) w = (none, .noMemory, w') := by
  rcases wrouterCompile_total (L := L) hb.holds.1 hsize w with ⟨router, w', h⟩ | h
  · refine Or.inl ⟨router, w', h, fun d path hd => ?_⟩
    have hc : CompiledFrom L b d.router := wrouterCompile_ok (w := w) (by rw [h, hd])
    obtain ⟨r, hr, ha⟩ := resolveRequest_answers hb.holds.1 hc path
    exact ⟨r, hr, ha.route, ha.params, ha.touched⟩
  · exact Or.inr h

/-- A wildcard beside a parameter, for every dispatcher and path. -/
theorem graph_refines_tree_pair : ∃ b router w',
    Built plainOptions [(ascii "/*", ⟨0, 1⟩), (ascii "/a/:x/b", ⟨0, 2⟩)] b ∧
      wrouterCompile .reference (some b) .empty = (some router, .ok, w') ∧
      ∀ (d : Dispatcher) (path : Bytes), d.router = router →
        ∃ r, resolveRequest .reference d path = some r ∧
          r.route = (treeWalk (lexerTokens path) b.root none []).route := by
  obtain ⟨b, hb, hsize, hok⟩ :
      ∃ b, Built plainOptions [(ascii "/*", ⟨0, 1⟩), (ascii "/a/:x/b", ⟨0, 2⟩)] b ∧
        (graphStats b.root .zero).size ≤ 65535 ∧
        (wrouterCompile .reference (some b) .empty).2.1 = .ok :=
    buildRoutes_any (w := .empty) (by decide +kernel)
  rcases graph_refines_tree .reference hb hsize .empty with ⟨router, w', hc, hwalk⟩ | ⟨w', hc⟩
  · refine ⟨b, router, w', hb, hc, fun d path hd => ?_⟩
    obtain ⟨r, hr, hroute, -⟩ := hwalk d path hd
    exact ⟨r, hr, hroute⟩
  · simp [hc] at hok

end Wrouter
