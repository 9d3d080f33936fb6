import Wrouter.Cells

/-!
# The matcher stays inside the graph

The matcher once more, with every read guarded: a cell has to lie in the graph, a node has
to be the cell of a node, a symbol has to be one that was compiled. On a compiled router
no guard ever fails, and the segments of the request bound the passes.
-/
namespace Wrouter

open CLib

def Segment.nodeOffsets (s : Segment) (o : Nat) : List Nat :=
  ((s.cells o).filter fun y => y.2.isNode).map Prod.fst

/-- The offset as a node: none unless it is one. -/
def visit (nodes : List Nat) (o : Nat) : Option Nat := if o ∈ nodes then some o else none

/-- `symbol_lookup`, where the symbol has to be one of those compiled. -/
def symbolLookupRead (sym : Symbols) (symbol : Nat) : Option CString :=
  if 1 ≤ symbol ∧ symbol ≤ sym.count then symbolLookup sym symbol else none

def edgeRead (g : List Nat) (edge : Option Nat) : Option Nat := edge.bind fun i => g[i]?

def literalEdgeRead (L : Libc) (router : Router) (g : List Nat) (lEdgeBase nLiterals : Nat)
    (tok : Token) : Option (Option Nat) :=
  if nLiterals = 0 then some none
  else
    let symbol := symbolNresolve L router.literals (tok.ptr.getD []) tok.length
    if symbol = 0 then some none
    else match Search.searchRead 16 (fun i => g[lEdgeBase + i * 2]?) symbol nLiterals with
      | none => none
      | some none => some none
      | some (some i) => (g[lEdgeBase + i * 2 + 1]?).map some

def paramRead (router : Router) (g : List Nat) (s : MatchState) : Option (CString × Nat) :=
  match (edgeRead g s.pSym).bind (symbolLookupRead router.params), edgeRead g s.pEdge with
  | some name, some offset => some (name, offset)
  | _, _ => none

/-- `match_step` with its reads guarded; none where a guard fails. -/
def matchStepRead (L : Libc) (router : Router) (g nodes : List Nat) (s : MatchState) :
    Option MatchStep :=
  let r := lexerNext s.lx
  let tok := r.1
  let node := s.cursor
  match (visit nodes node).bind fun o => g[o]? with
  | none => none
  | some word =>
    let s := { s with lx := r.2 }.enter word tok
    match tok.type with
    | .literal =>
      match literalEdgeRead L router g s.cursor (word &&& nodeLiteralsMask) tok with
      | none => none
      | some (some offset) => some (.next { s with cursor := offset })
      | some none =>
        if hasFlag word nodeFlagHasParam then
          (paramRead router g s).map fun p =>
            .next { s.record ⟨some p.1.text, tok.ptr, tok.length⟩ with cursor := p.2 }
        else match s.wEdge with
          | some wEdge =>
            ((edgeRead g (some wEdge)).bind (visit nodes)).map fun cursor =>
              .done (terminalLookup router.terminals cursor)
                (s.record ⟨some wildcardParam, s.wParam, u16 (s.wParam.getD []).length⟩)
          | none => some s.notFound
    | .trailing =>
      if hasFlag word nodeFlagHasTrailing then
        ((edgeRead g s.tEdge).bind (visit nodes)).map fun cursor =>
          .done (terminalLookup router.terminals cursor) s
      else some s.notFound
    | .end_ =>
      if hasFlag word nodeFlagTerminal then some (.done (terminalLookup router.terminals node) s)
      else some s.notFound
    | _ => some s.notFound

def matchLoopRead (L : Libc) (router : Router) (g nodes : List Nat) :
    Nat → MatchState → Option (Option Route × MatchState)
  | 0, _ => none
  | fuel + 1, s =>
    match matchStepRead L router g nodes s with
    | none => none
    | some (.done route s) => some (route, s)
    | some (.next s) => matchLoopRead L router g nodes fuel s

/-- `route_match` on a loaded request, with guarded reads and at most `passes` calls of
the lexer. -/
def routeMatchRead (L : Libc) (d : Dispatcher) (nodes : List Nat) (passes : Nat) :
    Option MatchResult :=
  match d.router.graph with
  | none => some ⟨none, { d with params := { d.params with count := 0 } }, []⟩
  | some g =>
    let s : MatchState := ⟨0, none, none, none, none, none, d.lx, { d.params with count := 0 }, []⟩
    (matchLoopRead L d.router g.data nodes passes s).map fun r =>
      ⟨r.1, { d with lx := r.2.lx, params := r.2.params }, r.2.touched⟩

/-! ## The guards hold -/

structure Mapped (root : Segment) (g : List Nat) : Prop where
  offsets : (root.cells 0).map Prod.fst = List.range g.length
  holds : ∀ y ∈ root.cells 0, y.2.Holds g (root.cells 0) y.1

section Mapped

variable {root : Segment} {g : List Nat} (h : Mapped root g)

include h

/-- A cell that has a role lies inside the graph. -/
theorem Mapped.read {i : Nat} {role : Role} (hi : (i, role) ∈ root.cells 0) :
    g[i]? = some (cell g i) := by
  have hlt := List.mem_map_of_mem (f := Prod.fst) hi
  rw [h.offsets, List.mem_range] at hlt
  rw [cell, List.getD_eq_getElem _ 0 hlt, List.getElem?_eq_getElem hlt]

omit h in
/-- A guarded visit of a node of the tree succeeds. -/
theorem visit_node {i : Nat} {role : Role} (hi : (i, role) ∈ root.cells 0) (hnode : role.isNode) :
    visit (root.nodeOffsets 0) i = some i :=
  if_pos (List.mem_map.mpr ⟨(i, role), List.mem_filter.mpr ⟨hi, hnode⟩, rfl⟩)

/-- An edge is read, and leads to a node. -/
theorem Mapped.follow {i : Nat} {role : Role} (hi : (i, role) ∈ root.cells 0)
    (hedge : role.isEdge) :
    (edgeRead g (some i)).bind (visit (root.nodeOffsets 0)) = some (cell g i) := by
  obtain ⟨target, hnode, hmem⟩ := (h.holds _ hi).edge hedge
  rw [edgeRead, Option.bind_some, h.read hi, Option.bind_some, visit_node hmem hnode]

end Mapped

/-- The matcher stands on a node of the tree, and the wildcard edge it remembers is one. -/
structure Inside (L : Libc) (router : Router) (g : List Nat) (root : Segment) (m : MatchState)
    (s : Segment) : Prop where
  packed : Packed L router g s m.cursor
  cells : ∀ y ∈ s.cells m.cursor, y ∈ root.cells 0
  wildcard : ∀ i, m.wEdge = some i → (i, Role.wildcardEdge) ∈ root.cells 0

section Inside

variable {L : Libc} {router : Router} {g : List Nat} {root s : Segment} {m : MatchState}

/-- The second cell of a literal edge is the offset of a child. -/
theorem Packed.edge {o i : Nat} (h : Packed L router g s o) (hi : i < s.children.length) :
    ∃ x ∈ placed (s.childBase o) s.children, x.2 = cell g (s.literalBase o + i * 2 + 1) := by
  obtain ⟨x, hx, he⟩ := List.mem_map.mp ((h.sorted.2 _ _).mp ⟨i, hi, rfl, rfl⟩)
  exact ⟨x, hx, (Prod.mk.inj he).2⟩

/-- The literal edges are searched without leaving them, and a found one leads to a child. -/
theorem literalEdgeRead_eq (hmap : Mapped root g) {o : Nat} (h : Packed L router g s o)
    (hcells : ∀ y ∈ s.cells o, y ∈ root.cells 0) (tok : Token) :
    literalEdgeRead L router g (s.literalBase o) s.children.length tok =
        some (literalEdge L router g (s.literalBase o) s.children.length tok) ∧
      ∀ offset, literalEdge L router g (s.literalBase o) s.children.length tok = some offset →
        ∃ x ∈ placed (s.childBase o) s.children, x.2 = offset := by
  have hcell (i : Nat) (hi : i < s.children.length) :
      g[s.literalBase o + i * 2]? = some (cell g (s.literalBase o + i * 2)) ∧
        g[s.literalBase o + i * 2 + 1]? = some (cell g (s.literalBase o + i * 2 + 1)) := by
    have hlit : ∀ y ∈ literalCells (s.literalBase o) s.children.length, y ∈ root.cells 0 :=
      fun y hy => hcells y (mem_cells.mpr (Or.inr (Or.inr (Or.inr (Or.inl hy)))))
    exact ⟨hmap.read (hlit _ (mem_literalCells.mpr ⟨i, hi, Or.inl rfl⟩)),
      hmap.read (hlit _ (mem_literalCells.mpr ⟨i, hi, Or.inr rfl⟩))⟩
  have hsearch (symbol : Nat) := Search.searchRead_eq (x := symbol) 16 (fun i hi => (hcell i hi).1)
  unfold literalEdgeRead literalEdge
  dsimp only
  rw [hsearch]
  split
  · simp
  split
  · simp
  cases hfound : Search.search 16 (fun i => cell g (s.literalBase o + i * 2))
      (symbolNresolve L router.literals (tok.ptr.getD []) tok.length) s.children.length with
  | none => simp
  | some i =>
    have hi := ((Search.search_eq_some h.sorted.1 16 i).mp hfound).1
    dsimp only
    rw [(hcell i hi).2, Option.map_some]
    refine ⟨rfl, fun offset hoffset => ?_⟩
    rw [← Option.some.inj hoffset]
    exact h.edge hi

/-- The parameter edge gives a compiled name and the node below. -/
theorem paramRead_eq (hmap : Mapped root g) {o : Nat} (h : Packed L router g s o)
    (hcells : ∀ y ∈ s.cells o, y ∈ root.cells 0)
    (hcount : router.params.count = router.params.texts.length) {p : Segment}
    (hp : s.special = .param p) (hsym : m.pSym = some (o + 1)) (hedge : m.pEdge = some (o + 2)) :
    ∃ name, paramRead router g m = some (name, s.specialBase o) ∧
      symbolLookup router.params (cell g (o + 1)) = some name := by
  obtain ⟨hsymbol, hbase⟩ := h.paramEdge hp
  have hread (i : Nat) (role : Role) (hi : (i, role) ∈ specialCells (o + 1) s.special) :
      g[i]? = some (cell g i) :=
    hmap.read (hcells _ (mem_cells.mpr (Or.inr (Or.inl hi))))
  have hmem := h.param_mem hp
  have hlookup := symbolLookup_symbolOf hmem
  rw [← hsymbol] at hlookup
  obtain ⟨name, hname, -⟩ := Option.map_eq_some_iff.mp hlookup
  have hrange : 1 ≤ cell g (o + 1) ∧ cell g (o + 1) ≤ router.params.count := by
    have := List.idxOf_lt_length_iff.mpr hmem
    rw [hsymbol, Symbols.symbolOf, if_pos hmem, hcount]
    omega
  refine ⟨name, ?_, hname⟩
  rw [paramRead, hsym, hedge]
  simp only [edgeRead, Option.bind_some]
  rw [hread (o + 1) .paramSymbol (by simp [hp, specialCells]),
    hread (o + 2) .paramEdge (by simp [hp, specialCells]), Option.bind_some, symbolLookupRead,
    if_pos hrange, hname, hbase]

variable (h : Inside L router g root m s)

include h

/-- The pass has read its node's edges. -/
theorem Inside.wildcard_enter (lx : Lexer) (tok : Token) (i : Nat)
    (hi : (MatchState.enter { m with lx := lx } s.word tok).wEdge = some i) :
    (i, Role.wildcardEdge) ∈ root.cells 0 := by
  obtain ⟨-, -, -, -, -, hw, -⟩ :=
    enter_positions h.packed.sound.node.count_le { m with lx := lx } tok
  split at hw
  · rename_i hwild
    rw [(Prod.mk.inj hw).1] at hi
    cases hc : s.special with
    | wildcard r =>
      obtain rfl := Option.some.inj hi
      refine h.cells _ (mem_cells.mpr (Or.inr (Or.inl ?_)))
      simp [hc, specialCells]
    | _ => simp [hc, Special.isWildcard] at hwild
  · rw [(Prod.mk.inj hw).1] at hi
    exact h.wildcard i hi

/-- A literal edge leads from a node of the tree to its child. -/
theorem Inside.child {x : Segment × Nat} (hx : x ∈ placed (s.childBase m.cursor) s.children)
    {m' : MatchState} (hcursor : m'.cursor = x.2)
    (hw : ∀ i, m'.wEdge = some i → (i, Role.wildcardEdge) ∈ root.cells 0) :
    Inside L router g root m' x.1 := by
  refine ⟨hcursor ▸ h.packed.child hx, fun y hy => h.cells y ?_, hw⟩
  rw [hcursor] at hy
  exact child_mem_cells hx hy

/-- The parameter edge leads to the parameter's node. -/
theorem Inside.param {p : Segment} (hp : s.special = .param p) {m' : MatchState}
    (hcursor : m'.cursor = s.specialBase m.cursor)
    (hw : ∀ i, m'.wEdge = some i → (i, Role.wildcardEdge) ∈ root.cells 0) :
    Inside L router g root m' p := by
  refine ⟨hcursor ▸ h.packed.param hp, fun y hy => h.cells y (special_mem_cells ?_), hw⟩
  rw [hcursor] at hy
  rwa [hp]

/-- One pass: no guard fails, and a pass that goes on stands on a node again. -/
theorem matchStepRead_eq (hmap : Mapped root g)
    (hcount : router.params.count = router.params.texts.length) :
    matchStepRead L router g (root.nodeOffsets 0) m = some (matchStep L router g m) ∧
      ∀ m', matchStep L router g m = .next m' → (lexerNext m.lx).1.type = .literal ∧
        m'.lx = (lexerNext m.lx).2 ∧ ∃ s', Inside L router g root m' s' := by
  have hmax := h.packed.sound.node.count_le
  have hself := h.cells _ (self_mem_cells s m.cursor)
  have hwild := h.wildcard_enter (lexerNext m.lx).2 (lexerNext m.lx).1
  obtain ⟨hcursor, hlx, -, -, hparam, -, htrail⟩ :=
    enter_positions hmax { m with lx := (lexerNext m.lx).2 } (lexerNext m.lx).1
  have hword := h.packed.word
  rw [matchStepRead, matchStep]
  dsimp only at hcursor hlx hparam htrail ⊢
  rw [visit_node hself rfl, Option.bind_some, hmap.read hself, hword]
  dsimp only
  generalize MatchState.enter { m with lx := (lexerNext m.lx).2 } s.word (lexerNext m.lx).1 = m₁
    at hcursor hlx hparam htrail hwild
  rw [hcursor, word_literals hmax, word_param hmax, word_trailing hmax]
  cases htype : (lexerNext m.lx).1.type with
  | literal =>
    obtain ⟨hread, hfound⟩ := literalEdgeRead_eq hmap h.packed h.cells (lexerNext m.lx).1
    dsimp only
    rw [hread]
    cases hedge : literalEdge L router g (s.literalBase m.cursor) s.children.length
        (lexerNext m.lx).1 with
    | some offset =>
      refine ⟨rfl, fun m' hm => ?_⟩
      obtain rfl := MatchStep.next.inj hm
      obtain ⟨x, hx, hoffset⟩ := hfound offset hedge
      exact ⟨rfl, hlx, x.1, h.child hx hoffset.symm hwild⟩
    | none =>
      dsimp only
      split
      · rename_i hflag
        cases hc : s.special with
        | param p =>
          obtain ⟨hsym, hedge⟩ := hparam hflag
          obtain ⟨name, hpair, hname⟩ := paramRead_eq hmap h.packed h.cells hcount hc hsym hedge
          have hrecord (param : Param) : (m₁.record param).pEdge = some (m.cursor + 2) := hedge
          simp only [hpair, hrecord, hsym, hname, Option.getD_some, Option.map_some,
            (h.packed.paramEdge hc).2, true_and]
          intro m' hm
          obtain rfl := MatchStep.next.inj hm
          exact ⟨hlx, p, h.param hc rfl hwild⟩
        | _ => simp [hc, Special.isParam] at hflag
      · cases hw : m₁.wEdge with
        | some wEdge =>
          have hfollow := hmap.follow (hwild wEdge hw) rfl
          dsimp only
          rw [hfollow]
          exact ⟨rfl, by simp⟩
        | none => exact ⟨rfl, by simp [MatchState.notFound]⟩
  | trailing =>
    dsimp only
    split
    · rename_i htr
      have hedge : (s.trailingEdge m.cursor, Role.trailingEdge) ∈ s.cells m.cursor :=
        mem_cells.mpr (Or.inr (Or.inr (Or.inl ⟨htr, rfl⟩)))
      rw [htrail htr, hmap.follow (h.cells _ hedge) rfl]
      exact ⟨rfl, by simp⟩
    · exact ⟨rfl, by simp [MatchState.notFound]⟩
  | end_ =>
    dsimp only
    split
    · exact ⟨rfl, by simp⟩
    · exact ⟨rfl, by simp [MatchState.notFound]⟩
  | illegal => exact ⟨rfl, by simp [MatchState.notFound]⟩
  | param => exact ⟨rfl, by simp [MatchState.notFound]⟩
  | wildcard => exact ⟨rfl, by simp [MatchState.notFound]⟩

/-- Passes enough for the tokens make the guarded loop and the plain one the same. -/
theorem matchLoopRead_eq (hmap : Mapped root g)
    (hcount : router.params.count = router.params.texts.length) (passes : Nat)
    (hends : ∃ t ∈ lexerRun passes m.lx, t.type ≠ .literal) :
    ∃ r, matchLoopRead L router g (root.nodeOffsets 0) passes m = some r ∧
      matchLoop L router g passes m = some r := by
  induction passes generalizing m s with
  | zero => simp [lexerRun] at hends
  | succ passes ih =>
    obtain ⟨hread, hnext⟩ := matchStepRead_eq h hmap hcount
    rw [matchLoopRead, matchLoop, hread]
    cases hm : matchStep L router g m with
    | done route m' => exact ⟨_, rfl, rfl⟩
    | next m' =>
      obtain ⟨htype, hlx, s', h'⟩ := hnext m' hm
      refine ih h' ?_
      rw [hlx]
      simpa [lexerRun, htype] using hends

end Inside

/-- More fuel changes nothing once the matcher has ended. -/
theorem matchLoop_mono {L : Libc} {router : Router} {g : List Nat} {n k : Nat} {m : MatchState}
    {r : Option Route × MatchState} (hle : n ≤ k) (h : matchLoop L router g n m = some r) :
    matchLoop L router g k m = some r := by
  induction n generalizing k m with
  | zero => simp [matchLoop] at h
  | succ n ih =>
    obtain ⟨k, rfl⟩ : ∃ j, k = j + 1 := ⟨k - 1, by omega⟩
    rw [matchLoop] at h ⊢
    cases hm : matchStep L router g m with
    | done route m' =>
      rw [hm] at h
      exact h
    | next m' =>
      rw [hm] at h
      exact ih (by omega) h

/-! ## The passes -/

theorem lexerRun_ends {n k : Nat} {lx : Lexer} (hle : (lexerRun n lx).length ≤ k)
    (hends : ∃ t ∈ lexerRun n lx, t.type ≠ .literal) :
    ∃ t ∈ lexerRun k lx, t.type ≠ .literal := by
  induction k generalizing n lx with
  | zero =>
    obtain ⟨t, ht, -⟩ := hends
    rw [List.eq_nil_of_length_eq_zero (Nat.le_zero.mp hle)] at ht
    simp at ht
  | succ k ih =>
    cases n with
    | zero => simp [lexerRun] at hends
    | succ n =>
      simp only [lexerRun] at hle hends ⊢
      split
      · rename_i htype
        simp only [htype, if_true, List.length_cons] at hle hends
        simp only [List.exists_mem_cons_iff, htype, ne_eq, not_true, false_or] at hends ⊢
        exact ih (by omega) hends
      · rename_i htype
        exact ⟨_, List.mem_singleton_self _, htype⟩

/-- The literals of a request are among its segments. -/
theorem parse_segments_le (path : Bytes) :
    (parseRequest path).segments.length ≤ (pathSegments path).length := by
  by_cases hnil : (parseRequest path).segments = []
  · simp [hnil]
  have hhead : path.head? = some slash := by
    by_contra hno
    exact hnil (by rw [parseRequest, if_neg (fun h => hno h.1)])
  obtain ⟨start, rfl⟩ := List.head?_eq_some_iff.mp hhead
  have hpre : (parseRequest (slash :: start)).segments <+: start.splitOn slash := parse_segments _
  have hlegal : (parseRequest (slash :: start)).segments.filter (fun s => !s.isEmpty) =
      (parseRequest (slash :: start)).segments := by
    refine List.filter_eq_self.mpr (fun s hs => ?_)
    have := parse_legal _ s hs
    simp only [legalSegment, Bool.and_eq_true] at this
    exact this.1
  rw [pathSegments, splitOn_slash, List.filter_cons_of_neg (by simp), ← hlegal]
  exact (hpre.sublist.filter _).length_le

/-- One call of the lexer more than there are segments meets a token that is no literal. -/
theorem passes_enough (path : Bytes) :
    ∃ t ∈ lexerRun ((pathSegments path).length + 1) (lexerLoad (some path)), t.type ≠ .literal := by
  have hlen : (lexerTokens path).length ≤ (pathSegments path).length + 1 := by
    rw [lexerTokens_eq, List.length_append, List.length_singleton]
    have htext := congrArg List.length (requestTokens_text path)
    rw [List.length_map, requestTokens] at htext
    have := parse_segments_le path
    omega
  exact lexerRun_ends hlen (lexerTokens_ends path)

/-! ## Compiled routers -/

/-- On a compiled router no read leaves the graph, every node is one, every symbol was
compiled, and one pass for each segment and one more are enough. -/
theorem matcher_stays_inside (L : Libc) {options : Options} {routes : List (Bytes × Route)}
    {b : Builder} {router : Router} {w : World} (hb : Built options routes b)
    (hc : (wrouterCompile L (some b) w).1 = some router) :
    ∃ g : Ptr (List Nat), router.graph = some g ∧ g.data.length = router.graphSize ∧
      Mapped b.root g.data ∧
      ∀ (d : Dispatcher) (path : Bytes), d.router = router →
        ∃ r, routeMatchRead L { d with lx := lexerLoad (some path) } (b.root.nodeOffsets 0)
            ((pathSegments path).length + 1) = some r ∧ resolveRequest L d path = some r := by
  have hfrom := wrouterCompile_ok hc
  have hholds := hb.holds.1
  obtain ⟨block, g, hgraph, hlen, hl, hp, hpacked⟩ := packed_of_compiled hholds hfrom
  have hmap : Mapped b.root g := by
    refine ⟨?_, hpacked.encodes.cells_hold hholds.sound⟩
    rw [cells_offsets hholds.sound, hlen, List.range_eq_range']
  have hcount : router.params.count = router.params.texts.length := by
    obtain ⟨v, v', hv⟩ := hfrom.params
    rw [symbolCompile_count hv, (symbolCompile_ok hholds.paramsOk hv).2.length_eq,
      SymbolTable.texts, List.length_map, hholds.paramsOk.count_eq]
  refine ⟨⟨block, g⟩, hgraph, ?_, hmap, fun d path hd => ?_⟩
  · rw [hlen, hfrom.graphSize, graphStats_zero hholds.sound]
  · subst hd
    have hstart : Inside L d.router g b.root ⟨0, none, none, none, none, none,
        lexerLoad (some path), { d.params with count := 0 }, []⟩ b.root :=
      ⟨hpacked, fun y hy => hy, by simp⟩
    obtain ⟨r, hread, hloop⟩ := matchLoopRead_eq hstart hmap hcount _ (passes_enough path)
    obtain ⟨r', -, hloop'⟩ := matchLoopRead_eq hstart hmap hcount
      ((lexerLoad (some path)).length + 1) (by rw [lexerRun_length]; exact lexerTokens_ends path)
    have hsame : r' = r := by
      have h := matchLoop_mono (Nat.le_max_left _ ((lexerLoad (some path)).length + 1)) hloop
      rw [matchLoop_mono (Nat.le_max_right ((pathSegments path).length + 1) _) hloop'] at h
      exact Option.some.inj h
    subst hsame
    refine ⟨_, by rw [routeMatchRead, hgraph]; dsimp only; rw [hread]; rfl, ?_⟩
    simp only [resolveRequest, routeMatch, hgraph, hloop', Option.map_some]

/-- Four guarded passes over the cells of three routes, to a miss that is inside. -/
theorem matcher_stays_inside_three : ∃ (router : Router) (nodes : List Nat) (r : MatchResult),
    (∃ b, Built plainOptions
        [(ascii "/*", ⟨0, 1⟩), (ascii "/a/:x/b", ⟨0, 2⟩), (ascii "/a/", ⟨0, 3⟩)] b ∧
      (wrouterCompile .reference (some b) .empty).1 = some router ∧
      nodes = b.root.nodeOffsets 0) ∧
    routeMatchRead .reference ⟨router, lexerLoad (some (ascii "/a/c/b")), .zero⟩ nodes 4 =
      some r := by
  obtain ⟨b, hb, hok⟩ : ∃ b, Built plainOptions
        [(ascii "/*", ⟨0, 1⟩), (ascii "/a/:x/b", ⟨0, 2⟩), (ascii "/a/", ⟨0, 3⟩)] b ∧
      (wrouterCompile .reference (some b) .empty).1.isSome :=
    buildRoutes_any (w := .empty) (by decide +kernel)
  obtain ⟨router, hc⟩ := Option.isSome_iff_exists.mp hok
  obtain ⟨g, -, -, -, hwalk⟩ := matcher_stays_inside .reference hb hc
  obtain ⟨r, hr, -⟩ := hwalk ⟨router, .zero, .zero⟩ (ascii "/a/c/b") rfl
  exact ⟨router, _, r, ⟨b, hb, hc, rfl⟩, hr⟩

end Wrouter
