import Wrouter.Walk

/-!
# Cells of the compiled graph

Every cell of the graph has one role. The roles of a tree's cells, listed in the order
of the array, cover it without a gap or an overlap; what a cell holds is said by its role.
-/
namespace Wrouter

open CLib

/-- What a cell is for; the cell of a node with what it says of the node. -/
inductive Role where
  | node (literals : Nat) (terminal param wildcard trailing : Bool)
  | paramSymbol
  | paramEdge
  | wildcardEdge
  | trailingEdge
  | literalSymbol
  | literalEdge
  deriving DecidableEq, Repr

def Role.isNode : Role → Bool
  | .node .. => true
  | _ => false

def Role.isEdge : Role → Bool
  | .paramEdge => true
  | .wildcardEdge => true
  | .trailingEdge => true
  | .literalEdge => true
  | _ => false

/-- The node a wildcard or a trailing slash leads to: terminal, and without edges. -/
def Role.last : Role := .node 0 true false false false

def literalCells : Nat → Nat → List (Nat × Role)
  | _, 0 => []
  | o, n + 1 => (o, .literalSymbol) :: (o + 1, .literalEdge) :: literalCells (o + 2) n

def specialCells (o : Nat) : Special Segment → List (Nat × Role)
  | .param _ => [(o, .paramSymbol), (o + 1, .paramEdge)]
  | .wildcard _ => [(o, .wildcardEdge)]
  | _ => []

def Segment.role (s : Segment) : Role :=
  .node s.children.length s.terminal.isSome s.special.isParam s.special.isWildcard
    s.trailing.isSome

mutual
/-- The cells of the node at an offset and of everything below, in the order of the graph. -/
def Segment.cells : Segment → Nat → List (Nat × Role)
  | ⟨str, children, tail, terminal, trailing, special, n, k⟩, o =>
    let s : Segment := ⟨str, children, tail, terminal, trailing, special, n, k⟩
    (o, s.role) :: (specialCells (o + 1) special ++
      trailing.toList.map (fun _ => (s.trailingEdge o, .trailingEdge)) ++
      literalCells (s.literalBase o) children.length ++
      cellsChildren children (s.childBase o) ++ cellsSpecial special (s.specialBase o) ++
      trailing.toList.map (fun _ => (s.trailingBase o, .last)))

def cellsSpecial : Special Segment → Nat → List (Nat × Role)
  | .param p, o => p.cells o
  | .wildcard _, o => [(o, .last)]
  | .wildcardNull, _ => []
  | .paramNull, _ => []
  | .none, _ => []

def cellsChildren : List Segment → Nat → List (Nat × Role)
  | [], _ => []
  | c :: cs, o => c.cells o ++ cellsChildren cs (o + c.size)
end

theorem cells_eq (s : Segment) (o : Nat) : s.cells o =
    (o, s.role) :: (specialCells (o + 1) s.special ++
      s.trailing.toList.map (fun _ => (s.trailingEdge o, .trailingEdge)) ++
      literalCells (s.literalBase o) s.children.length ++
      cellsChildren s.children (s.childBase o) ++ cellsSpecial s.special (s.specialBase o) ++
      s.trailing.toList.map (fun _ => (s.trailingBase o, .last))) := by
  cases s
  rw [Segment.cells]

/-! ## The roles cover the graph -/

/-- Two intervals that meet. -/
theorem range'_meet {o m p n : Nat} (h : p = o + m) :
    List.range' o m ++ List.range' p n = List.range' o (m + n) := by
  rw [h, List.range'_append_1]

theorem literalCells_offsets (o n : Nat) :
    (literalCells o n).map Prod.fst = List.range' o (n * 2) := by
  induction n generalizing o with
  | zero => rfl
  | succ n ih =>
    rw [literalCells, List.map_cons, List.map_cons, ih, Nat.succ_mul, List.range'_succ,
      List.range'_succ]

theorem specialCells_offsets (o : Nat) (sp : Special Segment) :
    (specialCells o sp).map Prod.fst = List.range' o (specialWidth sp) := by
  cases sp <;> rfl

theorem trailing_offsets (o : Nat) (role : Role) (trailing : Option Route) :
    (trailing.toList.map fun _ => (o, role)).map Prod.fst =
      List.range' o (trailingWidth trailing) := by
  cases trailing <;> rfl

theorem cellsChildren_offsets {l : List Segment} (o : Nat)
    (h : ∀ c ∈ l, ∀ o, (c.cells o).map Prod.fst = List.range' o c.size) :
    (cellsChildren l o).map Prod.fst = List.range' o (sizeChildren l) := by
  induction l generalizing o with
  | nil => rfl
  | cons c l ih =>
    obtain ⟨hc, hl⟩ := List.forall_mem_cons.mp h
    rw [cellsChildren, List.map_append, hc, ih _ hl, List.range'_append_1, sizeChildren]

/-- Every cell of the tree's range has a role, and only one. -/
theorem cells_offsets {s : Segment} (hs : s.Sound) (o : Nat) :
    (s.cells o).map Prod.fst = List.range' o s.size := by
  induction hs generalizing o with
  | node s hn _ _ ihc ihp =>
    have hspecial : (cellsSpecial s.special (s.specialBase o)).map Prod.fst =
        List.range' (s.specialBase o) (specialNodes s.special) := by
      cases hc : s.special with
      | param p => exact ihp p hc _
      | _ => rfl
    have hend := size_end s o
    have htb : s.trailingBase o = s.specialBase o + specialNodes s.special := rfl
    have hsb : s.specialBase o = s.childBase o + sizeChildren s.children := rfl
    have hcb : s.childBase o = s.literalBase o + s.children.length * 2 := rfl
    have hlb : s.literalBase o = s.trailingEdge o + trailingWidth s.trailing := rfl
    have hte : s.trailingEdge o = o + 1 + specialWidth s.special := rfl
    rw [cells_eq]
    simp only [List.map_cons, List.map_append, specialCells_offsets, trailing_offsets,
      literalCells_offsets, cellsChildren_offsets _ ihc, hspecial]
    rw [range'_meet hte, range'_meet (by omega), range'_meet (by omega), range'_meet (by omega),
      range'_meet (by omega), ← List.range'_succ]
    congr 1
    omega

/-! ## What the cells hold -/

theorem mem_cellsChildren {l : List Segment} {o : Nat} {y : Nat × Role} :
    y ∈ cellsChildren l o ↔ ∃ x ∈ placed o l, y ∈ x.1.cells x.2 := by
  induction l generalizing o with
  | nil => simp [cellsChildren, placed]
  | cons c l ih => simp [cellsChildren, placed, ih]

theorem mem_literalCells {o n : Nat} {y : Nat × Role} : y ∈ literalCells o n ↔
    ∃ i < n, y = (o + i * 2, .literalSymbol) ∨ y = (o + i * 2 + 1, .literalEdge) := by
  induction n generalizing o with
  | zero => simp [literalCells]
  | succ n ih =>
    have hshift (i : Nat) : o + 2 + i * 2 = o + (i + 1) * 2 := by omega
    rw [literalCells, List.mem_cons, List.mem_cons, ih]
    constructor
    · rintro (rfl | rfl | ⟨i, hi, h⟩)
      · exact ⟨0, by omega, Or.inl rfl⟩
      · exact ⟨0, by omega, Or.inr rfl⟩
      · exact ⟨i + 1, by omega, by rwa [hshift] at h⟩
    · rintro ⟨i, hi, h⟩
      cases i with
      | zero => simpa [or_assoc] using Or.inl h
      | succ i => exact Or.inr (Or.inr ⟨i, by omega, by rwa [hshift]⟩)

theorem mem_cells {s : Segment} {o : Nat} {y : Nat × Role} : y ∈ s.cells o ↔
    y = (o, s.role) ∨ y ∈ specialCells (o + 1) s.special ∨
      (s.trailing.isSome ∧ y = (s.trailingEdge o, .trailingEdge)) ∨
      y ∈ literalCells (s.literalBase o) s.children.length ∨
      (∃ x ∈ placed (s.childBase o) s.children, y ∈ x.1.cells x.2) ∨
      y ∈ cellsSpecial s.special (s.specialBase o) ∨
      (s.trailing.isSome ∧ y = (s.trailingBase o, .last)) := by
  have hoption (a : Nat × Role) : y ∈ s.trailing.toList.map (fun _ => a) ↔
      s.trailing.isSome ∧ y = a := by
    cases s.trailing <;> simp
  rw [cells_eq]
  simp only [List.mem_cons, List.mem_append, hoption, mem_cellsChildren, or_assoc]

/-- A node starts with its own cell. -/
theorem self_mem_cells (s : Segment) (o : Nat) : (o, s.role) ∈ s.cells o :=
  mem_cells.mpr (Or.inl rfl)

/-- The cells of a child are cells of its parent's subtree. -/
theorem child_mem_cells {s : Segment} {o : Nat} {x : Segment × Nat}
    (hx : x ∈ placed (s.childBase o) s.children) {y : Nat × Role} (hy : y ∈ x.1.cells x.2) :
    y ∈ s.cells o :=
  mem_cells.mpr (Or.inr (Or.inr (Or.inr (Or.inr (Or.inl ⟨x, hx, hy⟩)))))

theorem special_mem_cells {s : Segment} {o : Nat} {y : Nat × Role}
    (hy : y ∈ cellsSpecial s.special (s.specialBase o)) : y ∈ s.cells o :=
  mem_cells.mpr (Or.inr (Or.inr (Or.inr (Or.inr (Or.inr (Or.inl hy))))))

theorem last_mem_cells {s : Segment} {o : Nat} (ht : s.trailing.isSome) :
    (s.trailingBase o, .last) ∈ s.cells o :=
  mem_cells.mpr (Or.inr (Or.inr (Or.inr (Or.inr (Or.inr (Or.inr ⟨ht, rfl⟩))))))

/-- The cell's contents, where its role fixes them: a node's cell reads back the node, and
an edge leads to the cell of a node. -/
def Role.Holds (g : List Nat) (cells : List (Nat × Role)) (i : Nat) : Role → Prop
  | .node literals terminal param wildcard trailing =>
    cell g i &&& nodeLiteralsMask = literals ∧ hasFlag (cell g i) nodeFlagTerminal = terminal ∧
      hasFlag (cell g i) nodeFlagHasParam = param ∧
      hasFlag (cell g i) nodeFlagHasWildcard = wildcard ∧
      hasFlag (cell g i) nodeFlagHasTrailing = trailing
  | .paramSymbol => True
  | .literalSymbol => True
  | .paramEdge => ∃ role : Role, role.isNode ∧ (cell g i, role) ∈ cells
  | .wildcardEdge => ∃ role : Role, role.isNode ∧ (cell g i, role) ∈ cells
  | .trailingEdge => ∃ role : Role, role.isNode ∧ (cell g i, role) ∈ cells
  | .literalEdge => ∃ role : Role, role.isNode ∧ (cell g i, role) ∈ cells

/-- A cell keeps its role among more cells. -/
theorem Role.Holds.mono {g : List Nat} {cells cells' : List (Nat × Role)} {i : Nat} {role : Role}
    (h : role.Holds g cells i) (hsub : ∀ y ∈ cells, y ∈ cells') : role.Holds g cells' i := by
  cases role with
  | node n t p w tr => exact h
  | paramSymbol => trivial
  | literalSymbol => trivial
  | _ =>
    obtain ⟨role, hnode, hmem⟩ := h
    exact ⟨role, hnode, hsub _ hmem⟩

/-- The cell behind a wildcard or a trailing slash. -/
theorem last_holds {g : List Nat} {i : Nat} (cells : List (Nat × Role))
    (h : cell g i = nodeFlagTerminal) : Role.last.Holds g cells i := by
  rw [Role.last, Role.Holds, h]
  decide

/-- Every cell holds what its role says. -/
theorem Encodes.cells_hold {L : Libc} {literals params : Symbols} {g : List Nat} {s : Segment}
    {o : Nat} (hs : s.Sound) (h : Encodes L literals params g s o) :
    ∀ y ∈ s.cells o, y.2.Holds g (s.cells o) y.1 := by
  induction hs generalizing o with
  | node s hn _ _ ihc ihp =>
    cases h with
    | node hword hparam hwildcard htrailing hsorted hchildren hbelow =>
    intro y hy
    rcases mem_cells.mp hy with rfl | hy | ⟨ht, rfl⟩ | hy | ⟨x, hx, hy⟩ | hy | ⟨ht, rfl⟩
    · have hmax := hn.count_le
      rw [Segment.role, Role.Holds, hword]
      exact ⟨word_literals hmax, word_terminal hmax, word_param hmax, word_wildcard hmax,
        word_trailing hmax⟩
    · cases hc : s.special with
      | param p =>
        simp only [hc, specialCells, List.mem_cons, List.not_mem_nil, or_false] at hy
        rcases hy with rfl | rfl
        · trivial
        · refine ⟨p.role, rfl, ?_⟩
          rw [(hparam p hc).2]
          exact special_mem_cells (by rw [hc]; exact self_mem_cells p _)
      | wildcard r =>
        simp only [hc, specialCells, List.mem_cons, List.not_mem_nil, or_false] at hy
        subst hy
        refine ⟨.last, rfl, ?_⟩
        rw [(hwildcard r hc).1]
        exact special_mem_cells (by rw [hc]; exact List.mem_cons_self)
      | _ => simp [hc, specialCells] at hy
    · exact ⟨.last, rfl, by rw [(htrailing ht).1]; exact last_mem_cells ht⟩
    · obtain ⟨i, hi, rfl | rfl⟩ := mem_literalCells.mp hy
      · trivial
      · have hmem := List.mem_of_getElem? (readEdges_getElem? g (s.literalBase o) hi)
        rw [hsorted, (L.qsort_perm edgeCmp _).mem_iff] at hmem
        obtain ⟨x, hx, he⟩ := List.mem_map.mp hmem
        refine ⟨x.1.role, rfl, ?_⟩
        rw [← (Prod.mk.inj he).2]
        exact child_mem_cells hx (self_mem_cells x.1 x.2)
    · exact (ihc x.1 (placed_mem hx).1 (hchildren x hx) y hy).mono (fun z => child_mem_cells hx)
    · cases hc : s.special with
      | param p =>
        refine (ihp p hc (hbelow p hc) y (by rwa [hc] at hy)).mono (fun z hz => ?_)
        exact special_mem_cells (by rwa [hc])
      | wildcard r =>
        rw [hc, cellsSpecial, List.mem_singleton] at hy
        rw [hy]
        exact last_holds _ (hwildcard r hc).2
      | _ => simp [hc, cellsSpecial] at hy
    · exact last_holds _ (htrailing ht).2

/-- An edge's cell contains the offset of a node's cell. -/
theorem Role.Holds.edge {g : List Nat} {cells : List (Nat × Role)} {i : Nat} {role : Role}
    (h : role.Holds g cells i) (hedge : role.isEdge) :
    ∃ role : Role, role.isNode ∧ (cell g i, role) ∈ cells := by
  cases role <;> first | exact h | simp [Role.isEdge] at hedge

theorem drop_of_cells {g g' : List Nat} {n : Nat} (hlen : g'.length = g.length)
    (h : ∀ j, n ≤ j → cell g' j = cell g j) : g'.drop n = g.drop n := by
  refine List.ext_getElem (by simp [hlen]) (fun i hi hi' => ?_)
  have hcell := h (n + i) (Nat.le_add_right n i)
  simp only [List.length_drop] at hi hi'
  rw [List.getElem_drop, List.getElem_drop]
  rwa [cell, cell, List.getD_eq_getElem _ 0 (by omega), List.getD_eq_getElem _ 0 (by omega)]
    at hcell

/-- The encoding takes exactly the cells and the dictionary entries that were counted: the
cells past them are left alone, every cell has one role and holds what it says, and every
edge leads to a node. -/
theorem graph_layout (L : Libc) {literals params : Symbols} (hl : literals.Ok) (hp : params.Ok)
    {s : Segment} (hs : s.Sound) (hsize : (graphStats s .zero).size ≤ 65535) (retain : Bool)
    (refs base : Block) (rest : List Nat) (w : World) :
    let stats := graphStats s .zero
    let e : Emit := ⟨List.replicate stats.size 0 ++ rest,
      ⟨some ⟨refs, List.replicate stats.terminals 0⟩,
        some ⟨base, List.replicate stats.terminals ⟨0, 0⟩⟩, 0⟩, 0, w⟩
    let r := graphCompile L literals params retain s e
    r.1 = 0 ∧ r.2.cur = stats.size ∧ r.2.cells.drop stats.size = rest ∧
      r.2.terminals.count = stats.terminals ∧
      r.2.terminals.Holds stats.terminals (s.terms 0) ∧
      (s.cells 0).map Prod.fst = List.range stats.size ∧
      (∀ y ∈ s.cells 0, y.2.Holds r.2.cells (s.cells 0) y.1 ∧
        (y.2.isEdge → cell r.2.cells y.1 < stats.size)) ∧
      Encodes L literals params r.2.cells s 0 := by
  intro stats e r
  have hstats : stats = ⟨s.routes.length, s.size, 0, maxSlots s.routes⟩ := graphStats_zero hs
  have hcount : stats.size = s.size := by rw [hstats]
  have hterms : stats.terminals = s.routes.length := by rw [hstats]
  have hshort : s.size ≤ 65535 := hcount ▸ hsize
  have hroom : e.Room s.size := by
    refine ⟨by simp [e, hcount], by simpa [e] using hshort, fun j _ hj => ?_⟩
    have hj : j < stats.size := by simpa [e, hcount] using hj
    simp [e, cell, List.getD_eq_getElem?_getD, List.getElem?_append_left, hj]
  have hw : Written L literals params s e r := graphCompile_written retain hl hp hs e hroom
  have hle := routes_length_le hs
  have hlen : (s.terms 0).length = stats.terminals := by rw [terms_length hs, hterms]
  have hholds : r.2.terminals.Holds stats.terminals (s.terms 0) :=
    hw.terminals_hold hs hshort rfl rfl hterms (by omega)
  have hoffsets : (s.cells 0).map Prod.fst = List.range stats.size := by
    rw [cells_offsets hs, hcount, List.range_eq_range']
  have hcells := hw.encodes.cells_hold hs
  refine ⟨hw.offset, by simpa [e, hcount] using hw.cur, ?_, by rw [hholds.count, hlen], hholds,
    hoffsets, fun y hy => ⟨hcells y hy, fun hedge => ?_⟩, hw.encodes⟩
  · rw [drop_of_cells hw.length (fun j hj => hw.frame j (Or.inr (by simpa [e, hcount] using hj)))]
    simp [e]
  · obtain ⟨role, -, hmem⟩ := (hcells y hy).edge hedge
    have := List.mem_map_of_mem (f := Prod.fst) hmem
    rwa [hoffsets, List.mem_range] at this

/-- Three routes in a buffer with one cell to spare, which is left as it was. -/
theorem graph_layout_three : ∃ (b : Builder) (literals params : Symbols) (g : List Nat),
    Built plainOptions
        [(ascii "/*", ⟨0, 1⟩), (ascii "/a/:x/b", ⟨0, 2⟩), (ascii "/a/", ⟨0, 3⟩)] b ∧
      (b.root.cells 0).map Prod.fst = List.range (graphStats b.root .zero).size ∧
      (∀ y ∈ b.root.cells 0, y.2.Holds g (b.root.cells 0) y.1) ∧
      g.drop (graphStats b.root .zero).size = [7] ∧
      Encodes .reference literals params g b.root 0 := by
  obtain ⟨b, hb, hsize, hlok, hpok⟩ : ∃ b, Built plainOptions
        [(ascii "/*", ⟨0, 1⟩), (ascii "/a/:x/b", ⟨0, 2⟩), (ascii "/a/", ⟨0, 3⟩)] b ∧
      (graphStats b.root .zero).size ≤ 65535 ∧
      (symbolCompile .reference b.literals .empty).1 = .ok ∧
      (symbolCompile .reference b.params .empty).1 = .ok :=
    buildRoutes_any (w := .empty) (by decide +kernel)
  have hholds := hb.holds.1
  have hl := (symbolCompile_ok hholds.literalsOk (Prod.ext hlok rfl)).1
  have hp := (symbolCompile_ok hholds.paramsOk (Prod.ext hpok rfl)).1
  obtain ⟨-, -, hrest, -, -, hoffsets, hcells, hencodes⟩ :=
    graph_layout .reference hl hp hholds.sound hsize false ⟨0, 0⟩ ⟨1, 0⟩ [7] .empty
  exact ⟨b, _, _, _, hb, hoffsets, fun y hy => (hcells y hy).1, hrest, hencodes⟩

end Wrouter
