import Wrouter.Cells

/-!
# Literal edges

A node's edges are sorted after the nodes below it were placed, as pairs of a symbol and
an offset. So a pair still leads from a child's string to that child's node, and both ways
of searching the pairs come to the same edge.
-/
namespace Wrouter

open CLib

/-! ## The nodes of the tree, where they stand -/

mutual
def Segment.places : Segment → Nat → List (Segment × Nat)
  | ⟨str, children, tail, terminal, trailing, special, n, k⟩, o =>
    let s : Segment := ⟨str, children, tail, terminal, trailing, special, n, k⟩
    (s, o) :: (placesChildren children (s.childBase o) ++ placesSpecial special (s.specialBase o))

def placesSpecial : Special Segment → Nat → List (Segment × Nat)
  | .param p, o => p.places o
  | .wildcard _, _ => []
  | .wildcardNull, _ => []
  | .paramNull, _ => []
  | .none, _ => []

def placesChildren : List Segment → Nat → List (Segment × Nat)
  | [], _ => []
  | c :: cs, o => c.places o ++ placesChildren cs (o + c.size)
end

theorem places_eq (s : Segment) (o : Nat) : s.places o = (s, o) ::
    (placesChildren s.children (s.childBase o) ++ placesSpecial s.special (s.specialBase o)) := by
  cases s
  rw [Segment.places]

theorem mem_placesChildren {l : List Segment} {o : Nat} {x : Segment × Nat} :
    x ∈ placesChildren l o ↔ ∃ y ∈ placed o l, x ∈ y.1.places y.2 := by
  induction l generalizing o with
  | nil => simp [placesChildren, placed]
  | cons c l ih => simp [placesChildren, placed, ih]

theorem mem_placesSpecial {sp : Special Segment} {o : Nat} {x : Segment × Nat} :
    x ∈ placesSpecial sp o ↔ ∃ p, sp = .param p ∧ x ∈ p.places o := by
  cases sp <;> simp [placesSpecial]

/-- A node of the subtree is its root, below a child or below the parameter. -/
theorem mem_places {s : Segment} {o : Nat} {x : Segment × Nat} : x ∈ s.places o ↔
    x = (s, o) ∨ (∃ y ∈ placed (s.childBase o) s.children, x ∈ y.1.places y.2) ∨
      ∃ p, s.special = .param p ∧ x ∈ p.places (s.specialBase o) := by
  rw [places_eq, List.mem_cons, List.mem_append, mem_placesChildren, mem_placesSpecial]

theorem self_mem_places (s : Segment) (o : Nat) : (s, o) ∈ s.places o := mem_places.mpr (Or.inl rfl)

theorem child_mem_places {s : Segment} {o : Nat} {x y : Segment × Nat}
    (hy : y ∈ placed (s.childBase o) s.children) (hx : x ∈ y.1.places y.2) : x ∈ s.places o :=
  mem_places.mpr (Or.inr (Or.inl ⟨y, hy, hx⟩))

theorem param_mem_places {s p : Segment} {o : Nat} {x : Segment × Nat} (hp : s.special = .param p)
    (hx : x ∈ p.places (s.specialBase o)) : x ∈ s.places o :=
  mem_places.mpr (Or.inr (Or.inr ⟨p, hp, hx⟩))

/-- What stands below a node of the tree stands in the tree. -/
theorem places_trans {s : Segment} (hs : s.Sound) {o : Nat} {x y : Segment × Nat}
    (hx : x ∈ s.places o) (hy : y ∈ x.1.places x.2) : y ∈ s.places o := by
  induction hs generalizing o with
  | node s _ _ _ ihc ihp =>
    rcases mem_places.mp hx with rfl | ⟨z, hz, hx⟩ | ⟨p, hp, hx⟩
    · exact hy
    · exact child_mem_places hz (ihc z.1 (placed_mem hz).1 hx)
    · exact param_mem_places hp (ihp p hp hx)

variable {L : Libc} {router : Router} {g : List Nat} {s : Segment} {o : Nat}

/-- Every node of a packed tree is packed. -/
theorem Packed.place (h : Packed L router g s o) {x : Segment × Nat} (hx : x ∈ s.places o) :
    Packed L router g x.1 x.2 := by
  have hs := h.sound
  induction hs generalizing o with
  | node s _ _ _ ihc ihp =>
    rcases mem_places.mp hx with rfl | ⟨z, hz, hx⟩ | ⟨p, hp, hx⟩
    · exact h
    · exact ihc z.1 (placed_mem hz).1 (h.child hz) hx
    · exact ihp p hp (h.param hp) hx

/-- A cell of a node is that of a node of the tree, or the last one behind its wildcard or
its trailing slash. -/
theorem cells_places {y : Nat × Role} (hs : s.Sound) (hy : y ∈ s.cells o) (hnode : y.2.isNode) :
    ∃ x ∈ s.places o, y = (x.2, x.1.role) ∨
      (∃ r, x.1.special = .wildcard r ∧ y = (x.1.specialBase x.2, .last)) ∨
      (x.1.trailing.isSome ∧ y = (x.1.trailingBase x.2, .last)) := by
  induction hs generalizing o with
  | node s _ _ _ ihc ihp =>
    have hself := self_mem_places s o
    rcases mem_cells.mp hy with rfl | hy | ⟨-, rfl⟩ | hy | ⟨x, hx, hy⟩ | hy | ⟨ht, rfl⟩
    · exact ⟨_, hself, Or.inl rfl⟩
    · cases hc : s.special with
      | param p =>
        simp only [hc, specialCells, List.mem_cons, List.not_mem_nil, or_false] at hy
        rcases hy with rfl | rfl <;> simp [Role.isNode] at hnode
      | wildcard r =>
        simp only [hc, specialCells, List.mem_cons, List.not_mem_nil, or_false] at hy
        subst hy
        simp [Role.isNode] at hnode
      | _ => simp [hc, specialCells] at hy
    · simp [Role.isNode] at hnode
    · obtain ⟨i, -, rfl | rfl⟩ := mem_literalCells.mp hy <;> simp [Role.isNode] at hnode
    · obtain ⟨z, hz, hplace⟩ := ihc x.1 (placed_mem hx).1 hy
      exact ⟨z, child_mem_places hx hz, hplace⟩
    · cases hc : s.special with
      | param p =>
        obtain ⟨z, hz, hplace⟩ := ihp p hc (by rwa [hc] at hy)
        exact ⟨z, param_mem_places hc hz, hplace⟩
      | wildcard r =>
        rw [hc, cellsSpecial, List.mem_singleton] at hy
        exact ⟨_, hself, Or.inr (Or.inl ⟨r, hc, hy⟩)⟩
      | _ => simp [hc, cellsSpecial] at hy
    · exact ⟨_, hself, Or.inr (Or.inr ⟨ht, rfl⟩)⟩

/-- The cells below a node of the tree are cells of the tree. -/
theorem places_cells (hs : s.Sound) {x : Segment × Nat} (hx : x ∈ s.places o) {y : Nat × Role}
    (hy : y ∈ x.1.cells x.2) : y ∈ s.cells o := by
  induction hs generalizing o with
  | node s _ _ _ ihc ihp =>
    rcases mem_places.mp hx with rfl | ⟨z, hz, hx⟩ | ⟨p, hp, hx⟩
    · exact hy
    · exact child_mem_cells hz (ihc z.1 (placed_mem hz).1 hx)
    · exact special_mem_cells (by rw [hp]; exact ihp p hp hx)

/-! ## Searching the edges of a node -/

/-- Where the matcher finds the literal edges of the node at `o`, from the flags of its cell. -/
def edgeBase (g : List Nat) (o : Nat) : Nat :=
  o + 1 + (if hasFlag (cell g o) nodeFlagHasParam then 2 else 0) +
    (if hasFlag (cell g o) nodeFlagHasWildcard then 1 else 0) +
    (if hasFlag (cell g o) nodeFlagHasTrailing then 1 else 0)

def edgeSymbol (g : List Nat) (o i : Nat) : Nat := cell g (edgeBase g o + i * 2)
def edgeOffset (g : List Nat) (o i : Nat) : Nat := cell g (edgeBase g o + i * 2 + 1)

theorem Packed.edgeBase (h : Packed L router g s o) : edgeBase g o = s.literalBase o := by
  have hmax := h.sound.node.count_le
  rw [Wrouter.edgeBase, h.word, word_param hmax, word_wildcard hmax, word_trailing hmax]
  cases hc : s.special <;> simp [Special.isParam, Special.isWildcard, Segment.literalBase,
    Segment.trailingEdge, trailingWidth, specialWidth, hc]

/-- The literal edges of the node `s` at `o`, among nodes that stand at `places`: one for
each child, by increasing symbol, from the symbol of its string to its own node; and the
halving loop, with the indices and the difference of the machine, finds what the scan
finds, which is the one edge with the symbol. -/
structure EdgesFound (router : Router) (g : List Nat) (places : List (Segment × Nat)) (s : Segment)
    (o : Nat) : Prop where
  count : cell g o &&& nodeLiteralsMask = s.children.length
  increasing : Search.Increasing (edgeSymbol g o) s.children.length
  links : ∀ i < s.children.length, ∃ c ∈ s.children,
    (symbolLookup router.literals (edgeSymbol g o i)).map CString.text = some c.label ∧
      (c, edgeOffset g o i) ∈ places
  covers : ∀ c ∈ s.children, ∃ i < s.children.length,
    (symbolLookup router.literals (edgeSymbol g o i)).map CString.text = some c.label ∧
      (c, edgeOffset g o i) ∈ places
  agree : ∀ symbol < 2 ^ 64,
    Search.halvingWord Search.signedDiff (edgeSymbol g o) symbol s.children.length 0
      s.children.length = Search.scan (edgeSymbol g o) symbol s.children.length 0
  finds : ∀ symbol i, Search.scan (edgeSymbol g o) symbol s.children.length 0 = some i ↔
    i < s.children.length ∧ edgeSymbol g o i = symbol

/-- Both searches find the literal edges of every node that is packed. -/
theorem Packed.edgesFound (h : Packed L router g s o) (hl : router.literals.Ok) :
    EdgesFound router g (s.places o) s o := by
  have hmax := h.sound.node.count_le
  obtain ⟨hinc, hedges⟩ := h.sorted
  have hbase : edgeSymbol g o = fun i => cell g (s.literalBase o + i * 2) := by
    funext i
    rw [edgeSymbol, h.edgeBase]
  have hoffset : edgeOffset g o = fun i => cell g (s.literalBase o + i * 2 + 1) := by
    funext i
    rw [edgeOffset, h.edgeBase]
  have hkey : ∀ i < s.children.length, edgeSymbol g o i < 2 ^ 16 := by
    intro i hi
    obtain ⟨x, -, he⟩ := List.mem_map.mp ((hedges _ _).mp ⟨i, hi, rfl, rfl⟩)
    rw [hbase]
    have := symbolOf_lt hl x.1.label
    have := (Prod.mk.inj he).1
    dsimp only
    omega
  rw [← hbase] at hinc
  refine ⟨by rw [h.word, word_literals hmax], hinc, ?_, ?_, ?_, fun symbol =>
    Search.scan_eq_some hinc⟩
  · intro i hi
    obtain ⟨x, hx, he⟩ := List.mem_map.mp ((hedges _ _).mp ⟨i, hi, rfl, rfl⟩)
    obtain ⟨hsym, hoff⟩ := Prod.mk.inj he
    have hmem := (placed_mem hx).1
    refine ⟨x.1, hmem, ?_, ?_⟩
    · rw [hbase]
      dsimp only
      rw [← hsym]
      exact symbolLookup_symbolOf (h.label_mem hmem)
    · rw [hoffset]
      dsimp only
      rw [← hoff]
      exact child_mem_places hx (self_mem_places x.1 x.2)
  · intro c hc
    obtain ⟨x, hx, rfl⟩ : ∃ x ∈ placed (s.childBase o) s.children, x.1 = c := by
      rw [← placed_fst (s.childBase o) s.children] at hc
      simpa using hc
    obtain ⟨i, hi, hsym, hoff⟩ := (hedges _ _).mpr (List.mem_map.mpr ⟨x, hx, rfl⟩)
    refine ⟨i, hi, ?_, ?_⟩
    · rw [hbase]
      dsimp only
      rw [hsym]
      exact symbolLookup_symbolOf (h.label_mem hc)
    · rw [hoffset]
      dsimp only
      rw [hoff]
      exact child_mem_places hx (self_mem_places x.1 x.2)
  · intro symbol hlt
    unfold nodeMaxChildCount at hmax
    exact Search.halvingWord_eq_scan hinc (by omega) hkey hlt

theorem EdgesFound.mono {places places' : List (Segment × Nat)} (h : EdgesFound router g places s o)
    (hsub : ∀ x ∈ places, x ∈ places') : EdgesFound router g places' s o := by
  refine ⟨h.count, h.increasing, fun i hi => ?_, fun c hc => ?_, h.agree, h.finds⟩
  · obtain ⟨c, hc, hlabel, hmem⟩ := h.links i hi
    exact ⟨c, hc, hlabel, hsub _ hmem⟩
  · obtain ⟨i, hi, hlabel, hmem⟩ := h.covers c hc
    exact ⟨i, hi, hlabel, hsub _ hmem⟩

/-- In every compiled graph each node has its literal edges, and either search finds them.
The cells of nodes are those of the tree's nodes, and last ones without edges. -/
theorem literal_search (L : Libc) {options : Options} {routes : List (Bytes × Route)} {b : Builder}
    (hb : Built options routes b) {w : World} {router : Router}
    (hr : (wrouterCompile L (some b) w).1 = some router) :
    ∃ block g, router.graph = some ⟨block, g⟩ ∧
      (∀ x ∈ b.root.places 0, Encodes L router.literals router.params g x.1 x.2 ∧
        EdgesFound router g (b.root.places 0) x.1 x.2) ∧
      ∀ y ∈ b.root.cells 0, y.2.isNode → (∃ x ∈ b.root.places 0, y = (x.2, x.1.role)) ∨
        cell g y.1 &&& nodeLiteralsMask = 0 := by
  have hholds := hb.holds.1
  obtain ⟨block, g, hgraph, -, hl, -, hpacked⟩ := packed_of_compiled hholds (wrouterCompile_ok hr)
  refine ⟨block, g, hgraph, fun x hx => ?_, fun y hy hnode => ?_⟩
  · have hplace := hpacked.place hx
    exact ⟨hplace.encodes,
      (hplace.edgesFound hl).mono (fun z hz => places_trans hholds.sound hx hz)⟩
  · have hcell := hpacked.encodes.cells_hold hholds.sound y hy
    obtain ⟨x, hx, rfl | ⟨r, -, rfl⟩ | ⟨-, rfl⟩⟩ := cells_places hholds.sound hy hnode
    · exact Or.inl ⟨x, hx, rfl⟩
    · exact Or.inr hcell.1
    · exact Or.inr hcell.1

/-- Three children of the root. -/
theorem literal_search_three : ∃ (b : Builder) (router : Router) (block : Block) (g : List Nat),
    Built plainOptions
        [(ascii "/b", ⟨0, 1⟩), (ascii "/a/*", ⟨0, 2⟩), (ascii "/c/:x", ⟨0, 3⟩)] b ∧
      router.graph = some ⟨block, g⟩ ∧ EdgesFound router g (b.root.places 0) b.root 0 := by
  obtain ⟨b, hb, hok⟩ : ∃ b, Built plainOptions
        [(ascii "/b", ⟨0, 1⟩), (ascii "/a/*", ⟨0, 2⟩), (ascii "/c/:x", ⟨0, 3⟩)] b ∧
      (wrouterCompile .reference (some b) .empty).1.isSome :=
    buildRoutes_any (w := .empty) (by decide +kernel)
  obtain ⟨router, hc⟩ := Option.isSome_iff_exists.mp hok
  obtain ⟨block, g, hgraph, hplaces, -⟩ := literal_search .reference hb hc
  exact ⟨b, router, block, g, hb, hgraph, (hplaces _ (self_mem_places b.root 0)).2⟩

end Wrouter
