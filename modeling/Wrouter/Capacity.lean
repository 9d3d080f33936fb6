import Mathlib.Data.Finset.Card
import Wrouter.Cleanup

/-!
# What a compilation returns

The size of the graph is a count over the words of the routes, so whether they fit is decided
by the set; the rest is up to the allocator.
-/
namespace Wrouter

open CLib

/-- The words of the nodes: what the routes begin with, up to a letter that is no step. -/
def stems (es : List Entry) : Finset (List Tok) :=
  (es.flatMap fun e => (e.1.takeWhile Tok.isStep).inits).toFinset.erase []

/-- Three cells for each stem, two for each wildcard and each trailing slash, and the root. -/
def graphCells (es : List Entry) : Nat := 1 + 3 * (stems es).card + 2 * es.countP endsApart

def Fits16 (es : List Entry) : Prop := graphCells es ≤ 65535 ∧ es.length ≤ 65535

instance (es : List Entry) : Decidable (Fits16 es) := inferInstanceAs (Decidable (_ ∧ _))

theorem mem_stems {es : List Entry} {q : List Tok} :
    q ∈ stems es ↔ q ≠ [] ∧ (∀ a ∈ q, a.isStep) ∧ ∃ e ∈ es, q <+: e.1 := by
  have hstep (w : List Tok) : q <+: w.takeWhile Tok.isStep ↔ (∀ a ∈ q, a.isStep) ∧ q <+: w := by
    constructor
    · intro h
      exact ⟨fun a ha => List.all_eq_true.mp List.all_takeWhile a (h.subset ha),
        h.trans (List.takeWhile_prefix _)⟩
    · rintro ⟨hall, rest, rfl⟩
      rw [List.takeWhile_append_of_pos hall]
      exact List.prefix_append _ _
  rw [stems, Finset.mem_erase, List.mem_toFinset, List.mem_flatMap]
  simp only [List.mem_inits, hstep]
  constructor
  · rintro ⟨hne, e, he, hall, hpre⟩
    exact ⟨hne, hall, e, he, hpre⟩
  · rintro ⟨hne, hall, e, he, hpre⟩
    exact ⟨hne, e, he, hall, hpre⟩

/-- The statistics count the cells. -/
theorem size_eq_cells {b : Builder} {es : List Entry} (hb : b.Holds es) :
    b.root.size = graphCells es := by
  have hnodes : b.root.nodes.toFinset = stems es := by
    ext q
    rw [List.mem_toFinset, mem_nodes hb.sound, mem_stems]
    simp only [hb.routes.mem_iff]
  rw [size_formula hb.sound, graphCells, ← hnodes,
    List.toFinset_card_of_nodup (nodup_nodes hb.sound), hb.routes.countP_eq]

/-- The graph fits 16 bits exactly if the list of routes says so. -/
theorem inRange_iff {b : Builder} {es : List Entry} (hb : b.Holds es) : b.InRange ↔ Fits16 es := by
  unfold Builder.InRange Fits16
  rw [graphStats_zero hb.sound, size_eq_cells hb, hb.routes.length_eq]
  simp only [not_or, Nat.not_lt]

/-- The part that fails says that memory ran out. -/
theorem compileRouter_code (L : Libc) (b : Builder) (router : Router) (w : World) :
    (¬ b.InRange → (compileRouter L b router w).1 = .outOfRange) ∧
      (b.InRange → (compileRouter L b router w).1 = .ok ∨
        (compileRouter L b router w).1 = .noMemory) := by
  unfold compileRouter
  dsimp only
  refine ⟨fun h => by rw [if_pos (not_not.mp h)], fun h => ?_⟩
  rw [if_neg h]
  obtain ⟨e, literals, w₁, hliterals, he, -⟩ := symbolCompile_part L b.literals w []
  rw [hliterals]
  dsimp only
  split
  · exact he
  obtain ⟨e', params, w₂, hparams, he', -⟩ := symbolCompile_part L b.params w₁ []
  rw [hparams]
  dsimp only
  split
  · exact he'
  split
  · exact Or.inr rfl
  split
  · exact Or.inr rfl
  · exact Or.inl rfl

/-- How a compilation ends, by the size of the set and the first allocation that is refused. -/
theorem compile_ends (L : Libc) {b : Builder} {es : List Entry} (hb : b.Holds es) (w : World) :
    let r := wrouterCompile L (some b) w
    let missing := refused (allocations b) w.answers
    (r.1.isSome ↔ Fits16 es ∧ missing = none) ∧
      r.2.1 = if missing = some .router then .noMemory
        else if ¬ Fits16 es then .outOfRange
        else if missing = none then .ok else .noMemory := by
  have hfit := inRange_iff hb
  unfold wrouterCompile
  dsimp only
  rw [hb.intact, if_neg Bool.false_ne_true]
  rcases malloc_spends w 1 .router (partAllocations b) with
    ⟨w₁, hm, -, hrefused⟩ | ⟨block, w₁, hm, -, hnext⟩
  · rw [hm, allocations, hrefused]
    simp
  rw [hm, allocations, hnext]
  dsimp only
  have hblank : Router.Blank ⟨block, none, .zero, .zero, .zero, b.fallback, 0, 0, 0, b.retain,
    b.release⟩ := ⟨rfl, rfl, rfl, rfl⟩
  have hend := compileRouter_ends L b hblank (w₁.retain b.retain b.fallback.ctx)
  have hcode := compileRouter_code L b ⟨block, none, .zero, .zero, .zero, b.fallback, 0, 0, 0,
    b.retain, b.release⟩ (w₁.retain b.retain b.fallback.ctx)
  generalize compileRouter L b _ _ = r at hend hcode
  dsimp only at hend
  rw [retain_answers] at hend
  rw [if_neg (router_not_part b _)]
  obtain ⟨hok, hrange, hnone⟩ | ⟨hne, -, hnone⟩ := hend
  · rw [if_neg (not_not.mpr hok), hnone, if_neg (not_not.mpr (hfit.mp hrange))]
    simp [hfit.mp hrange]
  rw [if_pos hne]
  by_cases hrange : b.InRange
  · have hrefused := hnone hrange
    rw [if_neg (not_not.mpr (hfit.mp hrange)), if_neg hrefused]
    exact ⟨by simp [hrefused], (hcode.2 hrange).resolve_left hne⟩
  · have hunfit := mt hfit.mpr hrange
    rw [if_pos hunfit]
    exact ⟨by simp [hunfit], hcode.1 hrange⟩

/-- A compilation returns a router exactly when the routes fit and no allocation is refused;
a set that does not fit is out of range, whatever the allocator does after the router itself. -/
theorem compile_outcome (L : Libc) {options : Options} {routes : List (Bytes × Route)} {b : Builder}
    (h : Built options routes b) (w : World) :
    let r := wrouterCompile L (some b) w
    let missing := refused (allocations b) w.answers
    (r.1.isSome ↔ Fits16 (entries options.paramSyntax routes) ∧ missing = none) ∧
      r.2.1 = if missing = some .router then .noMemory
        else if ¬ Fits16 (entries options.paramSyntax routes) then .outOfRange
        else if missing = none then .ok else .noMemory :=
  compile_ends L h.holds.1 w

/-- Stems `a`, `a/:x`, `b` and `b/c`, one trailing slash and one wildcard: 17 cells. The eighth
allocation is the last. -/
theorem compile_outcome_mixed : ∃ b,
    graphCells (entries .colon [(ascii "/a/:x", ⟨0, 1⟩), (ascii "/a/", ⟨0, 2⟩),
        (ascii "/b/c/*", ⟨0, 3⟩)]) = 17 ∧
      (wrouterCompile .reference (some b) ⟨List.replicate 8 (some 0), 0, []⟩).1.isSome ∧
      (wrouterCompile .reference (some b) ⟨List.replicate 7 (some 0) ++ [none], 0, []⟩).2.1 =
        .noMemory := by
  obtain ⟨b, hb, hall, hlast⟩ := buildRoutes_any (P := fun b =>
    refused (allocations b) (List.replicate 8 (some 0)) = none ∧
      refused (allocations b) (List.replicate 7 (some 0) ++ [none]) = some .graph)
    (show (buildRoutes plainOptions [(ascii "/a/:x", ⟨0, 1⟩), (ascii "/a/", ⟨0, 2⟩),
      (ascii "/b/c/*", ⟨0, 3⟩)] .empty).any fun r => _ by decide +kernel)
  refine ⟨b, by decide +kernel, ?_, ?_⟩
  · exact (compile_outcome .reference hb ⟨List.replicate 8 (some 0), 0, []⟩).1.mpr
      ⟨by decide +kernel, hall⟩
  · have hcode := (compile_outcome .reference hb ⟨List.replicate 7 (some 0) ++ [none], 0, []⟩).2
    dsimp only at hcode
    rw [hlast] at hcode
    rw [hcode]
    decide +kernel

end Wrouter
