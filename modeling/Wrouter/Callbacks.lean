import Wrouter.Lifetimes

/-!
# What the library calls back

The callbacks of a builder that is freed, of a compilation and of a router that is freed, where
both callbacks are installed or neither is.
-/
namespace Wrouter

open CLib

theorem quiet_arenaFree (a : HeapArena) (w : World) : Quiet w (arenaFree a w) := by
  unfold arenaFree
  induction a.blocks generalizing w with
  | nil => exact .refl w
  | cons b blocks ih => exact (((Quiet.refl w).free _).free _).trans (ih _)

theorem quiet_symbolTableFree (tbl : HeapTable) (w : World) : Quiet w (symbolTableFree tbl w) :=
  ((Quiet.refl w).free _).trans (quiet_arenaFree _ _)

mutual
/-- Freeing the tree makes no callback: the release before it made them all. -/
theorem quiet_segmentFree : ∀ (s : HeapSegment) (w : World), Quiet w (segmentFree s w)
  | ⟨block, _, children, _, terminal, trailing, special, _, _⟩, w => by
    rw [segmentFree]
    have hspecial := quiet_segmentFreeSpecial special w
    have hboth := hspecial.trans (quiet_segmentFreeChildren children (segmentFreeSpecial special w))
    exact ((hboth.free _).free _).free _

theorem quiet_segmentFreeSpecial : ∀ (special : HeapSpecial HeapSegment) (w : World),
    Quiet w (segmentFreeSpecial special w)
  | .wildcard route, w => by
    rw [segmentFreeSpecial]
    exact (Quiet.refl w).free _
  | .param p, w => by
    rw [segmentFreeSpecial]
    exact quiet_segmentFree p w
  | .wildcardNull, w => .refl w
  | .paramNull, w => .refl w
  | .none, w => .refl w

theorem quiet_segmentFreeChildren : ∀ (children : List HeapSegment) (w : World),
    Quiet w (segmentFreeChildren children w)
  | [], w => .refl w
  | child :: rest, w => by
    rw [segmentFreeChildren]
    exact (quiet_segmentFree child w).trans (quiet_segmentFreeChildren rest _)
end

/-- Where no builder is made, no callback is. -/
theorem heapBuilderCreate_none {options : Options} (hboth : options.retain = options.release)
    {w w' : World} (h : heapBuilderCreate options w = some (none, w')) :
    w'.callbacks = w.callbacks := by
  unfold heapBuilderCreate at h
  rcases hfirst : w.malloc 1 with ⟨_ | block, w₁⟩ <;> simp only [hfirst] at h
  · obtain rfl : w₁ = w' := by simpa using h
    exact (quiet_of_malloc hfirst).callbacks
  · split at h
    · rename_i w₂ hsecond
      split at h
      · simp at h
      · rename_i hrelease
        have hidle : options.retain = false := hboth.trans (by simpa using hrelease)
        rw [hidle] at hsecond
        have hquiet : Quiet w w₂ := (quiet_of_malloc hfirst).trans (quiet_of_malloc hsecond)
        obtain rfl := (Prod.mk.inj (Option.some.inj h)).2
        exact (((hquiet.trans (quiet_symbolTableFree _ _)).trans
          (quiet_symbolTableFree _ _)).free _).callbacks
    · simp at h

/-- The contexts in the order a builder lets go of them. -/
def Builder.drops (b : Builder) : List Nat := b.root.held ++ [b.fallback.ctx]

/-- What a builder lets go of is what it holds. -/
theorem drops_perm (b : Builder) : b.drops.Perm b.holders :=
  (List.perm_append_singleton _ _).trans ((held_perm b.root).cons _)

def released (installed : Bool) (ctxs : List Nat) : List Event :=
  if installed then ctxs.map .release else []

theorem releaseAll_idle (w : World) (ctxs : List Nat) : w.releaseAll false ctxs = w :=
  List.foldl_fixed' (fun _ => rfl) ctxs

/-- A release calls back once for each context, in order. -/
theorem releaseAll_calls (w : World) (installed : Bool) (ctxs : List Nat) :
    (w.releaseAll installed ctxs).callbacks = w.callbacks ++ released installed ctxs := by
  cases installed with
  | true => exact releaseAll_callbacks w ctxs
  | false =>
    rw [releaseAll_idle]
    exact (List.append_nil _).symm

section HeapBuilder

variable {b : HeapBuilder} {w w' : World} (h : heapBuilderFree b w = some w')

include h

/-- Beyond the release of its contexts, freeing a builder makes no callback. -/
theorem heapBuilderFree_quiet : Quiet (w.releaseAll b.erase.release b.erase.drops) w' := by
  obtain ⟨v, hv, rfl⟩ := Option.map_eq_some_iff.mp h
  have hquiet : Quiet v _ := (((quiet_symbolTableFree b.literals v).trans
    (quiet_symbolTableFree b.params _)).trans (quiet_segmentFree b.root _)).free (some b.block)
  cases hrelease : b.erase.release with
  | true =>
    have hwhole := wrouterBuilderFree_eq hrelease w
    rw [wrouterBuilderFree, hv] at hwhole
    split at hwhole
    · obtain rfl := Option.some.inj hwhole
      exact hquiet
    · simp at hwhole
  | false =>
    rw [builderRelease, if_pos (by simp [hrelease])] at hv
    obtain rfl := Option.some.inj hv
    rw [releaseAll_idle]
    exact hquiet

/-- A builder that is freed releases its contexts. -/
theorem heapBuilderFree_calls :
    w'.callbacks = w.callbacks ++ released b.erase.release b.erase.drops := by
  rw [(heapBuilderFree_quiet h).callbacks, releaseAll_calls]

theorem heapBuilderFree_answers : w'.answers <:+ w.answers := by
  have hanswers := (heapBuilderFree_quiet h).answers
  rwa [releaseAll_answers] at hanswers

end HeapBuilder

/-- With a release callback, a builder can be freed exactly if no edge lacks its end. -/
theorem heapBuilderFree_iff {b : HeapBuilder} (hrelease : b.erase.release = true) (w : World) :
    (∃ w', heapBuilderFree b w = some w') ↔ b.erase.root.whole = true := by
  have hwhole := wrouterBuilderFree_eq hrelease w
  rw [wrouterBuilderFree] at hwhole
  unfold heapBuilderFree
  rw [hwhole]
  split
  · rename_i hyes
    simp [hyes]
  · rename_i hno
    simp [hno]

theorem heapBuilderFree_eq_none {b : HeapBuilder} (hrelease : b.erase.release = true) {w : World}
    (h : heapBuilderFree b w = none) : b.erase.root.whole = false := by
  have hiff := heapBuilderFree_iff hrelease w
  rw [h] at hiff
  simpa using hiff

/-- Without a release callback a builder can always be freed, in silence. -/
theorem heapBuilderFree_silent {b : HeapBuilder} (hrelease : b.erase.release = false) (w : World) :
    ∃ w', heapBuilderFree b w = some w' ∧ w'.callbacks = w.callbacks := by
  obtain ⟨w', hfree⟩ : ∃ w', heapBuilderFree b w = some w' := by
    rw [heapBuilderFree, builderRelease, if_pos (by simp [hrelease])]
    exact ⟨_, rfl⟩
  refine ⟨w', hfree, ?_⟩
  rw [heapBuilderFree_calls hfree, hrelease]
  exact List.append_nil _

/-- Freeing a router calls back once for each context it holds. -/
theorem wrouterFree_calls (r : Router) (w : World) :
    (wrouterFree (some r) w).callbacks = w.callbacks ++ released r.release r.holders := by
  have hwalk : (w.release r.release r.fallback.ctx).releaseAll r.release
      ((r.terminals.baseData.take r.terminals.count).map Route.ctx) =
        w.releaseAll r.release r.holders := rfl
  have hfree : Quiet (w.releaseAll r.release r.holders) (wrouterFree (some r) w) := by
    unfold wrouterFree
    dsimp only
    rw [← hwalk, World.releaseAll, List.foldl_map]
    exact (((((Quiet.refl _).symbolsFree _).symbolsFree _).terminalsFree _).free _).free _
  rw [hfree.callbacks, releaseAll_calls]

/-- A compilation retains the contexts of the router it returns. Where it returns none it has
touched the fallback's at most, and let go of it again. -/
theorem wrouterCompile_calls (L : Libc) {b : Builder} (hb : b.Usable)
    (hboth : b.retain = b.release) (w : World) :
    let r := wrouterCompile L (some b) w
    (r.1 = none ∧ r.2.1 ≠ .ok ∧ (r.2.2.callbacks = w.callbacks ∨
        r.2.2.callbacks = w.callbacks ++
          (retained b.release [b.fallback.ctx] ++ released b.release [b.fallback.ctx]))) ∨
      ∃ router, r.1 = some router ∧ r.2.1 = .ok ∧ router.release = b.release ∧
        router.holders = b.holders ∧
        r.2.2.callbacks = w.callbacks ++ retained b.release b.holders := by
  intro r
  unfold r wrouterCompile
  dsimp only
  cases hcorrupted : b.corrupted with
  | true => exact Or.inl ⟨rfl, WrouterError.noConfusion, Or.inl rfl⟩
  | false =>
    obtain ⟨es, hes⟩ := hb hcorrupted
    rw [if_neg (by simp)]
    split
    · rename_i hm
      exact Or.inl ⟨rfl, WrouterError.noConfusion, Or.inl (quiet_of_malloc hm).callbacks⟩
    rename_i block w₁ hm
    obtain ⟨hfallback, hrelease, hmade, hcount⟩ := compileRouter_retains (L := L) hes
      ⟨block, none, .zero, .zero, .zero, b.fallback, 0, 0, 0, b.retain, b.release⟩
      (w₁.retain b.retain b.fallback.ctx)
    generalize hc : compileRouter L b _ _ = c at *
    dsimp only at hmade hrelease
    have hmade := hmade.callbacks
    have hfirst : (w₁.retain b.retain b.fallback.ctx).callbacks =
        w.callbacks ++ retained b.release [b.fallback.ctx] := by
      rw [retain_callbacks, (quiet_of_malloc hm).callbacks, hboth]
      rfl
    rw [hfirst, hboth] at hmade
    split
    · rename_i hne
      rw [if_neg hne] at hmade
      have hholders : c.2.1.holders = [b.fallback.ctx] := by
        rw [Router.holders, hcount hne, hfallback]
        rfl
      refine Or.inl ⟨rfl, hne, Or.inr ?_⟩
      dsimp only
      rw [wrouterFree_calls, hmade, hholders, hrelease]
      cases b.release <;> simp [retained]
    · rename_i hok
      rw [if_pos (not_not.mp hok)] at hmade
      have hholders : c.2.1.holders = b.holders := by
        have hfrom := compileRouter_ok rfl rfl rfl (hc.trans (Prod.ext (not_not.mp hok) rfl))
        rw [Router.holders, (terminals_of_compiled hes hfrom).routes, terms_routes hes.sound,
          hfallback, List.map_map]
        rfl
      refine Or.inr ⟨c.2.1, rfl, rfl, hrelease, hholders, ?_⟩
      dsimp only
      rw [hmade, Builder.holders]
      cases b.release <;> simp [retained]

/-- Where no dispatcher is made, one of its two blocks was refused. -/
theorem heapDispatcherCreate_none {router : Router} {w w' : World}
    (h : heapDispatcherCreate router w = (none, w')) : none ∈ w.answers.take 2 := by
  have hhead {answers : List (Option Nat)} (hnone : answers[0]? = some none) :
      none ∈ answers.take 2 :=
    List.mem_of_getElem? (i := 0) (by rw [List.getElem?_take_of_lt (by omega), hnone])
  obtain ⟨hfirst, hanswers⟩ := malloc_refused w 1
  unfold heapDispatcherCreate paramsAlloc at h
  rcases hm : w.malloc 1 with ⟨_ | block, w₁⟩ <;> rw [hm] at h hfirst hanswers
  · exact hhead (hfirst.mp rfl)
  dsimp only at h hanswers
  split at h
  · obtain ⟨hsecond, -⟩ := malloc_refused w₁ (router.maxParams * 24)
    rcases hm' : w₁.malloc (router.maxParams * 24) with ⟨_ | params, w₂⟩ <;> rw [hm'] at h hsecond
    · have hnone := hsecond.mp rfl
      rw [hanswers, List.getElem?_tail] at hnone
      exact List.mem_of_getElem? (i := 1) (by rw [List.getElem?_take_of_lt (by omega), hnone])
    · simp at h
  · simp at h

/-- A dispatcher gets as many slots as the router asks for. -/
theorem heapDispatcherCreate_fits {router : Router} {w w' : World} {d : HeapDispatcher}
    (h : heapDispatcherCreate router w = (some d, w')) :
    d.data.router = router ∧ d.data.params.allocated = router.maxParams := by
  have hcreate := heapDispatcherCreate_erase router w
  rw [h] at hcreate
  exact wrouterDispatcherCreate_ok (congrArg Prod.fst hcreate)

/-- A dispatcher for the router would not be large enough for the request. -/
def Router.overruns (L : Libc) (router : Router) (path : Bytes) : Prop :=
  ∃ d : Dispatcher, d.router = router ∧ d.params.allocated = router.maxParams ∧
    d.overruns L path = true

theorem wrouterNresolve_none {L : Libc} {router : Router} {d : Dispatcher} {path : Bytes}
    (hfits : d.router = router ∧ d.params.allocated = router.maxParams)
    (h : wrouterNresolve L d path = none) : router.overruns L path :=
  ⟨d, hfits.1, hfits.2, request_none.mp (Option.map_eq_none_iff.mp h)⟩

end Wrouter
