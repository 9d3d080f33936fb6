import Mathlib.Data.List.Nodup
import Mathlib.Data.List.Range

/-!
# Objects behind handles

An object is reached through its handle, a positive number that stands for its place in a list;
0 is no object. An effect acts on one object and fails on one that is gone. Effects on distinct
live objects do not get in each other's way.
-/
namespace Handles

variable {α ε : Type*} (gone : ε) (dead : α → Bool) (f : α → α)

/-- One effect; nothing happens through 0. -/
def touch (xs : List α) : Nat → Except ε (List α)
  | 0 => .ok xs
  | i + 1 =>
    match xs[i]? with
    | none => .error gone
    | some x => if dead x then .error gone else .ok (xs.set i (f x))

def touched (handles : List Nat) (xs : List α) : List α :=
  xs.mapIdx fun i x => if i + 1 ∈ handles then f x else x

variable {xs : List α} {handles : List Nat}

/-- The objects behind the handles are there. -/
def Live (dead : α → Bool) (xs : List α) (handles : List Nat) : Prop :=
  ∀ i, i + 1 ∈ handles → ∃ x, xs[i]? = some x ∧ dead x = false

theorem getElem?_touched (i : Nat) : (touched f handles xs)[i]? =
    xs[i]?.map fun x => if i + 1 ∈ handles then f x else x := List.getElem?_mapIdx

theorem touch_live {i : Nat} {x : α} (hx : xs[i]? = some x) (hlive : dead x = false) :
    touch gone dead f xs (i + 1) = .ok (xs.set i (f x)) := by
  rw [touch, hx]
  dsimp only
  rw [if_neg (by simp [hlive])]

theorem touched_zero (hs : List Nat) : touched f (0 :: hs) xs = touched f hs xs := by
  simp [touched]

theorem touched_cons {i : Nat} {x : α} (hx : xs[i]? = some x) (hfresh : i + 1 ∉ handles) :
    touched f handles (xs.set i (f x)) = touched f ((i + 1) :: handles) xs := by
  refine List.ext_getElem? fun j => ?_
  rw [getElem?_touched, getElem?_touched, List.getElem?_set]
  by_cases hj : i = j
  · subst hj
    obtain ⟨hlt, rfl⟩ := List.getElem?_eq_some_iff.mp hx
    simp [hfresh, hlt]
  · have hne : ¬ j = i := fun h => hj h.symm
    simp [hj, hne]

/-- A walk over handles: no object is met twice, and each is there. -/
theorem foldlM_touch (hdistinct : (handles.filter (· ≠ 0)).Nodup) (hlive : Live dead xs handles) :
    handles.foldlM (touch gone dead f) xs = .ok (touched f handles xs) := by
  induction handles generalizing xs with
  | nil =>
    have hsame : touched f [] xs = xs := List.ext_getElem? fun i => by simp [getElem?_touched]
    rw [hsame]
    rfl
  | cons h hs ih =>
    rw [List.foldlM_cons]
    cases h with
    | zero =>
      have hrest := ih (by simpa using hdistinct) fun i hi => hlive i (List.mem_cons_of_mem 0 hi)
      rw [touched_zero]
      exact hrest
    | succ i =>
      obtain ⟨hfresh, hdistinct⟩ : i + 1 ∉ hs ∧ (hs.filter (· ≠ 0)).Nodup := by
        simpa using hdistinct
      obtain ⟨x, hx, hxlive⟩ := hlive i List.mem_cons_self
      rw [touch_live gone dead f hx hxlive, ← touched_cons f hx hfresh]
      refine ih hdistinct fun j hj => ?_
      have hne : i ≠ j := fun h => hfresh (h ▸ hj)
      rw [List.getElem?_set_ne hne]
      exact hlive j (List.mem_cons_of_mem _ hj)

end Handles
