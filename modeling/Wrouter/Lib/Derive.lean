import Wrouter.Lib.Words

/-!
# Reading a dictionary without a tree

A finite dictionary is a list of words with values. What it has behind a letter is its
derivative. Following an input from derivative to derivative gives its trail, and trying the
prefixes of the trail from the longest down gives the deepest marker.
-/
namespace Words

variable {α σ β : Type*}

/-- The first letter of a word of the list that fits the symbol. -/
def firstFit (fits : α → σ → Prop) [∀ a x, Decidable (fits a x)] (es : List (List α × β)) (x : σ) :
    Option α :=
  es.findSome? fun e => e.1.head?.filter fun a => decide (fits a x)

section FirstFit

variable {fits : α → σ → Prop} [∀ a x, Decidable (fits a x)] {es : List (List α × β)} {a : α} {x : σ}

theorem firstFit_some (h : firstFit fits es x = some a) : fits a x ∧ Live {e | e ∈ es} [a] := by
  obtain ⟨⟨_ | ⟨b, u⟩, v⟩, he, hhead⟩ := List.exists_of_findSome?_eq_some h
  · simp at hhead
  · obtain ⟨hb, hfit⟩ := Option.filter_eq_some_iff.mp hhead
    obtain rfl : b = a := Option.some.inj hb
    exact ⟨of_decide_eq_true hfit, Or.inr ⟨_, he, u, rfl⟩⟩

theorem firstFit_none (h : firstFit fits es x = none) (ha : Live {e | e ∈ es} [a]) : ¬ fits a x := by
  obtain ⟨⟨w, v⟩, he, u, rfl⟩ := (live_cons_iff a).mp ha
  have hnone := List.findSome?_eq_none_iff.mp h _ he
  simpa [Option.filter_eq_none_iff] using hnone

end FirstFit

variable [DecidableEq α]

def derive (a : α) (es : List (List α × β)) : List (List α × β) :=
  es.filterMap fun e => if e.1.head? = some a then some (e.1.tail, e.2) else none

def trailOf (fits : α → σ → Prop) [∀ a x, Decidable (fits a x)] :
    List (List α × β) → List σ → List α
  | _, [] => []
  | es, x :: xs =>
    match firstFit fits es x with
    | none => []
    | some a => a :: trailOf fits (derive a es) xs

/-- The deepest marker among the prefixes up to a length. -/
def deepestOf (es : List (List α × β)) (marker q : List α) : Nat → Option (Nat × β)
  | 0 => (es.lookup marker).map fun v => (0, v)
  | k + 1 =>
    match es.lookup (q.take (k + 1) ++ marker) with
    | some v => some (k + 1, v)
    | none => deepestOf es marker q k

section Derive

variable {es : List (List α × β)} {a : α} {q w : List α} {v : β}

/-- The words behind a letter go on with it. -/
theorem mem_derive : (w, v) ∈ derive a es ↔ (a :: w, v) ∈ es := by
  unfold derive
  rw [List.mem_filterMap]
  constructor
  · rintro ⟨⟨_ | ⟨b, u⟩, v'⟩, he, h⟩
    · simp at h
    · simp only [List.head?_cons, Option.some.injEq, List.tail_cons, Option.ite_none_right_eq_some,
        Prod.mk.injEq] at h
      obtain ⟨rfl, rfl, rfl⟩ := h
      exact he
  · exact fun h => ⟨_, h, by simp⟩

/-- A letter that some word begins with stands before the live words of its derivative. -/
theorem live_derive (ha : Live {e | e ∈ es} [a]) :
    Live {e | e ∈ es} (a :: q) ↔ Live {e | e ∈ derive a es} q := by
  rw [live_cons_iff]
  constructor
  · rintro ⟨⟨w, v⟩, he, u, rfl⟩
    exact Or.inr ⟨(q ++ u, v), mem_derive.mpr he, u, rfl⟩
  · rintro (rfl | ⟨⟨w, v⟩, he, u, rfl⟩)
    · exact (live_cons_iff a).mp ha
    · exact ⟨(a :: (q ++ u), v), mem_derive.mp he, u, rfl⟩

variable {fits : α → σ → Prop} [∀ a x, Decidable (fits a x)] {xs : List σ}

/-- The derivatives lead along a trail, whatever the order of the words. -/
theorem trailOf_isTrail : IsTrail fits {e | e ∈ es} xs (trailOf fits es xs) := by
  induction xs generalizing es with
  | nil => exact ⟨live_nil, trivial, fun a _ hfit => hfit⟩
  | cons x xs ih =>
    rw [trailOf]
    cases hfirst : firstFit fits es x with
    | none => exact ⟨live_nil, trivial, fun a ha hfit => firstFit_none hfirst ha hfit.1⟩
    | some a =>
      obtain ⟨hfit, ha⟩ := firstFit_some hfirst
      have htail : IsTrail fits {e | e ∈ derive a es} xs (trailOf fits (derive a es) xs) := ih
      refine ⟨(live_derive ha).mpr htail.live, ⟨hfit, htail.fit⟩, fun b hb hfits => ?_⟩
      exact htail.maximal b ((live_derive ha).mp hb) hfits.2

end Derive

section Deepest

variable {es : List (List α × β)} {marker q w : List α} {v : β}

theorem mem_of_lookup (h : es.lookup w = some v) : (w, v) ∈ es := by
  obtain ⟨l, m, rfl, -⟩ := List.lookup_eq_some_iff.mp h
  simp

theorem not_mem_of_lookup (h : es.lookup w = none) (v : β) : (w, v) ∉ es := by
  intro hmem
  have := List.lookup_eq_none_iff.mp h _ hmem
  simp at this

/-- No deeper prefix has the marker. -/
theorem deepestOf_some {n k : Nat} (hn : n ≤ q.length) (h : deepestOf es marker q n = some (k, v)) :
    k ≤ n ∧ (q.take k ++ marker, v) ∈ es ∧
      ∀ k' v', k < k' → k' ≤ n → (q.take k' ++ marker, v') ∉ es := by
  induction n with
  | zero =>
    obtain ⟨v', hv, he⟩ := Option.map_eq_some_iff.mp h
    obtain ⟨rfl, rfl⟩ := Prod.mk.inj he
    exact ⟨Nat.le_refl 0, mem_of_lookup hv, fun k' _ hlt hle => by omega⟩
  | succ n ih =>
    rw [deepestOf] at h
    split at h
    · rename_i v' hv
      obtain ⟨rfl, rfl⟩ := Prod.mk.inj (Option.some.inj h)
      exact ⟨Nat.le_refl _, mem_of_lookup hv, fun k' _ hlt hle => by omega⟩
    · rename_i hnone
      obtain ⟨hk, hmem, hlast⟩ := ih (by omega) h
      refine ⟨by omega, hmem, fun k' v' hlt hle => ?_⟩
      rcases Nat.lt_or_eq_of_le hle with hlt' | rfl
      · exact hlast k' v' hlt (by omega)
      · exact not_mem_of_lookup hnone v'

theorem deepestOf_none {n : Nat} (h : deepestOf es marker q n = none) :
    ∀ k v, k ≤ n → (q.take k ++ marker, v) ∉ es := by
  induction n with
  | zero =>
    intro k v hk
    obtain rfl := Nat.le_zero.mp hk
    exact not_mem_of_lookup (Option.map_eq_none_iff.mp h) v
  | succ n ih =>
    rw [deepestOf] at h
    split at h
    · simp at h
    · rename_i hnone
      intro k v hk
      rcases Nat.lt_or_eq_of_le hk with hlt | rfl
      · exact ih h k v (by omega)
      · exact not_mem_of_lookup hnone v

end Deepest

end Words
