import Mathlib.Data.List.Basic

/-!
# Answers from an oracle

Code that asks an oracle again and again uses up its answers from the front. Here a piece of
code stops at the first refusal, if there is one: all answers before it were granted.
-/
namespace Answers

variable {α : Type*}

/-- From the one list of answers to the other: some were granted, and then, if so, one refused. -/
def Used (before after : List (Option α)) (refused : Bool) : Prop :=
  ∃ granted, none ∉ granted ∧ before = granted ++ (if refused then [none] else []) ++ after

variable {u v w : List (Option α)} {refused : Bool}

theorem Used.refl (u : List (Option α)) : Used u u false := ⟨[], by simp, rfl⟩

/-- What goes on after granted answers only. -/
theorem Used.trans (h : Used u v false) (h' : Used v w refused) : Used u w refused := by
  obtain ⟨granted, hgranted, rfl⟩ := h
  obtain ⟨granted', hgranted', rfl⟩ := h'
  refine ⟨granted ++ granted', fun hmem => ?_, by simp⟩
  exact (List.mem_append.mp hmem).elim hgranted hgranted'

/-- One answer at most. -/
theorem used_tail (h : refused = true ↔ u.head? = some none) : Used u u.tail refused := by
  cases u with
  | nil =>
    obtain rfl : refused = false := by simpa using h
    exact .refl []
  | cons a u =>
    cases a with
    | none =>
      obtain rfl : refused = true := by simpa using h
      exact ⟨[], by simp, rfl⟩
    | some a =>
      obtain rfl : refused = false := by simpa using h
      exact ⟨[some a], by simp, rfl⟩

/-- The answers used up, where a refusal can only stand last. -/
theorem Used.asked (h : Used u v refused) : ∃ asked,
    u = asked ++ v ∧ (refused = true ↔ none ∈ asked) ∧ none ∉ asked.dropLast := by
  obtain ⟨granted, hgranted, rfl⟩ := h
  refine ⟨_, rfl, ?_⟩
  cases refused with
  | true => simpa using hgranted
  | false => simpa using ⟨hgranted, fun h => hgranted (List.dropLast_subset _ h)⟩

end Answers
