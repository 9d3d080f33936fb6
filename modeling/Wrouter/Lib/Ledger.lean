import Mathlib.Algebra.Order.Group.Multiset
import Mathlib.Data.Multiset.UnionInter
import Mathlib.Tactic.Abel

/-!
# Who owns which block

A ledger numbers the blocks it hands out and lists those it took back. It is balanced over some
owned blocks when these and those taken back are all it handed out, each once. Code turns the
blocks it owns into others whatever else is owned, so what pieces do adds up as they are composed.
-/
namespace Ownership

structure Ledger where
  next : Nat
  made : Multiset Nat
  gone : Multiset Nat

def Ledger.alloc (l : Ledger) : Ledger := ⟨l.next + 1, l.next ::ₘ l.made, l.gone⟩

def Ledger.free (l : Ledger) (b : Nat) : Ledger := ⟨l.next, l.made, b ::ₘ l.gone⟩

structure Balanced (l : Ledger) (owned : Multiset Nat) : Prop where
  fresh : ∀ b ∈ l.made, b < l.next
  nodup : l.made.Nodup
  total : l.made = l.gone + owned

/-- From one ledger to the other, `owned` turned into `owned'`, and nothing else changed hands. -/
def Turns (l : Ledger) (owned : Multiset Nat) (l' : Ledger) (owned' : Multiset Nat) : Prop :=
  ∀ frame, Balanced l (owned + frame) → Balanced l' (owned' + frame)

variable {l l' l'' : Ledger} {a b c d : Multiset Nat}

theorem Turns.refl (l : Ledger) (a : Multiset Nat) : Turns l a l a := fun _ h => h

/-- Two changes of hands, one after the other. -/
theorem Turns.trans (h : Turns l a l' b) (h' : Turns l' b l'' c) : Turns l a l'' c :=
  fun frame hl => h' frame (h frame hl)

/-- What else a caller owns it still owns. -/
theorem Turns.frame (h : Turns l a l' b) (c : Multiset Nat) : Turns l (a + c) l' (b + c) := by
  intro frame hl
  rw [add_assoc] at hl ⊢
  exact h (c + frame) hl

/-- What others own is left alone. -/
theorem Turns.frame_left (c : Multiset Nat) (h : Turns l a l' b) : Turns l (c + a) l' (c + b) := by
  rw [add_comm c, add_comm c]
  exact h.frame c

/-- One thing after the other, each with its own blocks. -/
theorem Turns.seq (h : Turns l a l' b) (h' : Turns l' c l'' d) : Turns l (a + c) l'' (b + d) :=
  (h.frame c).trans (h'.frame_left b)

theorem Turns.congr (h : Turns l a l' b) (ha : a = c) (hb : b = d) : Turns l c l' d :=
  ha ▸ hb ▸ h

theorem turns_alloc (l : Ledger) : Turns l 0 l.alloc {l.next} := by
  rintro frame ⟨hfresh, hnodup, htotal⟩
  rw [zero_add] at htotal
  refine ⟨fun x hx => ?_, ?_, ?_⟩
  · rcases Multiset.mem_cons.mp hx with rfl | hx
    · exact Nat.lt_succ_self _
    · exact (hfresh x hx).trans (Nat.lt_succ_self _)
  · exact Multiset.nodup_cons.mpr ⟨fun h => Nat.lt_irrefl _ (hfresh _ h), hnodup⟩
  · change l.next ::ₘ l.made = l.gone + ({l.next} + frame)
    rw [htotal, ← Multiset.singleton_add]
    abel

/-- Several blocks in a row. -/
theorem turns_allocs (l : Ledger) (n : Nat) :
    Turns l 0 ⟨l.next + n, (List.range' l.next n : Multiset Nat) + l.made, l.gone⟩
      (List.range' l.next n) := by
  induction n generalizing l with
  | zero =>
    have hledger : (⟨l.next + 0, (List.range' l.next 0 : Multiset Nat) + l.made, l.gone⟩ : Ledger) =
        l := by simp
    rw [hledger]
    exact .refl l 0
  | succ n ih =>
    have hids : (List.range' l.next (n + 1) : Multiset Nat) =
        {l.next} + (List.range' (l.next + 1) n : Multiset Nat) := by
      rw [List.range'_succ, ← Multiset.cons_coe, Multiset.singleton_add]
    have hboth := (turns_alloc l).seq (ih l.alloc)
    rw [add_zero] at hboth
    have hledger : (⟨l.next + (n + 1), (List.range' l.next (n + 1) : Multiset Nat) + l.made,
        l.gone⟩ : Ledger) =
        ⟨l.alloc.next + n, (List.range' l.alloc.next n : Multiset Nat) + l.alloc.made,
          l.alloc.gone⟩ := by
      simp only [Ledger.alloc, hids, ← Multiset.singleton_add, Ledger.mk.injEq, and_true]
      exact ⟨by omega, by abel⟩
    rw [hledger, hids]
    exact hboth

/-- Several blocks given back. -/
theorem turns_frees (l : Ledger) (ids : Multiset Nat) :
    Turns l ids ⟨l.next, l.made, ids + l.gone⟩ 0 := by
  rintro frame ⟨hfresh, hnodup, htotal⟩
  refine ⟨hfresh, hnodup, ?_⟩
  change l.made = (ids + l.gone) + (0 + frame)
  rw [htotal]
  abel

theorem turns_free (l : Ledger) (x : Nat) : Turns l {x} (l.free x) 0 := turns_frees l {x}

/-! ## Handles

Values under numbers, with a hole where one was given up. -/

section Handles

variable {α : Type*}

/-- The value under a handle, unless it was given up. -/
def live (slots : List (Option α)) (i : Nat) : Option α := slots[i]?.join

def ownedBy (f : α → Multiset Nat) (slots : List (Option α)) : Multiset Nat :=
  (slots.map fun s => s.elim 0 f).sum

variable {f : α → Multiset Nat} {slots : List (Option α)} {i : Nat} {x : α}

theorem ownedBy_append (f : α → Multiset Nat) (slots slots' : List (Option α)) :
    ownedBy f (slots ++ slots') = ownedBy f slots + ownedBy f slots' := by
  rw [ownedBy, List.map_append, List.sum_append]
  rfl

/-- One new handle, if there is something for it. -/
theorem ownedBy_new (f : α → Multiset Nat) (slots : List (Option α)) (new : Option α) :
    ownedBy f (slots ++ new.toList.map some) = new.elim 0 f + ownedBy f slots := by
  rw [ownedBy_append, add_comm]
  cases new with
  | none => rfl
  | some x => exact congrArg (· + _) (add_zero (f x))

/-- The owner behind a handle, and the rest. -/
theorem live_split (h : live slots i = some x) : ∃ rest, ownedBy f slots = f x + rest ∧
    ∀ y, ownedBy f (slots.set i y) = y.elim 0 f + rest := by
  unfold ownedBy
  induction slots generalizing i with
  | nil => simp [live] at h
  | cons s slots ih =>
    cases i with
    | zero =>
      obtain rfl : s = some x := by simpa [live] using h
      exact ⟨_, rfl, fun y => rfl⟩
    | succ i =>
      obtain ⟨rest, hall, hset⟩ := ih (i := i) (by simpa [live] using h)
      refine ⟨s.elim 0 f + rest, ?_, fun y => ?_⟩
      · rw [List.map_cons, List.sum_cons, hall, add_left_comm]
      · rw [List.set_cons_succ, List.map_cons, List.sum_cons, hset, add_left_comm]

/-- A handle is given up, and with it what its value owned. -/
theorem Turns.drop (h : live slots i = some x) (ht : Turns l (f x) l' 0) :
    Turns l (ownedBy f slots) l' (ownedBy f (slots.set i none)) := by
  obtain ⟨rest, hall, hset⟩ := live_split (f := f) h
  rw [hall, hset]
  exact ht.frame rest

/-- The value under a handle changes, but not what it owns. -/
theorem ownedBy_set {y : α} (h : live slots i = some x) (hxy : f y = f x) :
    ownedBy f (slots.set i (some y)) = ownedBy f slots := by
  obtain ⟨rest, hall, hset⟩ := live_split (f := f) h
  rw [hall, hset, Option.elim_some, hxy]

end Handles

end Ownership
