import Mathlib.Data.List.Sort

/-!
# The C standard library, as far as a string program needs it

A `char *` is the list of bytes from the pointer to the end of its buffer, and
the end of the buffer reads as the terminator. `qsort` and `bsearch` are any
functions that meet the standard: `Libc` carries their contracts, and nothing
depends on which sorting or searching algorithm stands behind them.
-/
namespace CLib

abbrev Bytes := List UInt8

def ascii (s : String) : Bytes := s.toList.map fun c => UInt8.ofNat c.toNat

def deref : Bytes → UInt8
  | [] => 0
  | b :: _ => b

@[simp] theorem deref_nil : deref [] = 0 := rfl
@[simp] theorem deref_cons (b : UInt8) (c : Bytes) : deref (b :: c) = b := rfl

/-- Character classes of the C locale; bytes from 0x80 up are in none of them. -/
def isspace (b : UInt8) : Bool := (9 ≤ b && b ≤ 13) || b == 32
def iscntrl (b : UInt8) : Bool := b < 32 || b == 127
def isalpha (b : UInt8) : Bool := (65 ≤ b && b ≤ 90) || (97 ≤ b && b ≤ 122)
def isdigit (b : UInt8) : Bool := 48 ≤ b && b ≤ 57
def isalnum (b : UInt8) : Bool := isalpha b || isdigit b

def strlen : Bytes → Nat
  | [] => 0
  | b :: s => if b = 0 then 0 else strlen s + 1

/-- Bytes compare as unsigned; the result is the difference at the first mismatch. -/
def strcmp : Bytes → Bytes → Int
  | [], t => 0 - (deref t).toNat
  | x :: s, t =>
    if x = 0 ∨ x ≠ deref t then (x.toNat : Int) - (deref t).toNat else strcmp s t.tail

def strncmp : Bytes → Bytes → Nat → Int
  | _, _, 0 => 0
  | s, t, n + 1 =>
    if deref s = 0 ∨ deref s ≠ deref t then ((deref s).toNat : Int) - (deref t).toNat
    else strncmp s.tail t.tail n

/-- A string proper: no terminator before its end. -/
def NulFree (s : Bytes) : Prop := (0 : UInt8) ∉ s

@[simp] theorem nulFree_nil : NulFree [] := by simp [NulFree]
@[simp] theorem nulFree_cons (b : UInt8) (s : Bytes) : NulFree (b :: s) ↔ b ≠ 0 ∧ NulFree s := by
  simp [NulFree, eq_comm]

/-- A string without terminators inside is as long as its bytes. -/
theorem strlen_eq {s : Bytes} (h : NulFree s) : strlen s = s.length := by
  induction s with
  | nil => rfl
  | cons b s ih =>
    obtain ⟨hb, hs⟩ := (nulFree_cons b s).mp h
    simp [strlen, hb, ih hs]

theorem toNat_ne {x y : UInt8} (h : x ≠ y) : x.toNat ≠ y.toNat := fun he => h (UInt8.toNat_inj.mp he)

theorem toNat_pos {x : UInt8} (h : x ≠ 0) : 0 < x.toNat := Nat.pos_of_ne_zero (toNat_ne h)

/-- Swapping the arguments flips the sign. -/
theorem strcmp_neg (s t : Bytes) : strcmp t s = - strcmp s t := by
  induction s generalizing t with
  | nil =>
    cases t with
    | nil => rfl
    | cons y t =>
      by_cases hy : y = 0
      · simp [strcmp, hy]
      · simp [strcmp, hy]
  | cons x s ih =>
    cases t with
    | nil => by_cases hx : x = 0 <;> simp [strcmp, hx]
    | cons y t =>
      by_cases hxy : x = y
      · subst y
        by_cases hx : x = 0
        · simp [strcmp, hx]
        · simp [strcmp, hx, ih]
      · have hyx : ¬ y = x := fun h => hxy h.symm
        simp only [strcmp, deref_cons, ne_eq, hxy, hyx, not_false_eq_true, or_true, if_true]
        omega

/-- The sign order is transitive, which is what a sort needs of it. -/
theorem strcmp_trans (s t u : Bytes) (hst : strcmp s t ≤ 0) (htu : strcmp t u ≤ 0) :
    strcmp s u ≤ 0 := by
  induction s generalizing t u with
  | nil => simp [strcmp]
  | cons x s ih =>
    cases t with
    | nil =>
      have hx : x = 0 := by
        by_contra hx
        have := toNat_pos hx
        simp [strcmp, hx] at hst
        omega
      simp [strcmp, hx]
    | cons y t =>
      by_cases hx : x = 0
      · simp [strcmp, hx]
      have hx0 := toNat_pos hx
      have hxy : x.toNat ≤ y.toNat := by
        by_cases hxy : x = y
        · simp [hxy]
        · simp [strcmp, hxy] at hst; omega
      have hy : y ≠ 0 := by rintro rfl; simp at hxy; omega
      have hyu : y.toNat ≤ (deref u).toNat := by
        by_cases hyu : y = deref u
        · simp [hyu]
        · simp [strcmp, hyu] at htu; omega
      by_cases hxu : x = deref u
      · have hxy' : x = y := UInt8.toNat_inj.mp (by rw [← hxu] at hyu; omega)
        subst hxy'
        simp only [strcmp, hx, deref_cons, ne_eq, not_true, or_self, if_false, List.tail_cons] at hst
        simp only [strcmp, hx, hxu.symm, ne_eq, not_true, or_self, if_false] at htu ⊢
        simpa [strcmp, hx, ← hxu] using ih t u.tail hst (by simpa [strcmp, hx, ← hxu] using htu)
      · simp only [strcmp, hx, hxu, ne_eq, not_false_iff, or_true, if_true]
        omega

/-- On strings proper, comparing equal is being equal. -/
theorem strcmp_eq_zero {s t : Bytes} (hs : NulFree s) (ht : NulFree t) :
    strcmp s t = 0 ↔ s = t := by
  induction s generalizing t with
  | nil =>
    cases t with
    | nil => simp [strcmp]
    | cons y t =>
      have hy : y ≠ 0 := ((nulFree_cons y t).mp ht).1
      have := toNat_pos hy
      simp only [strcmp, deref_cons, reduceCtorEq, iff_false]
      omega
  | cons x s ih =>
    obtain ⟨hx, hs⟩ := (nulFree_cons x s).mp hs
    cases t with
    | nil =>
      have := toNat_pos hx
      simp only [strcmp, deref_nil, hx, ne_eq, not_false_iff, or_true, if_true, reduceCtorEq, iff_false]
      simp
      omega
    | cons y t =>
      have htt := ((nulFree_cons y t).mp ht).2
      by_cases hxy : x = y
      · subst y
        have h := ih hs htt
        simpa [strcmp, hx] using h
      · have := toNat_ne hxy
        simp only [strcmp, hx, deref_cons, hxy, ne_eq, not_false_iff, or_true, if_true,
          List.cons.injEq, false_and, iff_false]
        omega

/-- A terminator ends a string wherever it stands in the buffer. -/
theorem strcmp_terminated {s : Bytes} (h : NulFree s) (rest t : Bytes) :
    strcmp (s ++ 0 :: rest) t = strcmp s t := by
  induction s generalizing t with
  | nil => simp [strcmp]
  | cons x s ih =>
    obtain ⟨hx, hs⟩ := (nulFree_cons x s).mp h
    simp [strcmp, ih hs]

/-- On strings proper the order is the lexicographic one of unsigned bytes. -/
theorem strcmp_lt {s t : Bytes} (hs : NulFree s) (ht : NulFree t) : strcmp s t < 0 ↔ s < t := by
  induction s generalizing t with
  | nil =>
    cases t with
    | nil => simp [strcmp]
    | cons y t =>
      have hy : y ≠ 0 := ((nulFree_cons y t).mp ht).1
      have := toNat_pos hy
      simp [strcmp]
      omega
  | cons x s ih =>
    obtain ⟨hx, hs⟩ := (nulFree_cons x s).mp hs
    cases t with
    | nil => simp [strcmp, hx]
    | cons y t =>
      have htt := ((nulFree_cons y t).mp ht).2
      rw [List.cons_lt_cons_iff, UInt8.lt_iff_toNat_lt]
      by_cases hxy : x = y
      · subst y
        simp [strcmp, hx, ih hs htt]
      · have := toNat_ne hxy
        have hdiff : strcmp (x :: s) (y :: t) = (x.toNat : Int) - y.toNat := if_pos (Or.inr hxy)
        rw [hdiff, or_iff_left fun h => hxy h.1]
        omega

theorem strncmp_neg (s t : Bytes) (n : Nat) : strncmp t s n = - strncmp s t n := by
  induction n generalizing s t with
  | zero => rfl
  | succ n ih =>
    by_cases hst : deref s = deref t
    · by_cases hs : deref s = 0
      · simp [strncmp, hs, ← hst]
      · simp [strncmp, hs, ← hst, ih s.tail t.tail]
    · have hts : ¬ deref t = deref s := fun h => hst h.symm
      simp only [strncmp, ne_eq, hst, hts, not_false_eq_true, or_true, if_true]
      omega

/-- `strncmp` against `n` bytes that are a string proper decides equality of the first `n`. -/
theorem strncmp_eq_zero {s t : Bytes} {n : Nat} (hn : n ≤ t.length) (ht : NulFree (t.take n)) :
    strncmp s t n = 0 ↔ s.take n = t.take n := by
  induction n generalizing s t with
  | zero => simp [strncmp]
  | succ n ih =>
    cases t with
    | nil => simp at hn
    | cons y t =>
      obtain ⟨hy, htt⟩ := (nulFree_cons y (t.take n)).mp ht
      cases s with
      | nil =>
        have := toNat_pos hy
        simp [strncmp]
        omega
      | cons x s =>
        by_cases hxy : x = y
        · subst y
          simp [strncmp, hy, ih (by simpa using hn) htt]
        · have := toNat_ne hxy
          simp [strncmp, hxy]
          omega

/-- A comparator that is consistent in the sense of the standard: a total preorder by sign. -/
structure Consistent {α : Type} (cmp : α → α → Int) : Prop where
  swap : ∀ a b, 0 < cmp a b ↔ cmp b a < 0
  trans : ∀ a b c, cmp a b ≤ 0 → cmp b c ≤ 0 → cmp a c ≤ 0

/-- The elements below the key, then those equal to it, then those above it. -/
def Partitioned {κ α : Type} (cmp : κ → α → Int) (key : κ) (l : List α) : Prop :=
  l.Pairwise (fun a b => (cmp key a ≤ 0 → cmp key b ≤ 0) ∧ (cmp key a < 0 → cmp key b < 0))

/-- Any implementation of the two library functions that meets the standard. -/
structure Libc where
  qsort : {α : Type} → (α → α → Int) → List α → List α
  qsort_perm : ∀ {α : Type} (cmp : α → α → Int) (l : List α), (qsort cmp l).Perm l
  qsort_sorted : ∀ {α : Type} (cmp : α → α → Int) (l : List α), Consistent cmp →
    (qsort cmp l).Pairwise (fun a b => cmp a b ≤ 0)
  bsearch : {κ α : Type} → (κ → α → Int) → κ → List α → Option Nat
  bsearch_some : ∀ {κ α : Type} (cmp : κ → α → Int) (key : κ) (l : List α) (i : Nat),
    Partitioned cmp key l → bsearch cmp key l = some i → ∃ e, l[i]? = some e ∧ cmp key e = 0
  bsearch_none : ∀ {κ α : Type} (cmp : κ → α → Int) (key : κ) (l : List α),
    Partitioned cmp key l → bsearch cmp key l = none → ∀ e ∈ l, cmp key e ≠ 0

/-- `strcmp` is an order in the sense of the standard. -/
theorem consistent_strcmp : Consistent strcmp where
  swap a b := by rw [strcmp_neg a b]; omega
  trans := strcmp_trans

/-- A consistent comparator stays consistent behind a projection. -/
theorem Consistent.comap {α β : Type} {cmp : α → α → Int} (h : Consistent cmp) (f : β → α) :
    Consistent (fun x y => cmp (f x) (f y)) where
  swap a b := h.swap (f a) (f b)
  trans a b c := h.trans (f a) (f b) (f c)

theorem Consistent.total {α : Type} {cmp : α → α → Int} (h : Consistent cmp) (a b : α) :
    cmp a b ≤ 0 ∨ cmp b a ≤ 0 := by
  have := h.swap a b
  omega

/-- Strictly below, then weakly below, is strictly below. -/
theorem Consistent.lt_of_lt_of_le {α : Type} {cmp : α → α → Int} (h : Consistent cmp)
    {a b c : α} (hab : cmp a b < 0) (hbc : cmp b c ≤ 0) : cmp a c < 0 := by
  by_contra hac
  have hca : cmp c a ≤ 0 := by have := h.swap c a; omega
  have hba := h.trans b c a hbc hca
  have := h.swap b a
  omega

/-- Distinct elements come out of `qsort` strictly increasing. -/
theorem Libc.qsort_strict (L : Libc) {α : Type} {cmp : α → α → Int} {l : List α}
    (hc : Consistent cmp) (hd : l.Pairwise (fun a b => cmp a b ≠ 0)) :
    (L.qsort cmp l).Pairwise (fun a b => cmp a b < 0) := by
  have hsymm : ∀ {x y : α}, cmp x y ≠ 0 → cmp y x ≠ 0 := by
    intro x y h
    have := hc.swap x y
    have := hc.swap y x
    omega
  have hd' := (L.qsort_perm cmp l).symm.pairwise hd hsymm
  have hs := L.qsort_sorted cmp l hc
  exact (hs.and hd').imp (fun h => by omega)

/-- An array sorted behind a projection is partitioned by every key that is compared so. -/
theorem Consistent.partitioned {κ α β : Type} {le : β → β → Int} (hc : Consistent le) {f : α → β}
    {cmp : κ → α → Int} {key : κ} {k : β} (hcmp : ∀ e, cmp key e = le k (f e)) {l : List α}
    (h : l.Pairwise (fun a b => le (f a) (f b) ≤ 0)) : Partitioned cmp key l := by
  refine h.imp ?_
  intro a b hab
  simp only [hcmp]
  exact ⟨fun hka => hc.trans k (f a) (f b) hka hab, fun hka => hc.lt_of_lt_of_le hka hab⟩

/-- Insertion sort and a left-to-right scan: the simplest library that meets the contract. -/
def Libc.reference : Libc where
  qsort cmp l := l.insertionSort (fun a b => decide (cmp a b ≤ 0))
  qsort_perm cmp l := List.perm_insertionSort _ l
  qsort_sorted {α} cmp l hc := by
    have : Std.Total (fun a b => (decide (cmp a b ≤ 0)) = true) := ⟨by simpa using hc.total⟩
    have : IsTrans α (fun a b => (decide (cmp a b ≤ 0)) = true) := ⟨by simpa using hc.trans⟩
    simpa using List.pairwise_insertionSort (fun a b => decide (cmp a b ≤ 0)) l
  bsearch cmp key l := l.findIdx? (fun e => cmp key e == 0)
  bsearch_some cmp key l i _ h := by
    rw [List.findIdx?_eq_some_iff_getElem] at h
    obtain ⟨hi, he, _⟩ := h
    exact ⟨l[i], List.getElem?_eq_getElem hi, by simpa using he⟩
  bsearch_none cmp key l _ h := by
    simpa using h

end CLib
