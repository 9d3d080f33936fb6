import Mathlib.Algebra.Ring.Int.Defs
import Mathlib.Algebra.Ring.Nat
import Mathlib.Data.List.Sort

/-!
# Searching an increasing table of keys

The textbook halving loop over `[low, high)` and the left-to-right scan, on a
table given by its key function. On strictly increasing keys the two agree: both
find the one index that carries the key, so a program may switch between them by
the number of entries.
-/
namespace Search

/-- `while (low < high)`: each pass halves the interval or stops at the key. -/
def halving (key : Nat → Nat) (x : Nat) : Nat → Nat → Nat → Option Nat
  | 0, _, _ => none
  | fuel + 1, low, high =>
    if low < high then
      let mid := low + (high - low) / 2
      let cond : Int := (x : Int) - key mid
      if cond < 0 then halving key x fuel low mid
      else if cond > 0 then halving key x fuel (mid + 1) high
      else some mid
    else none

/-- `for (i = 0; i < n; i++)`: the first index whose key is `x`. -/
def scan (key : Nat → Nat) (x : Nat) : Nat → Nat → Option Nat
  | 0, _ => none
  | n + 1, i => if key i = x then some i else scan key x n (i + 1)

/-- Halving above a threshold, scanning up to it. -/
def search (threshold : Nat) (key : Nat → Nat) (x n : Nat) : Option Nat :=
  if n > threshold then halving key x n 0 n else scan key x n 0

def Increasing (key : Nat → Nat) (n : Nat) : Prop := ∀ i j, i < j → j < n → key i < key j

variable {key : Nat → Nat} {x n : Nat}

/-- Increasing keys are distinct. -/
theorem increasing_inj (h : Increasing key n) {i j : Nat} (hi : i < n) (hj : j < n)
    (he : key i = key j) : i = j := by
  rcases Nat.lt_trichotomy i j with hlt | heq | hgt
  · have := h i j hlt hj; omega
  · exact heq
  · have := h j i hgt hi; omega

theorem halving_some {fuel low high i : Nat} (h : halving key x fuel low high = some i) :
    low ≤ i ∧ i < high ∧ key i = x := by
  induction fuel generalizing low high with
  | zero => simp [halving] at h
  | succ fuel ih =>
    simp only [halving] at h
    split at h
    · rename_i hlt
      split at h
      · have := ih h; omega
      · split at h
        · have := ih h; omega
        · have := Option.some.inj h
          subst this
          omega
    · simp at h

/-- Enough passes find the key wherever it stands in the interval. -/
theorem halving_found (h : Increasing key n) {fuel low high i : Nat} (hn : high ≤ n)
    (hfuel : high - low ≤ fuel) (hlow : low ≤ i) (hhigh : i < high) (hx : key i = x) :
    halving key x fuel low high = some i := by
  induction fuel generalizing low high with
  | zero => omega
  | succ fuel ih =>
    have hlt : low < high := by omega
    simp only [halving, if_pos hlt]
    have hmid : low ≤ low + (high - low) / 2 ∧ low + (high - low) / 2 < high := by omega
    generalize low + (high - low) / 2 = mid at hmid
    rcases Nat.lt_trichotomy i mid with him | him | him
    · have := h i mid him (by omega)
      rw [if_pos (by omega)]
      exact ih (by omega) (by omega) hlow him
    · subst him
      rw [if_neg (by omega), if_neg (by omega)]
    · have := h mid i him (by omega)
      rw [if_neg (by omega), if_pos (by omega)]
      exact ih hn (by omega) (by omega) hhigh

theorem scan_some {k i j : Nat} (h : scan key x k i = some j) :
    i ≤ j ∧ j < i + k ∧ key j = x := by
  induction k generalizing i with
  | zero => simp [scan] at h
  | succ k ih =>
    simp only [scan] at h
    split at h
    · have := Option.some.inj h
      subst this
      omega
    · have := ih h; omega

/-- The scan finds the one index with the key. -/
theorem scan_found (h : Increasing key n) {k i j : Nat} (hn : i + k ≤ n) (hij : i ≤ j)
    (hj : j < i + k) (hx : key j = x) : scan key x k i = some j := by
  induction k generalizing i with
  | zero => omega
  | succ k ih =>
    simp only [scan]
    by_cases he : key i = x
    · rw [if_pos he, increasing_inj h (by omega) (by omega) (he.trans hx.symm)]
    · rw [if_neg he]
      have hne : i ≠ j := by rintro rfl; exact he hx
      exact ih (by omega) (by omega) (by omega)

/-- What is found carries the key, whatever the order of the keys. -/
theorem search_some {threshold i : Nat} (h : search threshold key x n = some i) :
    i < n ∧ key i = x := by
  unfold search at h
  split at h
  · have := halving_some h
    exact ⟨this.2.1, this.2.2⟩
  · have := scan_some h
    exact ⟨by omega, this.2.2⟩

/-- Either way of searching finds exactly the index that carries the key. -/
theorem search_eq_some (h : Increasing key n) (threshold i : Nat) :
    search threshold key x n = some i ↔ i < n ∧ key i = x := by
  constructor
  · exact search_some
  · rintro ⟨hi, hx⟩
    unfold search
    split
    · exact halving_found h (Nat.le_refl n) (by omega) (Nat.zero_le i) hi hx
    · exact scan_found h (by omega) (Nat.zero_le i) (by omega) hx

theorem search_eq_none (h : Increasing key n) (threshold : Nat) :
    search threshold key x n = none ↔ ∀ i < n, key i ≠ x := by
  rw [Option.eq_none_iff_forall_ne_some]
  constructor
  · intro hs i hi hx
    exact hs i ((search_eq_some h threshold i).mpr ⟨hi, hx⟩)
  · intro hs i hi
    obtain ⟨hi, hx⟩ := (search_eq_some h threshold i).mp hi
    exact hs i hi hx

/-- On increasing keys the loop and the scan find the same, whatever the number of entries. -/
theorem halving_eq_scan (h : Increasing key n) : halving key x n 0 n = scan key x n 0 := by
  refine Option.ext (fun i => ?_)
  constructor
  · intro hi
    obtain ⟨-, hlt, hx⟩ := halving_some hi
    exact scan_found h (by omega) (Nat.zero_le i) (by omega) hx
  · intro hi
    obtain ⟨-, hlt, hx⟩ := scan_some hi
    exact halving_found h (Nat.le_refl n) (by omega) (Nat.zero_le i) (by omega) hx

theorem scan_eq_some (h : Increasing key n) (i : Nat) :
    scan key x n 0 = some i ↔ i < n ∧ key i = x := by
  constructor
  · intro hi
    obtain ⟨-, hlt, hx⟩ := scan_some hi
    exact ⟨by omega, hx⟩
  · rintro ⟨hi, hx⟩
    exact scan_found h (by omega) (Nat.zero_le i) (by omega) hx

/-! ## In machine words -/

/-- The difference of two unsigned 64-bit words, read as a signed one. -/
def signedDiff (x k : Nat) : Int :=
  let d : Nat := (x + 2 ^ 64 - k) % 2 ^ 64
  if d < 2 ^ 63 then (d : Int) else (d : Int) - 2 ^ 64

/-- `halving` over 16-bit indices, with the difference as the program computes it. -/
def halvingWord (diff : Nat → Nat → Int) (key : Nat → Nat) (x : Nat) :
    Nat → Nat → Nat → Option Nat
  | 0, _, _ => none
  | fuel + 1, low, high =>
    if low < high then
      let mid := (low + (high - low) / 2) % 2 ^ 16
      let cond := diff x (key mid)
      if cond < 0 then halvingWord diff key x fuel low mid
      else if cond > 0 then halvingWord diff key x fuel ((mid + 1) % 2 ^ 16) high
      else some mid
    else none

theorem signedDiff_eq {x k : Nat} (hx : x < 2 ^ 63) (hk : k < 2 ^ 63) :
    signedDiff x k = (x : Int) - k := by
  unfold signedDiff
  dsimp only
  split <;> omega

theorem signedDiff_ne {x k : Nat} (hx : x < 2 ^ 64) (hk : k < 2 ^ 64) (h : x ≠ k) :
    signedDiff x k ≠ 0 := by
  unfold signedDiff
  dsimp only
  split <;> omega

variable {diff : Nat → Nat → Int}

/-- No index leaves the 16 bits, so only the difference could go wrong. -/
theorem halvingWord_eq {fuel low high : Nat} (h16 : high < 2 ^ 16)
    (hdiff : ∀ i < high, diff x (key i) = (x : Int) - key i) :
    halvingWord diff key x fuel low high = halving key x fuel low high := by
  induction fuel generalizing low high with
  | zero => rfl
  | succ fuel ih =>
    simp only [halvingWord, halving]
    split
    · rename_i hlt
      rw [Nat.mod_eq_of_lt (show low + (high - low) / 2 < 2 ^ 16 by omega),
        Nat.mod_eq_of_lt (show low + (high - low) / 2 + 1 < 2 ^ 16 by omega),
        hdiff _ (by omega), ih (by omega) (fun i hi => hdiff i (by omega)), ih h16 hdiff]
    · rfl

theorem halvingWord_none {fuel low high : Nat} (h16 : high < 2 ^ 16)
    (hdiff : ∀ i < high, diff x (key i) ≠ 0) : halvingWord diff key x fuel low high = none := by
  induction fuel generalizing low high with
  | zero => rfl
  | succ fuel ih =>
    simp only [halvingWord]
    split
    · rename_i hlt
      rw [Nat.mod_eq_of_lt (show low + (high - low) / 2 < 2 ^ 16 by omega),
        Nat.mod_eq_of_lt (show low + (high - low) / 2 + 1 < 2 ^ 16 by omega),
        ih (by omega) (fun i hi => hdiff i (by omega)), ih h16 hdiff]
      have hne := hdiff (low + (high - low) / 2) (by omega)
      split
      · rfl
      · rw [if_pos (by omega)]
    · rfl

/-- A 64-bit key searched for among 16-bit ones: the wrapped difference misleads nowhere. -/
theorem halvingWord_eq_scan (h : Increasing key n) (h16 : n < 2 ^ 16)
    (hkey : ∀ i < n, key i < 2 ^ 16) (hx : x < 2 ^ 64) :
    halvingWord signedDiff key x n 0 n = scan key x n 0 := by
  by_cases hsmall : x < 2 ^ 63
  · rw [halvingWord_eq h16 (fun i hi => signedDiff_eq hsmall (by have := hkey i hi; omega)),
      halving_eq_scan h]
  · rw [halvingWord_none h16 (fun i hi => signedDiff_ne hx ?_ ?_)]
    · refine (Option.eq_none_iff_forall_ne_some.mpr (fun i hi => ?_)).symm
      obtain ⟨hlt, hx⟩ := (scan_eq_some h i).mp hi
      have := hkey i hlt
      omega
    · have := hkey i hi
      omega
    · have := hkey i hi
      omega

/-! ## Tables whose keys have to be read -/

/-- `halving`, where every key it looks at is a read that may fail. -/
def halvingRead (read : Nat → Option Nat) (x : Nat) : Nat → Nat → Nat → Option (Option Nat)
  | 0, _, _ => some none
  | fuel + 1, low, high =>
    if low < high then
      let mid := low + (high - low) / 2
      match read mid with
      | none => none
      | some k =>
        let cond : Int := (x : Int) - k
        if cond < 0 then halvingRead read x fuel low mid
        else if cond > 0 then halvingRead read x fuel (mid + 1) high
        else some (some mid)
    else some none

def scanRead (read : Nat → Option Nat) (x : Nat) : Nat → Nat → Option (Option Nat)
  | 0, _ => some none
  | n + 1, i =>
    match read i with
    | none => none
    | some k => if k = x then some (some i) else scanRead read x n (i + 1)

def searchRead (threshold : Nat) (read : Nat → Option Nat) (x n : Nat) : Option (Option Nat) :=
  if n > threshold then halvingRead read x n 0 n else scanRead read x n 0

variable {read : Nat → Option Nat}

/-- Where every key can be read the guarded loop is the plain one. -/
theorem halvingRead_eq {fuel low high : Nat} (h : ∀ i < high, read i = some (key i)) :
    halvingRead read x fuel low high = some (halving key x fuel low high) := by
  induction fuel generalizing low high with
  | zero => rfl
  | succ fuel ih =>
    simp only [halvingRead, halving]
    split
    · rename_i hlt
      rw [h _ (show low + (high - low) / 2 < high by omega)]
      dsimp only
      rw [ih h, ih (fun i hi => h i (by omega))]
      split
      · rfl
      · split <;> rfl
    · rfl

theorem scanRead_eq {k i : Nat} (h : ∀ j, i ≤ j → j < i + k → read j = some (key j)) :
    scanRead read x k i = some (scan key x k i) := by
  induction k generalizing i with
  | zero => rfl
  | succ k ih =>
    simp only [scanRead, scan]
    rw [h i (Nat.le_refl i) (by omega)]
    dsimp only
    rw [ih (fun j hlo hhi => h j (by omega) (by omega))]
    split <;> rfl

/-- A search looks at no key outside the table. -/
theorem searchRead_eq (threshold : Nat) (h : ∀ i < n, read i = some (key i)) :
    searchRead threshold read x n = some (search threshold key x n) := by
  unfold searchRead search
  split
  · exact halvingRead_eq h
  · exact scanRead_eq (fun j _ hj => h j (by omega))

end Search
