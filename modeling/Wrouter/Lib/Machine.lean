import Mathlib.Algebra.Ring.Nat
import Mathlib.Data.Nat.Basic

/-!
# Unsigned machine words

Sums and differences wrap at the width. Rounding an address up to a power of two is done
with a mask; whatever wraps on the way, what it adds is the distance to the next multiple.
-/
namespace Machine

def addWord (w a b : Nat) : Nat := (a + b) % 2 ^ w

def subWord (w a b : Nat) : Nat := (a + 2 ^ w - b) % 2 ^ w

/-- `x & ~mask` clears the bits that `x & mask` has. -/
def clearBits (x mask : Nat) : Nat := x - (x &&& mask)

/-- `(x + (align - 1)) & ~(align - 1)`. -/
def alignWord (w x align : Nat) : Nat :=
  clearBits (addWord w x (subWord w align 1)) (subWord w align 1)

/-- The distance from `x` to the next multiple of `align`. -/
def padding (x align : Nat) : Nat := (align - x % align) % align

theorem addWord_eq {w a b : Nat} (h : a + b < 2 ^ w) : addWord w a b = a + b :=
  Nat.mod_eq_of_lt h

theorem addWord_lt (w a b : Nat) : addWord w a b < 2 ^ w :=
  Nat.mod_lt _ (Nat.two_pow_pos w)

theorem subWord_eq {w a b : Nat} (ha : a < 2 ^ w) (h : b ≤ a) : subWord w a b = a - b := by
  rw [subWord, Nat.add_comm, Nat.add_sub_assoc h, Nat.add_mod_left, Nat.mod_eq_of_lt (by omega)]

/-- A sum of three words may be reduced in the middle. -/
theorem addWord_assoc (w a b c : Nat) : addWord w a (addWord w b c) = (a + b + c) % 2 ^ w := by
  rw [addWord, addWord, Nat.add_mod_mod, Nat.add_assoc]

theorem addWord_zero_add (w a b : Nat) : addWord w a (addWord w 0 b) = addWord w a b := by
  rw [addWord_assoc, Nat.add_zero, addWord]

/-- What was added to a word is what its difference gives back. -/
theorem subWord_addWord {w x p : Nat} (hx : x < 2 ^ w) (hp : p < 2 ^ w) :
    subWord w (addWord w x p) x = p := by
  rw [subWord, addWord]
  by_cases h : x + p < 2 ^ w
  · rw [Nat.mod_eq_of_lt h, show x + p + 2 ^ w - x = p + 2 ^ w by omega, Nat.add_mod_right,
      Nat.mod_eq_of_lt hp]
  · have hwrap : (x + p) % 2 ^ w = x + p - 2 ^ w := by
      rw [Nat.mod_eq_sub_mod (by omega), Nat.mod_eq_of_lt (by omega)]
    rw [hwrap, show x + p - 2 ^ w + 2 ^ w - x = p by omega, Nat.mod_eq_of_lt hp]

theorem padding_lt {align : Nat} (x : Nat) (h : 0 < align) : padding x align < align :=
  Nat.mod_lt _ h

theorem dvd_add_padding {align : Nat} (x : Nat) (h : 0 < align) : align ∣ x + padding x align := by
  have hdiv := Nat.div_add_mod x align
  have hlt := Nat.mod_lt x h
  rcases Nat.eq_zero_or_pos (x % align) with hz | hpos
  · refine ⟨x / align, ?_⟩
    rw [padding, hz, Nat.sub_zero, Nat.mod_self]
    omega
  · refine ⟨x / align + 1, ?_⟩
    rw [padding, Nat.mod_eq_of_lt (by omega), Nat.mul_succ]
    omega

/-- No multiple lies before the padded address. -/
theorem padding_le {align x m : Nat} (hm : align ∣ m) (hx : x ≤ m) : x + padding x align ≤ m := by
  rcases Nat.eq_zero_or_pos align with rfl | h
  · obtain rfl := Nat.eq_zero_of_zero_dvd hm
    obtain rfl := Nat.le_zero.mp hx
    simp [padding]
  have hp := padding_lt x h
  obtain ⟨c, hc⟩ := dvd_add_padding x h
  obtain ⟨d, rfl⟩ := hm
  rw [hc]
  refine Nat.mul_le_mul_left align (Nat.lt_succ_iff.mp ?_)
  refine Nat.lt_of_mul_lt_mul_left (a := align) ?_
  rw [← hc, Nat.mul_succ]
  omega

theorem padding_one (x : Nat) : padding x 1 = 0 := Nat.mod_one _

/-- Clearing the low bits rounds down to a multiple. -/
theorem clearBits_eq (x k : Nat) : clearBits x (2 ^ k - 1) = 2 ^ k * (x / 2 ^ k) := by
  rw [clearBits, Nat.and_two_pow_sub_one_eq_mod]
  have := Nat.div_add_mod x (2 ^ k)
  omega

/-- Rounding up adds the padding, in machine words. -/
theorem alignWord_eq {w k x : Nat} (hk : k < w) (hx : x < 2 ^ w) :
    alignWord w x (2 ^ k) = addWord w x (padding x (2 ^ k)) := by
  have hpos := Nat.two_pow_pos k
  have hkw : 2 ^ k < 2 ^ w := Nat.pow_lt_pow_right (by omega) hk
  have hdvd : 2 ^ k ∣ 2 ^ w := Nat.pow_dvd_pow 2 (Nat.le_of_lt hk)
  have hp := padding_lt x hpos
  have hle := padding_le hdvd (Nat.le_of_lt hx)
  obtain ⟨c, hc⟩ := dvd_add_padding x hpos
  rw [alignWord, subWord_eq hkw hpos, clearBits_eq]
  by_cases hwrap : x + (2 ^ k - 1) < 2 ^ w
  · have hdiv : (x + (2 ^ k - 1)) / 2 ^ k = c := by
      refine Nat.div_eq_of_lt_le ?_ ?_
      · rw [Nat.mul_comm, ← hc]
        omega
      · rw [Nat.succ_mul, Nat.mul_comm c, ← hc]
        omega
    rw [addWord_eq hwrap, hdiv, ← hc, addWord_eq (by omega)]
  · have hsum : addWord w x (2 ^ k - 1) = x + (2 ^ k - 1) - 2 ^ w := by
      rw [addWord, Nat.mod_eq_sub_mod (by omega), Nat.mod_eq_of_lt (by omega)]
    -- the next multiple is the end of the address space
    have hlast : x + padding x (2 ^ k) = 2 ^ w := by
      by_contra hne
      have := Nat.le_of_dvd (by omega) (Nat.dvd_sub hdvd (dvd_add_padding x hpos))
      omega
    rw [hsum, Nat.div_eq_of_lt (by omega), Nat.mul_zero, addWord, hlast, Nat.mod_self]

/-- The padding that is computed is the distance to the next multiple. -/
theorem subWord_alignWord {w k x : Nat} (hk : k < w) (hx : x < 2 ^ w) :
    subWord w (alignWord w x (2 ^ k)) x = padding x (2 ^ k) := by
  have hkw : 2 ^ k < 2 ^ w := Nat.pow_lt_pow_right (by omega) hk
  rw [alignWord_eq hk hx, subWord_addWord hx (by have := padding_lt x (Nat.two_pow_pos k); omega)]

theorem alignWord_one {w x : Nat} (hw : 0 < w) (hx : x < 2 ^ w) : alignWord w x 1 = x := by
  have h := alignWord_eq (k := 0) hw hx
  rw [Nat.pow_zero, padding_one, addWord, Nat.add_zero, Nat.mod_eq_of_lt hx] at h
  exact h

-- the unifier must not compute at a fixed width
attribute [irreducible] addWord subWord clearBits

end Machine
