import Mathlib.Algebra.Group.Int.Defs
import Mathlib.Algebra.Group.Nat.Defs
import Mathlib.Order.Basic

set_option autoImplicit false

/-!
# Foundation: rounding up to an alignment

`alignUp a n` is the first multiple of `a` from `n` on.  On words, C adds one less than a
power of two and clears the low bits.
-/

namespace DonutOS.Foundation

variable {a n k w : Nat}

/-- The first multiple of `a` from `n` on. -/
def alignUp (a n : Nat) : Nat := (n + (a - 1)) / a * a

theorem dvd_alignUp (a n : Nat) : a ∣ alignUp a n := Nat.dvd_mul_left a _

theorem le_alignUp (ha : 0 < a) (n : Nat) : n ≤ alignUp a n := by
  have hmod := Nat.mod_lt (n + (a - 1)) ha
  have hdiv := Nat.div_add_mod' (n + (a - 1)) a
  unfold alignUp
  omega

/-- A multiple of `a` in front is kept. -/
theorem alignUp_add (ha : 0 < a) (hk : a ∣ k) (n : Nat) :
    alignUp a (k + n) = k + alignUp a n := by
  obtain ⟨c, rfl⟩ := hk
  unfold alignUp
  rw [Nat.add_assoc, Nat.mul_add_div ha, Nat.add_mul, Nat.mul_comm c a]

/-- Clearing the `k` low bits rounds down. -/
theorem toNat_and_not_low (x : BitVec w) (k : Nat) :
    (x &&& ~~~BitVec.ofNat w (2 ^ k - 1)).toNat = x.toNat / 2 ^ k * 2 ^ k := by
  rw [← Nat.shiftRight_eq_div_pow, ← Nat.shiftLeft_eq]
  refine Nat.eq_of_testBit_eq fun i => ?_
  rw [BitVec.testBit_toNat, BitVec.getLsbD_and, BitVec.getLsbD_not, BitVec.getLsbD_ofNat,
    Nat.testBit_two_pow_sub_one, Nat.testBit_shiftLeft, Nat.testBit_shiftRight,
    BitVec.testBit_toNat]
  by_cases hlow : i < k
  · simp [hlow, Nat.not_le.mpr hlow]
  · have hback : k + (i - k) = i := by omega
    rw [hback]
    by_cases hi : i < w
    · simp [hlow, hi, Nat.le_of_not_lt hlow]
    · simp [BitVec.getLsbD_of_ge x i (Nat.le_of_not_lt hi)]

/-- Without overflow, adding one less than a power of two first rounds up. -/
theorem toNat_align {x : BitVec w} (hx : x.toNat + (2 ^ k - 1) < 2 ^ w) :
    ((x + BitVec.ofNat w (2 ^ k - 1)) &&& ~~~BitVec.ofNat w (2 ^ k - 1)).toNat =
      alignUp (2 ^ k) x.toNat := by
  have hlow : 2 ^ k - 1 < 2 ^ w := Nat.lt_of_le_of_lt (Nat.le_add_left _ _) hx
  rw [toNat_and_not_low, BitVec.toNat_add, BitVec.toNat_ofNat, Nat.mod_eq_of_lt hlow,
    Nat.mod_eq_of_lt hx]
  rfl

end DonutOS.Foundation
