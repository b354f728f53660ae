import Mathlib.Data.Nat.Digits.Defs

set_option autoImplicit false

/-!
# Foundation: the digits of a number

`Nat.digits`, except that zero has a digit: what a loop writes that divides until nothing
is left, but at least once.
-/

namespace DonutOS.Foundation

variable {b n k : Nat}

/-- The digits of `n` in base `b`, the least significant first. -/
def digitsOf (b n : Nat) : List Nat := if n = 0 then [0] else Nat.digits b n

theorem digitsOf_eq (hb : 1 < b) (n : Nat) :
    digitsOf b n = n % b :: if n / b = 0 then [] else digitsOf b (n / b) := by
  unfold digitsOf
  by_cases hn : n = 0
  · rw [if_pos hn, hn, Nat.zero_mod, Nat.zero_div, if_pos rfl]
  · rw [if_neg hn, Nat.digits_def' hb (Nat.pos_of_ne_zero hn)]
    by_cases hlast : n / b = 0
    · rw [if_pos hlast, hlast, Nat.digits_zero]
    · rw [if_neg hlast, if_neg hlast]

theorem length_digitsOf_pos (hb : 1 < b) (n : Nat) : 0 < (digitsOf b n).length := by
  rw [digitsOf_eq hb]
  exact Nat.succ_pos _

theorem digitsOf_lt (hb : 1 < b) {d : Nat} (hd : d ∈ digitsOf b n) : d < b := by
  unfold digitsOf at hd
  split at hd
  · rw [List.mem_singleton.mp hd]
    omega
  · exact Nat.digits_lt_base hb hd

theorem lt_pow_length_digitsOf (hb : 1 < b) (n : Nat) : n < b ^ (digitsOf b n).length := by
  unfold digitsOf
  split
  · next hn =>
    rw [hn]
    exact Nat.pow_pos (Nat.lt_trans Nat.zero_lt_one hb)
  · exact Nat.lt_base_pow_length_digits hb

/-- `k` digits are enough for the numbers below `b ^ k`, and not for others. -/
theorem length_digitsOf_le_iff (hb : 1 < b) (hk : 0 < k) (n : Nat) :
    (digitsOf b n).length ≤ k ↔ n < b ^ k := by
  constructor
  · intro hlen
    exact Nat.lt_of_lt_of_le (lt_pow_length_digitsOf hb n)
      (Nat.pow_le_pow_right (Nat.lt_trans Nat.zero_lt_one hb) hlen)
  · intro hn
    induction k generalizing n with
    | zero => exact absurd hk (Nat.lt_irrefl 0)
    | succ k ih =>
        rw [digitsOf_eq hb, List.length_cons]
        refine Nat.succ_le_succ ?_
        split
        · exact Nat.zero_le k
        · next hrest =>
          have hdiv : n / b < b ^ k := by
            rw [Nat.pow_succ, Nat.mul_comm] at hn
            exact Nat.div_lt_of_lt_mul hn
          have hpos : 0 < k := by
            by_contra hzero
            rw [Nat.eq_zero_of_not_pos hzero, Nat.pow_zero] at hdiv
            exact hrest (Nat.lt_one_iff.mp hdiv)
          exact ih hpos _ hdiv

end DonutOS.Foundation
