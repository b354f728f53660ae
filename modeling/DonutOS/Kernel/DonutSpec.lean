import DonutOS.Foundation.FixedRotation
import DonutOS.Kernel.Donut
import Mathlib.Tactic.LinearCombination
import Mathlib.Tactic.NormNum

set_option autoImplicit false

/-!
# Kernel: every point of the donut can be drawn (`kernel/src/donut.c`)

The sines and cosines stay on their circle, whatever the number of turns.  From this
alone follow the bounds of all that a round of the inner loop computes: no operation
overflows, the divisor is positive, the depth fits into an `int8_t` and is in front of
the ground, and the brightness is an index of the string of characters.
-/

namespace DonutOS.Kernel

open DonutOS.Foundation

/-- A sine and a cosine as the donut keeps them. -/
def UnitPair (c s : Int) : Prop := OnCircle 1024 (c, s)

theorem UnitPair.sq_le {c s : Int} (h : UnitPair c s) : c ^ 2 + s ^ 2 ≤ 1051650 := by
  simpa [UnitPair, OnCircle, lengthSq, lengthBound] using h

theorem UnitPair.swap {c s : Int} (h : UnitPair c s) : UnitPair s c := by
  unfold UnitPair OnCircle lengthSq at *
  linarith

theorem UnitPair.bounded {c s : Int} (h : UnitPair c s) : CInt.Bounded (.of c) c 1025 := by
  have hsq := h.sq_le
  have habs : |c| ≤ 1025 := by
    by_contra hc
    have hbig : 1026 ^ 2 ≤ |c| ^ 2 := pow_le_pow_left₀ (by norm_num) (not_le.mp hc) 2
    rw [sq_abs] at hbig
    linarith [sq_nonneg s]
  exact ⟨rfl, (abs_le.mp habs).1, (abs_le.mp habs).2⟩

theorem unit_first : UnitPair 1024 0 := by
  unfold UnitPair
  norm_num [OnCircle, lengthSq, lengthBound]

/-! ## The macro `R` -/

section Rotate

variable {mul : CInt} {m x y : Int} {shift : Nat}

/-- Nothing overflows in `R`, and it is a turn of the fixed-point rotation. -/
theorem rotate_eq (hmul : mul.Bounded m 9) (h : UnitPair x y) :
    rotate mul shift (.of x) (.of y) = some (turn 1024 m (2 ^ shift) (x, y)) := by
  have hshift : ∀ {c : CInt} {v : Int}, c.Bounded v 9225 →
      (c >>> shift).Bounded (v / 2 ^ shift) 9226 := by
    intro c v hc
    have hsmall : (9225 : Int) / 2 ^ shift ≤ 9225 := Int.ediv_le_self _ (by norm_num)
    exact (hc.shiftRight shift).mono (by linarith)
  have hx := h.bounded.sub (hshift (hmul.mul h.swap.bounded (by norm_num))) (by norm_num)
  have hy := h.swap.bounded.add (hshift (hmul.mul h.bounded (by norm_num))) (by norm_num)
  have ht := (((CInt.Bounded.const 3145728).sub (hx.mul hx (by norm_num)) (by norm_num)).sub
    (hy.mul hy (by norm_num)) (by norm_num)).shiftRight 11
  have hx' := (hx.mul ht (by norm_num)).shiftRight 10
  have hy' := (hy.mul ht (by norm_num)).shiftRight 10
  simp only [rotate, hx'.value, hy'.value]
  have hdouble : (2 : Int) ^ 11 = 2 * 1024 := by norm_num
  have hthree : ((3145728 : Nat) : Int) = 3 * 1024 ^ 2 := by norm_num
  have hone : (2 : Int) ^ 10 = 1024 := by norm_num
  simp only [turn, hdouble, hone, hthree, sq]
  rfl

/-- One more turn keeps the pair on its circle. -/
theorem UnitPair.turn (hm : 0 ≤ m) (hshift : 2 * m ≤ 2 ^ shift) (h : UnitPair x y) :
    UnitPair (turn 1024 m (2 ^ shift) (x, y)).1 (turn 1024 m (2 ^ shift) (x, y)).2 :=
  OnCircle.turn (by norm_num) hm hshift (by positivity) h

end Rotate

/-! ## One point -/

section Dot

variable {sA cA sB cB sj cj si ci : Int}

/-- What a shift to the right by ten loses. -/
theorem exists_rest (x : Int) : ∃ e, 0 ≤ e ∧ e ≤ 1023 ∧ 1024 * (x / 2 ^ 10) = x - e := by
  have hpow : (2 : Int) ^ 10 = 1024 := by norm_num
  rw [hpow]
  exact ⟨x % 1024, by omega, by omega, by omega⟩

/-- The light falls on the donut along `v`, the normal of the point is `n`, both scaled by
`1024` more than they should: their product is at most `√2 * 1051650 ^ 2`. -/
theorem light_le (hA : UnitPair cA sA) (hB : UnitPair cB sB) (hj : UnitPair cj sj)
    (hi : UnitPair ci si) :
    -(cj * ci * (1024 * sB) + cj * si * (1024 * cA - cB * sA) +
      1024 * sj * (cB * cA + 1024 * sA)) ≤ 1565000000000 := by
  have hn : (cj * ci) ^ 2 + (cj * si) ^ 2 + (1024 * sj) ^ 2 ≤ 1051650 ^ 2 :=
    calc (cj * ci) ^ 2 + (cj * si) ^ 2 + (1024 * sj) ^ 2
        = cj ^ 2 * (ci ^ 2 + si ^ 2) + 1048576 * sj ^ 2 := by ring
      _ ≤ cj ^ 2 * 1051650 + 1051650 * sj ^ 2 := by
          have hring := mul_le_mul_of_nonneg_left hi.sq_le (sq_nonneg cj)
          linarith [sq_nonneg sj]
      _ ≤ 1051650 ^ 2 := by linarith [hj.sq_le]
  have hv : (1024 * sB) ^ 2 + (1024 * cA - cB * sA) ^ 2 + (cB * cA + 1024 * sA) ^ 2 ≤
      2 * 1051650 ^ 2 :=
    calc (1024 * sB) ^ 2 + (1024 * cA - cB * sA) ^ 2 + (cB * cA + 1024 * sA) ^ 2
        = 1048576 * sB ^ 2 + (1048576 + cB ^ 2) * (cA ^ 2 + sA ^ 2) := by ring
      _ ≤ 1051650 * sB ^ 2 + (1048576 + cB ^ 2) * 1051650 := by
          have hturned := mul_le_mul_of_nonneg_left hA.sq_le
            (show 0 ≤ 1048576 + cB ^ 2 by positivity)
          linarith [sq_nonneg sB]
      _ ≤ 2 * 1051650 ^ 2 := by linarith [hB.sq_le]
  have hdot := sq_dot₃_le (cj * ci) (cj * si) (1024 * sj) (1024 * sB) (1024 * cA - cB * sA)
    (cB * cA + 1024 * sA)
  have hprod := mul_le_mul hn hv (by positivity) (by positivity)
  exact (abs_le.mp (abs_le_of_sq_le_sq ((neg_sq _).trans_le (hdot.trans (hprod.trans
    (by norm_num)))) (by norm_num : (0 : Int) ≤ 1565000000000))).2

/-- The brightness is an index of the string. -/
theorem lum_le (hA : UnitPair cA sA) (hB : UnitPair cB sB) (hj : UnitPair cj sj)
    (hi : UnitPair ci si) :
    ((-cA * (cj * si / 2 ^ 10) -
        cB * (-sA * (cj * si / 2 ^ 10) / 2 ^ 10 + cA * sj / 2 ^ 10) -
        ci * (cj * sB / 2 ^ 10)) / 2 ^ 10 - sA * sj / 2 ^ 10) / 2 ^ 7 ≤ 11 := by
  obtain ⟨e₇, h₇, h₇', hx7⟩ := exists_rest (cj * si)
  generalize cj * si / 2 ^ 10 = x7 at *
  obtain ⟨e₀, h₀, h₀', hx⟩ := exists_rest (-sA * x7)
  obtain ⟨e₂, h₂, h₂', hx2⟩ := exists_rest (cA * sj)
  obtain ⟨e₃, h₃, h₃', hx3⟩ := exists_rest (cj * sB)
  obtain ⟨e₅, h₅, h₅', hx5⟩ := exists_rest (sA * sj)
  generalize -sA * x7 / 2 ^ 10 = w at *
  generalize cA * sj / 2 ^ 10 = x2 at *
  generalize cj * sB / 2 ^ 10 = t at *
  generalize sA * sj / 2 ^ 10 = x5 at *
  have hlight := light_le hA hB hj hi
  -- the rests of all shifts together are small against the light
  have hrests : 1024 * (cA * e₇) - cB * sA * e₇ + 1024 * (cB * (e₀ + e₂)) + 1024 * (ci * e₃) +
      1048576 * e₅ ≤ 7000000000 := by
    have hcA := mul_le_mul hA.bounded.high h₇' h₇ (by norm_num)
    have hcB := mul_le_mul hB.bounded.high (show e₀ + e₂ ≤ 2046 by linarith)
      (by linarith) (by norm_num)
    have hci := mul_le_mul hi.bounded.high h₃' h₃ (by norm_num)
    have hcross := mul_le_mul
      (((hB.bounded.mul hA.swap.bounded (by norm_num)).neg (by norm_num)).high) h₇' h₇
      (by norm_num)
    linarith
  have hscaled : 1048576 * (-cA * x7 - cB * (w + x2) - ci * t) - 1073741824 * x5 =
      -(cj * ci * (1024 * sB) + cj * si * (1024 * cA - cB * sA) +
        1024 * sj * (cB * cA + 1024 * sA)) +
      (1024 * (cA * e₇) - cB * sA * e₇ + 1024 * (cB * (e₀ + e₂)) + 1024 * (ci * e₃) +
        1048576 * e₅) := by
    linear_combination (-1024 * cA + cB * sA) * hx7 - 1024 * cB * hx - 1024 * cB * hx2 -
      1024 * ci * hx3 - 1048576 * hx5
  generalize -cA * x7 - cB * (w + x2) - ci * t = p at *
  have hp : p < 1024 * (1536 + x5) := by linarith
  have hpow : (2 : Int) ^ 10 = 1024 ∧ (2 : Int) ^ 7 = 128 := by norm_num
  rw [hpow.1, hpow.2]
  omega

/-- The depth of a point against the middle of the donut. -/
theorem depth_bounds (hA : UnitPair cA sA) (hj : UnitPair cj sj) {x3 : Int}
    (hx3 : -3077 ≤ x3 ∧ x3 ≤ 3077) :
    -107 ≤ (1024 * (sA * sj / 2 ^ 10) + cA * x3) / 2 ^ 15 ∧
      (1024 * (sA * sj / 2 ^ 10) + cA * x3) / 2 ^ 15 ≤ 107 := by
  obtain ⟨e, he, he', hx5⟩ := exists_rest (sA * sj)
  have hdot := sq_dot_le sA cA sj x3
  have hsq3 : x3 ^ 2 ≤ 3077 ^ 2 := by
    rw [← sq_abs]
    exact pow_le_pow_left₀ (abs_nonneg _) (abs_le.mpr hx3) 2
  have hprod : (sA ^ 2 + cA ^ 2) * (sj ^ 2 + x3 ^ 2) ≤ 1051650 * (1051650 + 3077 ^ 2) :=
    mul_le_mul hA.swap.sq_le (by linarith [hj.sq_le, sq_nonneg cj]) (by positivity)
      (by norm_num)
  obtain ⟨hlow, hhigh⟩ := abs_le.mp (abs_le_of_sq_le_sq (hdot.trans (hprod.trans
    (by norm_num : (1051650 : Int) * (1051650 + 3077 ^ 2) ≤ 3400000 ^ 2))) (by norm_num))
  have hpow : (2 : Int) ^ 15 = 32768 := by norm_num
  rw [hx5, hpow]
  omega

/-- A round of the inner loop is defined. -/
theorem dot_spec (hA : UnitPair cA sA) (hB : UnitPair cB sB) (hj : UnitPair cj sj)
    (hi : UnitPair ci si) :
    ∃ d, dot (.of sA) (.of cA) (.of sB) (.of cB) (.of sj) (.of cj) (.of si) (.of ci) = some d ∧
      d.o = d.x + 80 * d.y ∧ d.lum ≤ 11 ∧ d.zz < 127 ∧
      d.zz = (1024 * (sA * sj / 2 ^ 10) + cA * (si * (cj + 2048) / 2 ^ 10)) / 2 ^ 15 := by
  have h1 : CInt.Bounded 1 1 1 := .const 1
  have h1024 : CInt.Bounded 1024 1024 1024 := .const 1024
  have hk2 : CInt.Bounded (5120 * 1024) 5242880 5242880 :=
    (CInt.Bounded.const 5120).mul h1024 (by norm_num)
  have hx0 := (h1.mul hj.bounded (by norm_num)).add (.const 2048) (by norm_num)
  have hx1 := (hi.bounded.mul hx0 (by norm_num)).shiftRight 10
  have hx2 := (hA.bounded.mul hj.swap.bounded (by norm_num)).shiftRight 10
  have hx3 := (hi.swap.bounded.mul hx0 (by norm_num)).shiftRight 10
  have hx4 := (h1.mul hx2 (by norm_num)).sub
    ((hA.swap.bounded.mul hx3 (by norm_num)).shiftRight 10) (by norm_num)
  have hx5 := (hA.swap.bounded.mul hj.swap.bounded (by norm_num)).shiftRight 10
  have hx6 := (hk2.add ((h1.mul h1024 (by norm_num)).mul hx5 (by norm_num)) (by norm_num)).add
    (hA.bounded.mul hx3 (by norm_num)) (by norm_num)
  have hx7 := (hj.bounded.mul hi.swap.bounded (by norm_num)).shiftRight 10
  have hfar : 1000000 ≤ 5242880 + 1 * 1024 * (sA * sj / 2 ^ 10) +
      cA * (si * (1 * cj + (2048 : Nat)) / 2 ^ 10) := by
    have hx5' := ((h1.mul h1024 (by norm_num)).mul hx5 (by norm_num)).low
    have hx3' := (hA.bounded.mul hx3 (by norm_num)).low
    norm_num at hx5' hx3' ⊢
    linarith
  have hx := (CInt.Bounded.const 40).add (((CInt.Bounded.const 30).mul
    ((hB.bounded.mul hx1 (by norm_num)).sub (hB.swap.bounded.mul hx4 (by norm_num))
      (by norm_num)) (by norm_num)).div hx6.value (by norm_num) hfar (by norm_num)) (by norm_num)
  have hy := (CInt.Bounded.const 12).add (((CInt.Bounded.const 15).mul
    ((hB.bounded.mul hx4 (by norm_num)).add (hB.swap.bounded.mul hx1 (by norm_num))
      (by norm_num)) (by norm_num)).div hx6.value (by norm_num) hfar (by norm_num)) (by norm_num)
  have hlum := (((((hA.bounded.neg (by norm_num)).mul hx7 (by norm_num)).sub
    (hB.bounded.mul ((((hA.swap.bounded.neg (by norm_num)).mul hx7 (by norm_num)).shiftRight 10).add
      hx2 (by norm_num)) (by norm_num)) (by norm_num)).sub
    (hi.bounded.mul ((hj.bounded.mul hB.swap.bounded (by norm_num)).shiftRight 10) (by norm_num))
      (by norm_num)).shiftRight 10).sub hx5 (by norm_num)
  have hlum' := hlum.shiftRight 7
  have hdepth := (hx6.sub hk2 (by norm_num)).shiftRight 15
  have ho := hx.add ((CInt.Bounded.const 80).mul hy (by norm_num)) (by norm_num)
  have hzz : Int.bmod ((5242880 + 1 * 1024 * (sA * sj / 2 ^ 10) +
      cA * (si * (1 * cj + (2048 : Nat)) / 2 ^ 10) - 5242880) / 2 ^ 15) (2 ^ 8) =
        (1024 * (sA * sj / 2 ^ 10) + cA * (si * (cj + 2048) / 2 ^ 10)) / 2 ^ 15 ∧
      (1024 * (sA * sj / 2 ^ 10) + cA * (si * (cj + 2048) / 2 ^ 10)) / 2 ^ 15 < 127 := by
    have hx3' : -3077 ≤ si * (cj + 2048) / 2 ^ 10 ∧ si * (cj + 2048) / 2 ^ 10 ≤ 3077 := by
      have hlow := hx3.low
      have hhigh := hx3.high
      norm_num at hlow hhigh ⊢
      exact ⟨hlow, hhigh⟩
    have hbound := depth_bounds hA hj hx3'
    have hsame : (5242880 + 1 * 1024 * (sA * sj / 2 ^ 10) +
        cA * (si * (1 * cj + (2048 : Nat)) / 2 ^ 10) - 5242880) =
          1024 * (sA * sj / 2 ^ 10) + cA * (si * (cj + 2048) / 2 ^ 10) := by
      rw [one_mul, one_mul]
      push_cast
      ring
    rw [hsame]
    exact ⟨Int.bmod_eq_of_le (by omega) (by omega), by omega⟩
  apply Exists.intro
  apply And.intro
  · unfold dot
    dsimp only
    rw [ho.value, hx.value, hy.value, hlum'.value, hdepth.value]
    rfl
  · exact ⟨rfl, lum_le hA hB hj hi, hzz.1.trans_lt hzz.2, hzz.1⟩

end Dot

end DonutOS.Kernel
