import Mathlib.Algebra.Order.Ring.Int
import Mathlib.Algebra.Order.Ring.Abs
import Mathlib.Tactic.Linarith
import Mathlib.Tactic.Ring

set_option autoImplicit false

/-!
# Foundation: rotation by a small angle in fixed point

A vector of length about `a` turns by the angle whose tangent is `m / q`, without sine
or cosine: one step along the tangent, then one Newton step towards length `a`.  All
divisions round down.  Rounding and the Newton step together never let the square of the
length exceed `a ^ 2 + 3 * a + 2`, however often the vector turns.
-/

namespace DonutOS.Foundation

/-- One turn. -/
def turn (a m q : Int) (p : Int × Int) : Int × Int :=
  let x := p.1 - m * p.2 / q
  let y := p.2 + m * p.1 / q
  let f := (3 * a ^ 2 - x ^ 2 - y ^ 2) / (2 * a)
  (x * f / a, y * f / a)

/-- The square of the length. -/
def lengthSq (p : Int × Int) : Int := p.1 ^ 2 + p.2 ^ 2

/-- What the square of the length never exceeds. -/
def lengthBound (a : Int) : Int := a ^ 2 + 3 * a + 2

/-- A vector no longer than the rotation keeps it. -/
def OnCircle (a : Int) (p : Int × Int) : Prop := lengthSq p ≤ lengthBound a

/-! ## Rounding -/

theorem mul_ediv_bounds (x : Int) {q : Int} (hq : 0 < q) :
    x - q < q * (x / q) ∧ q * (x / q) ≤ x := by
  have hsum := Int.emod_add_mul_ediv x q
  have hlow := Int.emod_nonneg x hq.ne'
  have hhigh := Int.emod_lt_of_pos x hq
  constructor <;> linarith

/-- The square of a rounded product, against the exact one. -/
theorem sq_add_le (x e : Int) : (x + e) ^ 2 ≤ 2 * x ^ 2 + 2 * e ^ 2 := by
  linarith [sq_nonneg (x - e), add_sq x e, sub_sq x e]

/-- The inequality of Cauchy and Schwarz in the plane. -/
theorem sq_dot_le (x₁ x₂ y₁ y₂ : Int) :
    (x₁ * y₁ + x₂ * y₂) ^ 2 ≤ (x₁ ^ 2 + x₂ ^ 2) * (y₁ ^ 2 + y₂ ^ 2) := by
  have hcross := sq_nonneg (x₁ * y₂ - x₂ * y₁)
  have hlagrange : (x₁ ^ 2 + x₂ ^ 2) * (y₁ ^ 2 + y₂ ^ 2) =
      (x₁ * y₁ + x₂ * y₂) ^ 2 + (x₁ * y₂ - x₂ * y₁) ^ 2 := by ring
  linarith

/-- The inequality of Cauchy and Schwarz in space. -/
theorem sq_dot₃_le (x₁ x₂ x₃ y₁ y₂ y₃ : Int) :
    (x₁ * y₁ + x₂ * y₂ + x₃ * y₃) ^ 2 ≤
      (x₁ ^ 2 + x₂ ^ 2 + x₃ ^ 2) * (y₁ ^ 2 + y₂ ^ 2 + y₃ ^ 2) := by
  have h₁ := sq_nonneg (x₁ * y₂ - x₂ * y₁)
  have h₂ := sq_nonneg (x₁ * y₃ - x₃ * y₁)
  have h₃ := sq_nonneg (x₂ * y₃ - x₃ * y₂)
  have hlagrange : (x₁ ^ 2 + x₂ ^ 2 + x₃ ^ 2) * (y₁ ^ 2 + y₂ ^ 2 + y₃ ^ 2) =
      (x₁ * y₁ + x₂ * y₂ + x₃ * y₃) ^ 2 + (x₁ * y₂ - x₂ * y₁) ^ 2 +
        (x₁ * y₃ - x₃ * y₁) ^ 2 + (x₂ * y₃ - x₃ * y₂) ^ 2 := by ring
  linarith

/-! ## One turn -/

section Turn

variable {a m q : Int}

/-- The step along the tangent leaves the vector shorter than the root of three times
its length, so that the Newton step does not turn it around. -/
theorem lengthSq_tangent_le (ha : 17 ≤ a) (hm : 0 ≤ m) (hmq : 2 * m ≤ q) (hq : 0 < q)
    {p : Int × Int} (hp : OnCircle a p) :
    lengthSq (p.1 - m * p.2 / q, p.2 + m * p.1 / q) ≤ 3 * a ^ 2 := by
  obtain ⟨hlow₁, hhigh₁⟩ := mul_ediv_bounds (m * p.2) hq
  obtain ⟨hlow₂, hhigh₂⟩ := mul_ediv_bounds (m * p.1) hq
  obtain ⟨x, y⟩ := p
  simp only [OnCircle, lengthSq, lengthBound] at *
  generalize m * y / q = s at *
  generalize m * x / q = t at *
  -- `e₁` and `e₂` are what the roundings lose
  obtain ⟨e₁, he₁⟩ : ∃ e, q * s = m * y - e := ⟨m * y - q * s, by ring⟩
  obtain ⟨e₂, he₂⟩ : ∃ e, q * t = m * x - e := ⟨m * x - q * t, by ring⟩
  have hsq₁ : e₁ ^ 2 ≤ q ^ 2 := pow_le_pow_left₀ (by linarith) (by linarith) 2
  have hsq₂ : e₂ ^ 2 ≤ q ^ 2 := pow_le_pow_left₀ (by linarith) (by linarith) 2
  have hx : q * (x - s) = (q * x - m * y) + e₁ := by rw [mul_sub, he₁]; ring
  have hy : q * (y + t) = (q * y + m * x) + -e₂ := by rw [mul_add, he₂]; ring
  have hmq4 : 4 * m ^ 2 ≤ q ^ 2 := by
    have hsq := pow_le_pow_left₀ (by linarith) hmq 2
    linarith [mul_pow 2 m 2]
  have hscaled : q ^ 2 * ((x - s) ^ 2 + (y + t) ^ 2) ≤ q ^ 2 * (3 * a ^ 2) := by
    have h₁ := sq_add_le (q * x - m * y) e₁
    have h₂ := sq_add_le (q * y + m * x) (-e₂)
    have hturned : (q * x - m * y) ^ 2 + (q * y + m * x) ^ 2 =
        (q ^ 2 + m ^ 2) * (x ^ 2 + y ^ 2) := by ring
    have hgrown : (q ^ 2 + m ^ 2) * (x ^ 2 + y ^ 2) ≤
        (q ^ 2 + m ^ 2) * (a ^ 2 + 3 * a + 2) :=
      mul_le_mul_of_nonneg_left hp (by positivity)
    have hlarge : 17 * a ≤ a * a := mul_le_mul_of_nonneg_right ha (by linarith)
    have hroom : q ^ 2 * (5 * (a ^ 2 + 3 * a + 2) + 8) ≤ q ^ 2 * (6 * a ^ 2) :=
      mul_le_mul_of_nonneg_left (by linarith [sq a]) (sq_nonneg q)
    have hfifth : 4 * (q ^ 2 + m ^ 2) * (a ^ 2 + 3 * a + 2) ≤
        5 * q ^ 2 * (a ^ 2 + 3 * a + 2) :=
      mul_le_mul_of_nonneg_right (by linarith) (by positivity)
    calc q ^ 2 * ((x - s) ^ 2 + (y + t) ^ 2)
        = (q * (x - s)) ^ 2 + (q * (y + t)) ^ 2 := by ring
      _ ≤ 2 * ((q ^ 2 + m ^ 2) * (a ^ 2 + 3 * a + 2)) + 4 * q ^ 2 := by
          rw [hx, hy]
          linarith [neg_sq e₂]
      _ ≤ q ^ 2 * (3 * a ^ 2) := by linarith
  exact le_of_mul_le_mul_left hscaled (by positivity)

/-- The factor of the Newton step never makes the vector longer than `a`, since
`(3 * a ^ 2 - p) ^ 2 * p` is greatest at `p = a ^ 2`. -/
theorem lengthSq_factor_le (ha : 0 < a) {p : Int} (hnonneg : 0 ≤ p) (hp : p ≤ 3 * a ^ 2) :
    ((3 * a ^ 2 - p) / (2 * a)) ^ 2 * p ≤ a ^ 4 := by
  obtain ⟨-, hhigh⟩ := mul_ediv_bounds (3 * a ^ 2 - p) (show 0 < 2 * a by linarith)
  have hf : 0 ≤ (3 * a ^ 2 - p) / (2 * a) := Int.ediv_nonneg (by linarith) (by linarith)
  generalize (3 * a ^ 2 - p) / (2 * a) = f at *
  have hsq : (2 * a * f) ^ 2 ≤ (3 * a ^ 2 - p) ^ 2 :=
    pow_le_pow_left₀ (by positivity) hhigh 2
  have hcubic : (3 * a ^ 2 - p) ^ 2 * p = 4 * a ^ 6 - (a ^ 2 - p) ^ 2 * (4 * a ^ 2 - p) := by
    ring
  have hslack : 0 ≤ (a ^ 2 - p) ^ 2 * (4 * a ^ 2 - p) :=
    mul_nonneg (sq_nonneg _) (by linarith [sq_nonneg a])
  have hscaled : 4 * a ^ 2 * (f ^ 2 * p) ≤ 4 * a ^ 2 * a ^ 4 :=
    calc 4 * a ^ 2 * (f ^ 2 * p) = (2 * a * f) ^ 2 * p := by ring
      _ ≤ (3 * a ^ 2 - p) ^ 2 * p := mul_le_mul_of_nonneg_right hsq hnonneg
      _ ≤ 4 * a ^ 6 := by linarith
      _ = 4 * a ^ 2 * a ^ 4 := by ring
  exact le_of_mul_le_mul_left hscaled (by positivity)

/-- Rounding both coordinates down adds at most `3 * a + 2`. -/
theorem onCircle_of_round (ha : 0 < a) {u v : Int} (huv : u ^ 2 + v ^ 2 ≤ a ^ 4) :
    OnCircle a (u / a, v / a) := by
  obtain ⟨hlow₁, hhigh₁⟩ := mul_ediv_bounds u ha
  obtain ⟨hlow₂, hhigh₂⟩ := mul_ediv_bounds v ha
  simp only [OnCircle, lengthSq, lengthBound]
  generalize u / a = x at *
  generalize v / a = y at *
  obtain ⟨e₁, rfl⟩ : ∃ e, u = a * x + e := ⟨u - a * x, by ring⟩
  obtain ⟨e₂, rfl⟩ : ∃ e, v = a * y + e := ⟨v - a * y, by ring⟩
  have hsq₁ : e₁ ^ 2 ≤ a ^ 2 := pow_le_pow_left₀ (by linarith) (by linarith) 2
  have hsq₂ : e₂ ^ 2 ≤ a ^ 2 := pow_le_pow_left₀ (by linarith) (by linarith) 2
  have hdot := sq_dot_le (a * x + e₁) (a * y + e₂) e₁ e₂
  have hdotBound : (2 * ((a * x + e₁) * e₁ + (a * y + e₂) * e₂)) ^ 2 ≤ (3 * a ^ 3) ^ 2 :=
    calc (2 * ((a * x + e₁) * e₁ + (a * y + e₂) * e₂)) ^ 2
        = 4 * ((a * x + e₁) * e₁ + (a * y + e₂) * e₂) ^ 2 := by ring
      _ ≤ 4 * (a ^ 4 * (2 * a ^ 2)) := by
          have hprod : ((a * x + e₁) ^ 2 + (a * y + e₂) ^ 2) * (e₁ ^ 2 + e₂ ^ 2) ≤
              a ^ 4 * (2 * a ^ 2) :=
            mul_le_mul huv (by linarith) (by positivity) (by positivity)
          linarith
      _ ≤ (3 * a ^ 3) ^ 2 := by
          have hpos : 0 ≤ a ^ 6 := by positivity
          linarith [show 4 * (a ^ 4 * (2 * a ^ 2)) = 8 * a ^ 6 by ring,
            show (3 * a ^ 3) ^ 2 = 9 * a ^ 6 by ring]
  obtain ⟨hlow, -⟩ := abs_le.mp (abs_le_of_sq_le_sq hdotBound (by positivity))
  have hscaled : a ^ 2 * (x ^ 2 + y ^ 2) ≤ a ^ 2 * (a ^ 2 + 3 * a + 2) :=
    calc a ^ 2 * (x ^ 2 + y ^ 2)
        = ((a * x + e₁) ^ 2 + (a * y + e₂) ^ 2) -
            2 * ((a * x + e₁) * e₁ + (a * y + e₂) * e₂) + e₁ ^ 2 + e₂ ^ 2 := by ring
      _ ≤ a ^ 4 + 3 * a ^ 3 + 2 * a ^ 2 := by linarith
      _ = a ^ 2 * (a ^ 2 + 3 * a + 2) := by ring
  exact le_of_mul_le_mul_left hscaled (by positivity)

theorem OnCircle.turn (ha : 17 ≤ a) (hm : 0 ≤ m) (hmq : 2 * m ≤ q) (hq : 0 < q)
    {p : Int × Int} (hp : OnCircle a p) : OnCircle a (Foundation.turn a m q p) := by
  have htangent := lengthSq_tangent_le ha hm hmq hq hp
  unfold lengthSq at htangent
  refine onCircle_of_round (by linarith) ?_
  have hfactor := lengthSq_factor_le (show 0 < a by linarith) (by positivity) htangent
  rw [← sub_sub] at hfactor
  linarith [mul_pow (p.1 - m * p.2 / q) ((3 * a ^ 2 - (p.1 - m * p.2 / q) ^ 2 -
    (p.2 + m * p.1 / q) ^ 2) / (2 * a)) 2]

end Turn

end DonutOS.Foundation
