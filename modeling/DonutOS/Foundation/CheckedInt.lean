import Mathlib.Algebra.Group.Int.Defs
import Mathlib.Algebra.Group.Nat.Defs
import Mathlib.Algebra.Order.Ring.Abs
import Mathlib.Algebra.Order.Ring.Int
import Mathlib.Tactic.Linarith

set_option autoImplicit false

/-!
# Foundation: a signed 32-bit integer whose overflow is undefined

`CInt` is the `int` of C.  An operation has no value when the exact result leaves the
range, when a division is by zero, or when an operand has none.  Expressions are
written with the operators of the source; a division rounds towards zero and a shift to
the right towards minus infinity.
-/

namespace DonutOS.Foundation

/-- The values of an `int`. -/
def InInt (x : Int) : Prop := -2 ^ 31 ≤ x ∧ x < 2 ^ 31

instance (x : Int) : Decidable (InInt x) := inferInstanceAs (Decidable (_ ∧ _))

/-- An `int`, or none after an operation that is undefined. -/
structure CInt where
  val : Option Int
  deriving DecidableEq

namespace CInt

/-- A defined value. -/
def of (x : Int) : CInt := ⟨some x⟩

/-- The result of an operation. -/
def checked (x : Int) : CInt := ⟨if InInt x then some x else none⟩

/-- An operation on two operands. -/
def map₂ (f : Int → Int → CInt) (x y : CInt) : CInt :=
  match x.val, y.val with
  | some x, some y => f x y
  | _, _ => ⟨none⟩

instance (n : Nat) : OfNat CInt n := ⟨of n⟩

instance : Add CInt := ⟨map₂ fun x y => checked (x + y)⟩

instance : Sub CInt := ⟨map₂ fun x y => checked (x - y)⟩

instance : Mul CInt := ⟨map₂ fun x y => checked (x * y)⟩

instance : Neg CInt := ⟨fun x => 0 - x⟩

instance : Div CInt := ⟨map₂ fun x y => if y = 0 then ⟨none⟩ else checked (x.tdiv y)⟩

instance : Mod CInt :=
  ⟨map₂ fun x y => if y = 0 ∨ ¬InInt (x.tdiv y) then ⟨none⟩ else of (x.tmod y)⟩

instance : HShiftRight CInt Nat CInt := ⟨fun x n => ⟨x.val.map fun a : Int => a >>> n⟩⟩

@[simp] theorem of_inj {x y : Int} : of x = of y ↔ x = y := by
  constructor
  · intro h
    exact Option.some.inj (congrArg val h)
  · rintro rfl
    rfl

theorem checked_eq {x : Int} (h : InInt x) : checked x = of x :=
  congrArg CInt.mk (if_pos h)

theorem of_add {x y : Int} (h : InInt (x + y)) : of x + of y = of (x + y) := checked_eq h

theorem of_sub {x y : Int} (h : InInt (x - y)) : of x - of y = of (x - y) := checked_eq h

theorem of_mul {x y : Int} (h : InInt (x * y)) : of x * of y = of (x * y) := checked_eq h

theorem of_neg {x : Int} (h : InInt (-x)) : -of x = of (-x) := by
  have hsub : InInt (0 - x) := by rwa [Int.zero_sub]
  exact (of_sub hsub).trans (congrArg of (Int.zero_sub x))

theorem of_div {x y : Int} (hy : y ≠ 0) (h : InInt (x.tdiv y)) :
    of x / of y = of (x.tdiv y) := (if_neg hy).trans (checked_eq h)

theorem inInt_tdiv {x y : Int} (hx : InInt x) (hy : 0 < y) : InInt (x.tdiv y) := by
  obtain ⟨hlow, hhigh⟩ := hx
  rcases le_or_gt 0 x with hpos | hneg
  · rw [Int.tdiv_eq_ediv_of_nonneg hpos]
    have hnonneg := Int.ediv_nonneg hpos hy.le
    have hle := Int.ediv_le_self y hpos
    exact ⟨by linarith, by linarith⟩
  · have hflip : x.tdiv y = -((-x) / y) := by
      rw [← Int.tdiv_eq_ediv_of_nonneg (show 0 ≤ -x by linarith), Int.neg_tdiv, neg_neg]
    have hnonneg := Int.ediv_nonneg (show 0 ≤ -x by linarith) hy.le
    have hle := Int.ediv_le_self y (show 0 ≤ -x by linarith)
    rw [hflip]
    exact ⟨by linarith, by linarith⟩

theorem of_mod {x y : Int} (hx : InInt x) (hy : 0 < y) : of x % of y = of (x.tmod y) :=
  if_neg (not_or.mpr ⟨hy.ne', not_not.mpr (inInt_tdiv hx hy)⟩)

theorem of_shiftRight (x : Int) (n : Nat) : of x >>> n = of (x / 2 ^ n) := by
  have hshift : x >>> n = x / 2 ^ n := by
    rw [Int.shiftRight_eq_div_pow, Int.natCast_pow]
    rfl
  exact congrArg of hshift

/-! ## Bounds -/

/-- The operation is defined, its value is `x`, and `x` is at most `b` either way. -/
structure Bounded (c : CInt) (x b : Int) : Prop where
  value : c = of x
  low : -b ≤ x
  high : x ≤ b

namespace Bounded

variable {c d : CInt} {x y b e : Int}

theorem mono (h : Bounded c x b) (hb : b ≤ e) : Bounded c x e :=
  ⟨h.value, by linarith [h.low], by linarith [h.high]⟩

theorem const (n : Nat) : Bounded (OfNat.ofNat n) n n :=
  ⟨rfl, by omega, le_refl _⟩

theorem add (h : Bounded c x b) (h' : Bounded d y e) (hb : b + e < 2 ^ 31) :
    Bounded (c + d) (x + y) (b + e) := by
  obtain ⟨rfl, hlow, hhigh⟩ := h
  obtain ⟨rfl, hlow', hhigh'⟩ := h'
  have hsum : -(b + e) ≤ x + y ∧ x + y ≤ b + e := by constructor <;> linarith
  exact ⟨of_add ⟨by linarith, by linarith⟩, hsum.1, hsum.2⟩

theorem sub (h : Bounded c x b) (h' : Bounded d y e) (hb : b + e < 2 ^ 31) :
    Bounded (c - d) (x - y) (b + e) := by
  obtain ⟨rfl, hlow, hhigh⟩ := h
  obtain ⟨rfl, hlow', hhigh'⟩ := h'
  have hdiff : -(b + e) ≤ x - y ∧ x - y ≤ b + e := by constructor <;> linarith
  exact ⟨of_sub ⟨by linarith, by linarith⟩, hdiff.1, hdiff.2⟩

theorem neg (h : Bounded c x b) (hb : b < 2 ^ 31) : Bounded (-c) (-x) b := by
  obtain ⟨rfl, hlow, hhigh⟩ := h
  exact ⟨of_neg ⟨by linarith, by linarith⟩, by linarith, by linarith⟩

theorem mul (h : Bounded c x b) (h' : Bounded d y e) (hb : b * e < 2 ^ 31) :
    Bounded (c * d) (x * y) (b * e) := by
  obtain ⟨rfl, hlow, hhigh⟩ := h
  obtain ⟨rfl, hlow', hhigh'⟩ := h'
  have habs : |x * y| ≤ b * e := by
    rw [abs_mul]
    exact mul_le_mul (abs_le.mpr ⟨hlow, hhigh⟩) (abs_le.mpr ⟨hlow', hhigh'⟩) (abs_nonneg _)
      (by linarith)
  obtain ⟨hl, hh⟩ := abs_le.mp habs
  exact ⟨of_mul ⟨by linarith, by linarith⟩, hl, hh⟩

theorem shiftRight (h : Bounded c x b) (n : Nat) :
    Bounded (c >>> n) (x / 2 ^ n) (b / 2 ^ n + 1) := by
  obtain ⟨rfl, hlow, hhigh⟩ := h
  have hpos : (0 : Int) < 2 ^ n := by positivity
  refine ⟨of_shiftRight x n, ?_, ?_⟩
  · rw [Int.le_ediv_iff_mul_le hpos]
    have hb := Int.lt_ediv_add_one_mul_self b hpos
    linarith
  · have hle := Int.ediv_le_ediv hpos hhigh
    linarith

theorem tdiv_bounds {lo : Int} (hx : 0 ≤ x) (hb : x ≤ b) (hlo : 0 < lo) (hy : lo ≤ y) :
    0 ≤ x.tdiv y ∧ x.tdiv y ≤ b / lo := by
  rw [Int.tdiv_eq_ediv_of_nonneg hx]
  have hpos : 0 < y := by linarith
  have hquot := Int.ediv_nonneg hx hpos.le
  refine ⟨hquot, (Int.le_ediv_iff_mul_le hlo).mpr ?_⟩
  calc x / y * lo ≤ x / y * y := mul_le_mul_of_nonneg_left hy hquot
    _ ≤ x := Int.ediv_mul_le x hpos.ne'
    _ ≤ b := hb

/-- A quotient whose divisor is known to be large. -/
theorem div (h : Bounded c x b) (h' : d = of y) {lo : Int} (hlo : 0 < lo) (hy : lo ≤ y)
    (hb : b / lo < 2 ^ 31) : Bounded (c / d) (x.tdiv y) (b / lo) := by
  obtain ⟨rfl, hlow, hhigh⟩ := h
  subst h'
  have hquot : -(b / lo) ≤ x.tdiv y ∧ x.tdiv y ≤ b / lo := by
    rcases le_or_gt 0 x with hx | hx
    · obtain ⟨hl, hh⟩ := tdiv_bounds hx hhigh hlo hy
      constructor <;> linarith
    · obtain ⟨hl, hh⟩ := tdiv_bounds (show 0 ≤ -x by linarith) (show -x ≤ b by linarith) hlo hy
      rw [Int.neg_tdiv] at hl hh
      constructor <;> linarith
  obtain ⟨hl, hh⟩ := hquot
  exact ⟨of_div (by linarith) ⟨by linarith, by linarith⟩, hl, hh⟩

end Bounded

end CInt

end DonutOS.Foundation
