import DonutOS.Foundation.Loop
import Mathlib.Logic.Function.Basic

set_option autoImplicit false

/-!
# Foundation: bitmaps and linear searches

A bitmap is a sequence of words of `w` bits; `hasBit` reads it as a set of
numbers, and setting or clearing a bit, or a range of bits, is adding or
removing those numbers.  `findUp` is the linear search that allocators run over
such a set.
-/

namespace DonutOS.Foundation

variable {w : Nat}

/-- Number `i` is in the set the words spell out. -/
def hasBit (bm : Nat → BitVec w) (i : Nat) : Bool := (bm (i / w)).getLsbD (i % w)

/-- Set bit `i`. -/
def setBit (bm : Nat → BitVec w) (i : Nat) : Nat → BitVec w :=
  Function.update bm (i / w) (bm (i / w) ||| BitVec.twoPow w (i % w))

/-- Clear bit `i`. -/
def clearBit (bm : Nat → BitVec w) (i : Nat) : Nat → BitVec w :=
  Function.update bm (i / w) (bm (i / w) &&& ~~~BitVec.twoPow w (i % w))

/-- Within one word, the bit position determines the number. -/
theorem mod_eq_iff_of_div_eq {i j : Nat} (hword : j / w = i / w) :
    i % w = j % w ↔ j = i := by
  constructor
  · intro hbit
    rw [← Nat.div_add_mod j w, ← Nat.div_add_mod i w, hword, hbit]
  · rintro rfl
    rfl

@[simp] theorem hasBit_setBit (hw : 0 < w) (bm : Nat → BitVec w) (i j : Nat) :
    hasBit (setBit bm i) j = (hasBit bm j || decide (j = i)) := by
  unfold hasBit setBit
  by_cases hword : j / w = i / w
  · rw [hword, Function.update_self, BitVec.getLsbD_or, BitVec.getLsbD_twoPow]
    congr 1
    have hlt : i % w < w := Nat.mod_lt i hw
    simp only [hlt, decide_true, Bool.true_and, decide_eq_decide]
    exact mod_eq_iff_of_div_eq hword
  · have hne : j ≠ i := fun h => hword (h ▸ rfl)
    rw [Function.update_of_ne hword]
    simp [hne]

@[simp] theorem hasBit_clearBit (hw : 0 < w) (bm : Nat → BitVec w) (i j : Nat) :
    hasBit (clearBit bm i) j = (hasBit bm j && decide (j ≠ i)) := by
  unfold hasBit clearBit
  by_cases hword : j / w = i / w
  · have hi : i % w < w := Nat.mod_lt i hw
    have hj : j % w < w := Nat.mod_lt j hw
    rw [hword, Function.update_self, BitVec.getLsbD_and, BitVec.getLsbD_not,
      BitVec.getLsbD_twoPow]
    congr 1
    simp only [hi, hj, decide_true, Bool.true_and, ne_eq, decide_not]
    congr 1
    rw [decide_eq_decide]
    exact mod_eq_iff_of_div_eq hword
  · have hne : j ≠ i := fun h => hword (h ▸ rfl)
    rw [Function.update_of_ne hword]
    simp [hne]

/-- Setting the bits `lo, …, lo + n - 1` adds exactly these numbers. -/
theorem hasBit_setRange (hw : 0 < w) (bm : Nat → BitVec w) (lo n j : Nat) :
    hasBit (forLoop (fun i bm => setBit bm i) lo n bm) j =
      (hasBit bm j || decide (lo ≤ j ∧ j < lo + n)) := by
  refine forLoop_invariant
    (fun i b => hasBit b j = (hasBit bm j || decide (lo ≤ j ∧ j < i))) n lo bm ?_ ?_
  · have hnone : ¬ (lo ≤ j ∧ j < lo) := by omega
    simp [hnone]
  · intro i b hlo hhi hb
    rw [hasBit_setBit hw, hb, Bool.or_assoc, ← Bool.decide_or]
    congr 1
    rw [decide_eq_decide]
    omega

/-- Clearing the bits `lo, …, lo + n - 1` removes exactly these numbers. -/
theorem hasBit_clearRange (hw : 0 < w) (bm : Nat → BitVec w) (lo n j : Nat) :
    hasBit (forLoop (fun i bm => clearBit bm i) lo n bm) j =
      (hasBit bm j && decide (¬ (lo ≤ j ∧ j < lo + n))) := by
  refine forLoop_invariant
    (fun i b => hasBit b j = (hasBit bm j && decide (¬ (lo ≤ j ∧ j < i)))) n lo bm ?_ ?_
  · have hnone : ¬ (lo ≤ j ∧ j < lo) := by omega
    simp [hnone]
  · intro i b hlo hhi hb
    rw [hasBit_clearBit hw, hb, Bool.and_assoc, ← Bool.decide_and]
    congr 1
    rw [decide_eq_decide]
    omega

/-- Zeroing the words `lo, …, lo + n - 1` removes the numbers they hold. -/
theorem hasBit_zeroWords (bm : Nat → BitVec w) (lo n j : Nat) :
    hasBit (forLoop (fun i bm => Function.update bm i 0#w) lo n bm) j =
      (hasBit bm j && decide (¬ (lo ≤ j / w ∧ j / w < lo + n))) := by
  refine forLoop_invariant
    (fun i b => hasBit b j = (hasBit bm j && decide (¬ (lo ≤ j / w ∧ j / w < i)))) n lo bm ?_ ?_
  · have hnone : ¬ (lo ≤ j / w ∧ j / w < lo) := by omega
    simp [hnone]
  · intro i b hlo hhi hb
    by_cases hword : j / w = i
    · have hin : lo ≤ j / w ∧ j / w < i + 1 := by omega
      rw [hasBit, hword, Function.update_self, BitVec.getLsbD_zero, ← hword]
      simp [hin]
    · have hsame : hasBit (Function.update b i 0#w) j = hasBit b j := by
        rw [hasBit, Function.update_of_ne hword, hasBit]
      rw [hsame, hb]
      congr 1
      rw [decide_eq_decide]
      omega

/-! ## Linear search -/

/-- The first of the `n` indices from `lo` on that passes the test. -/
def findUp (test : Nat → Bool) : Nat → Nat → Option Nat
  | 0, _ => none
  | n + 1, lo => if test lo then some lo else findUp test n (lo + 1)

/-- `i` is the least index from `lo` on, and below `hi`, that passes the test. -/
structure IsFirst (test : Nat → Bool) (lo hi i : Nat) : Prop where
  ge : lo ≤ i
  lt : i < hi
  pass : test i = true
  fail_below : ∀ j, lo ≤ j → j < i → test j = false

theorem findUp_eq_some_iff {test : Nat → Bool} {n lo i : Nat} :
    findUp test n lo = some i ↔ IsFirst test lo (lo + n) i := by
  induction n generalizing lo with
  | zero =>
      constructor
      · intro h
        simp [findUp] at h
      · intro h
        have := h.ge
        have := h.lt
        omega
  | succ n ih =>
      unfold findUp
      cases htest : test lo with
      | true =>
          simp only [if_true, Option.some.injEq]
          constructor
          · rintro rfl
            exact ⟨Nat.le_refl _, by omega, htest, fun j h1 h2 => by omega⟩
          · intro h
            by_contra hne
            have hfail := h.fail_below lo (Nat.le_refl _)
              (Nat.lt_of_le_of_ne h.ge hne)
            rw [htest] at hfail
            exact Bool.noConfusion hfail
      | false =>
          simp only [Bool.false_eq_true, if_false]
          rw [ih]
          constructor
          · rintro ⟨hge, hlt, hpass, hfail⟩
            refine ⟨by omega, by omega, hpass, fun j hj hji => ?_⟩
            rcases Nat.eq_or_lt_of_le hj with rfl | hj
            · exact htest
            · exact hfail j hj hji
          · rintro ⟨hge, hlt, hpass, hfail⟩
            have hne : lo ≠ i := by
              rintro rfl
              rw [htest] at hpass
              exact Bool.noConfusion hpass
            exact ⟨by omega, by omega, hpass, fun j hj hji => hfail j (by omega) hji⟩

theorem findUp_eq_none_iff {test : Nat → Bool} {n lo : Nat} :
    findUp test n lo = none ↔ ∀ j, lo ≤ j → j < lo + n → test j = false := by
  induction n generalizing lo with
  | zero => simp only [findUp, true_iff]; intro j h1 h2; omega
  | succ n ih =>
      unfold findUp
      cases htest : test lo with
      | true =>
          simp only [if_true, reduceCtorEq, false_iff, not_forall]
          exact ⟨lo, Nat.le_refl _, by omega, by simp [htest]⟩
      | false =>
          simp only [Bool.false_eq_true, if_false]
          rw [ih]
          constructor
          · intro h j hj hjn
            rcases Nat.eq_or_lt_of_le hj with rfl | hj
            · exact htest
            · exact h j hj (by omega)
          · intro h j hj hjn
            exact h j (by omega) (by omega)

end DonutOS.Foundation
