import Mathlib.Algebra.Group.Int.Defs
import Mathlib.Algebra.Group.Nat.Defs
import Mathlib.Tactic.Common

set_option autoImplicit false

/-!
# Foundation: counted loops

`forLoop body lo n s` is `for (i = lo; i < lo + n; i++) s = body(i, s)`.  A loop
is reasoned about through its invariant rule, never by unfolding it.
-/

namespace DonutOS.Foundation

variable {σ : Type}

/-- `n` rounds of `body`, at the indices `lo, lo + 1, …`. -/
def forLoop (body : Nat → σ → σ) : Nat → Nat → σ → σ
  | _, 0, s => s
  | lo, n + 1, s => forLoop body (lo + 1) n (body lo s)

@[simp] theorem forLoop_zero (body : Nat → σ → σ) (lo : Nat) (s : σ) :
    forLoop body lo 0 s = s := rfl

/-- The invariant rule of a counted loop: `P i` is what holds when the round of
index `i` is about to start. -/
theorem forLoop_invariant (P : Nat → σ → Prop) {f : Nat → σ → σ} :
    ∀ (n lo : Nat) (s : σ), P lo s →
      (∀ i s, lo ≤ i → i < lo + n → P i s → P (i + 1) (f i s)) →
      P (lo + n) (forLoop f lo n s) := by
  intro n
  induction n with
  | zero => intro lo s hs _; exact hs
  | succ n ih =>
      intro lo s hs hf
      have hfirst : P (lo + 1) (f lo s) :=
        hf lo s (Nat.le_refl lo) (by omega) hs
      have hrest := ih (lo + 1) (f lo s) hfirst
        (fun i t hlo hhi => hf i t (by omega) (by omega))
      rw [forLoop, show lo + (n + 1) = lo + 1 + n by omega]
      exact hrest

/-- A counted loop is a fold over its indices. -/
theorem forLoop_eq_foldl (f : Nat → σ → σ) (n lo : Nat) (s : σ) :
    forLoop f lo n s = (List.range' lo n).foldl (fun s i => f i s) s := by
  induction n generalizing lo s with
  | zero => rfl
  | succ n ih =>
      rw [forLoop, ih, List.range'_succ]
      rfl

/-- A loop that also records what each round does. -/
theorem forLoop_logged {β : Type} (f : Nat → σ → σ) (log : Nat → List β) (n lo : Nat)
    (x : σ × List β) :
    forLoop (fun i x => (f i x.1, x.2 ++ log i)) lo n x =
      (forLoop f lo n x.1, x.2 ++ (List.range' lo n).flatMap log) := by
  induction n generalizing lo x with
  | zero => exact Prod.ext rfl (List.append_nil _).symm
  | succ n ih =>
      rw [forLoop, ih, forLoop, List.range'_succ, List.flatMap_cons, List.append_assoc]

/-- Rounds that each take the next `w` numbers. -/
theorem flatMap_range'_range' (a w n lo : Nat) :
    (List.range' lo n).flatMap (fun i => List.range' (a + w * i) w) =
      List.range' (a + w * lo) (w * n) := by
  induction n generalizing lo with
  | zero => rfl
  | succ n ih =>
      rw [List.range'_succ, List.flatMap_cons, ih, Nat.mul_succ w lo, ← Nat.add_assoc,
        List.range'_append_1, Nat.mul_succ, Nat.add_comm w]

/-! ## Loops that count down -/

/-- `n` rounds of `body`, at the indices `hi, hi - 1, …`. -/
def downLoop (body : Nat → σ → σ) : Nat → Nat → σ → σ
  | _, 0, s => s
  | hi, n + 1, s => downLoop body (hi - 1) n (body hi s)

/-- The invariant rule of a loop that counts down: `P i` is what holds when the
rounds of the indices above `i` are done. -/
theorem downLoop_invariant (P : Nat → σ → Prop) {f : Nat → σ → σ} :
    ∀ (n lo : Nat) (s : σ), P (lo + n) s →
      (∀ i s, lo < i → i ≤ lo + n → P i s → P (i - 1) (f i s)) →
      P lo (downLoop f (lo + n) n s) := by
  intro n
  induction n with
  | zero => intro lo s hs _; exact hs
  | succ n ih =>
      intro lo s hs hf
      have hfirst : P (lo + n) (f (lo + (n + 1)) s) :=
        hf (lo + (n + 1)) s (by omega) (Nat.le_refl _) hs
      exact ih lo (f (lo + (n + 1)) s) hfirst fun i t hlo hhi => hf i t hlo (by omega)

end DonutOS.Foundation
