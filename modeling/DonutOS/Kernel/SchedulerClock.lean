import DonutOS.Kernel.CtxRuns
import Mathlib.Logic.Function.Iterate

set_option autoImplicit false

/-!
# Kernel: the clock of `scheduler` (`kernel/src/ctx.c`)

`scheduler` adds the quantum to the tick of the last switch in 32 bits, and compares
the sum with the counter, which wraps too.  The guard is right as long as both sums
wrap or neither does.
-/

namespace DonutOS.Kernel

open DonutOS.Foundation

/-- What `timer_handler` does to the counter. -/
def nextTick (ticks : Nat) : Nat := (ticks + 1) % 2 ^ 32

/-- `k` calls of `timer_handler` add `k` to the counter, modulo `2 ^ 32`. -/
theorem ticks_iterate {last : Nat} (hlast : last < 2 ^ 32) (k : Nat) :
    nextTick^[k] last = (last + k) % 2 ^ 32 := by
  induction k with
  | zero => exact (Nat.mod_eq_of_lt hlast).symm
  | succ k ih =>
      rw [Function.iterate_succ_apply', ih, nextTick, Nat.mod_add_mod]
      rfl

/-- The globals as a call of `scheduler` finds them `k` ticks after the last
switch. -/
def Ctx.elapsed (c : Ctx) (k lock : Nat) : Ctx :=
  c.enter (nextTick^[k] c.lastTicks) true lock

section Guard

variable {c : Ctx} {k : Nat} (lock : Nat)

theorem due_elapsed_iff (hlast : c.lastTicks < 2 ^ 32) :
    Due (c.elapsed k lock) ↔
      (c.lastTicks + quantum) % 2 ^ 32 < (c.lastTicks + k) % 2 ^ 32 := by
  rw [Ctx.elapsed, ticks_iterate hlast]
  exact and_iff_right rfl

/-- Only the tick plus the quantum wraps: the quantum counts as expired at once. -/
theorem due_of_quantum_wraps (hlast : c.lastTicks < 2 ^ 32)
    (hwrap : 2 ^ 32 ≤ c.lastTicks + quantum) (hk : c.lastTicks + k < 2 ^ 32) :
    Due (c.elapsed k lock) := by
  rw [due_elapsed_iff lock hlast, Nat.mod_eq_of_lt hk]
  unfold quantum at *
  omega

/-- Only the counter wraps: the quantum does not count as expired. -/
theorem not_due_of_ticks_wrap (hlast : c.lastTicks < 2 ^ 32)
    (hquantum : c.lastTicks + quantum < 2 ^ 32) (hwrap : 2 ^ 32 ≤ c.lastTicks + k)
    (hk : k < 2 ^ 31) : ¬ Due (c.elapsed k lock) := by
  rw [due_elapsed_iff lock hlast, Nat.mod_eq_of_lt hquantum]
  unfold quantum at *
  omega

/-- The guard tells whether more than a quantum has passed just when the counter wraps
with the sum it is compared to. -/
theorem due_iff_quantum_lt_iff (hlast : c.lastTicks < 2 ^ 32) (hk : k < 2 ^ 31) :
    (Due (c.elapsed k lock) ↔ quantum < k) ↔
      (c.lastTicks + k < 2 ^ 32 ↔ c.lastTicks + quantum < 2 ^ 32) := by
  by_cases hquantum : c.lastTicks + quantum < 2 ^ 32
  · by_cases hticks : c.lastTicks + k < 2 ^ 32
    · rw [due_elapsed_iff lock hlast, Nat.mod_eq_of_lt hquantum, Nat.mod_eq_of_lt hticks]
      exact iff_of_true Nat.add_lt_add_iff_left (iff_of_true hticks hquantum)
    · have hdue := not_due_of_ticks_wrap lock hlast hquantum (Nat.le_of_not_lt hticks) hk
      have hlate : quantum < k := by omega
      exact iff_of_false (fun h => hdue (h.mpr hlate)) fun h => hticks (h.mpr hquantum)
  · by_cases hticks : c.lastTicks + k < 2 ^ 32
    · have hdue := due_of_quantum_wraps lock hlast (Nat.le_of_not_lt hquantum) hticks
      have hearly : ¬ quantum < k := by omega
      exact iff_of_false (fun h => hearly (h.mp hdue)) fun h => hquantum (h.mp hticks)
    · rw [due_elapsed_iff lock hlast]
      have hsame : (c.lastTicks + quantum) % 2 ^ 32 < (c.lastTicks + k) % 2 ^ 32 ↔
          quantum < k := by
        unfold quantum at *
        omega
      exact iff_of_true hsame (iff_of_false hticks hquantum)

/-- A switch eleven ticks before the counter wraps is the last one: whatever the
counter reads from then on, the guard is false. -/
theorem never_due (hlast : c.lastTicks + quantum + 1 = 2 ^ 32) (on : Bool) {now : Nat}
    (hnow : now < 2 ^ 32) : ¬ Due (c.enter now on lock) := by
  rintro ⟨-, hlt⟩
  have hmod : (c.lastTicks + quantum) % 2 ^ 32 = c.lastTicks + quantum :=
    Nat.mod_eq_of_lt (hlast ▸ Nat.lt_succ_self _)
  have hlt' : c.lastTicks + quantum < now := hmod ▸ hlt
  omega

end Guard

/-- The last switch was twelve ticks ago, five ticks before the counter wrapped, and both
sums have wrapped. -/
theorem due_iff_quantum_lt_iff_wrapped :
    Due (Ctx.elapsed { bootCtx with lastTicks := 2 ^ 32 - 5 } 12 0) ↔ quantum < 12 :=
  (due_iff_quantum_lt_iff (c := { bootCtx with lastTicks := 2 ^ 32 - 5 }) 0 (by decide)
    (by decide)).mpr (by decide)

/-- Ten ticks before the counter wraps, one tick counts as more than a quantum. -/
theorem not_due_iff_quantum_lt :
    ¬ ∀ (c : Ctx) (k lock : Nat), c.lastTicks < 2 ^ 32 → k < 2 ^ 31 →
      (Due (c.elapsed k lock) ↔ quantum < k) := by
  intro hall
  have hguard := hall { bootCtx with lastTicks := 2 ^ 32 - 10 } 1 0 (by decide) (by decide)
  have hdue : Due (Ctx.elapsed { bootCtx with lastTicks := 2 ^ 32 - 10 } 1 0) :=
    due_of_quantum_wraps 0 (by decide) (by decide) (by decide)
  exact absurd (hguard.mp hdue) (by decide)

end DonutOS.Kernel
