import DonutOS.Foundation.Path
import Mathlib.Tactic.Common

set_option autoImplicit false

/-!
# Foundation: a clock that is divided, and a latch for its pulses

Every `period` clocks there is a pulse, which sets a latch.  A handler empties the latch
when it gets to it; a pulse that comes before is lost.  The pulses that were handled count
the clocks, never too many, and none too few if no pulse was lost.
-/

namespace DonutOS.Foundation

/-- The clocks since the last pulse, and the latch. -/
structure PulseTimer where
  period : Nat
  phase : Nat
  pending : Bool
  phase_lt : phase < period

inductive PulseEvent
  | clock
  | handle
  | other
  deriving DecidableEq

namespace PulseTimer

theorem phase_clock_lt {period phase : Nat} (h : phase < period) :
    (if phase + 1 = period then 0 else phase + 1) < period := by
  split <;> omega

/-- One clock. -/
def clock (t : PulseTimer) : PulseTimer where
  period := t.period
  phase := if t.phase + 1 = t.period then 0 else t.phase + 1
  pending := if t.phase + 1 = t.period then true else t.pending
  phase_lt := phase_clock_lt t.phase_lt

inductive Step : PulseTimer → PulseEvent → PulseTimer → Prop
  | clock (t : PulseTimer) : Step t .clock t.clock
  | handle {t : PulseTimer} (hpending : t.pending = true) :
      Step t .handle { t with pending := false }
  | other (t : PulseTimer) : Step t .other t

/-- The pulses handled and the latch, in clocks. -/
def reached (t : PulseTimer) (handled : Nat) : Nat :=
  (handled + t.pending.toNat) * t.period + t.phase

/-- A pulse finds the latch empty. -/
def FindsEmpty (t : PulseTimer) (event : PulseEvent) : Prop :=
  event = .clock → t.phase + 1 = t.period → t.pending = false

theorem reached_clock_le (t : PulseTimer) (handled : Nat) :
    t.clock.reached handled ≤ t.reached handled + 1 := by
  unfold reached clock
  dsimp only
  split
  · next hpulse =>
      have hle : handled + true.toNat ≤ handled + t.pending.toNat + 1 := by
        cases t.pending <;> simp
      have hmul := Nat.mul_le_mul_right t.period hle
      rw [Nat.succ_mul] at hmul
      omega
  · omega

theorem reached_clock_eq {t : PulseTimer} (h : t.FindsEmpty .clock) (handled : Nat) :
    t.clock.reached handled = t.reached handled + 1 := by
  unfold reached clock
  dsimp only
  split
  · next hpulse =>
      rw [h rfl hpulse]
      change (handled + 1) * t.period + 0 = (handled + 0) * t.period + t.phase + 1
      rw [Nat.add_zero, Nat.add_zero, Nat.succ_mul, Nat.add_assoc, hpulse]
      rfl
  · omega

theorem reached_handle {t : PulseTimer} (h : t.pending = true) (handled : Nat) :
    ({ t with pending := false } : PulseTimer).reached (handled + 1) = t.reached handled := by
  unfold reached
  rw [h]
  rfl

/-- The clocks of a run. -/
def clocks (path : List (PulseEvent × PulseTimer)) : Nat := (path.map Prod.fst).count .clock

/-- The pulses that were handled in it. -/
def handled (path : List (PulseEvent × PulseTimer)) : Nat := (path.map Prod.fst).count .handle

section Runs

variable {t : PulseTimer} {path : List (PulseEvent × PulseTimer)}

theorem period_endState (hpath : IsPath Step t path) : (endState t path).period = t.period := by
  induction path generalizing t with
  | nil => rfl
  | cons head rest ih =>
      obtain ⟨event, u⟩ := head
      obtain ⟨hstep, hrest⟩ := hpath
      rw [endState, ih hrest]
      cases hstep with
      | clock => rfl
      | handle _ => rfl
      | other => rfl

theorem clocks_cons (event : PulseEvent) (u : PulseTimer) (rest : List (PulseEvent × PulseTimer)) :
    clocks ((event, u) :: rest) = clocks rest + if event = .clock then 1 else 0 := by
  rw [clocks, List.map_cons, List.count_cons]
  simp [clocks]

theorem handled_cons (event : PulseEvent) (u : PulseTimer) (rest : List (PulseEvent × PulseTimer)) :
    handled ((event, u) :: rest) = handled rest + if event = .handle then 1 else 0 := by
  rw [handled, List.map_cons, List.count_cons]
  simp [handled]

/-- The pulses handled do not run ahead of the clocks. -/
theorem reached_le (hpath : IsPath Step t path) (n : Nat) :
    (endState t path).reached (n + handled path) ≤ t.reached n + clocks path := by
  induction path generalizing t n with
  | nil => exact Nat.le_refl _
  | cons head rest ih =>
      obtain ⟨event, u⟩ := head
      obtain ⟨hstep, hrest⟩ := hpath
      rw [clocks_cons, handled_cons, endState]
      cases hstep with
      | clock =>
          have hclock := t.reached_clock_le n
          have hle := ih hrest n
          rw [if_pos rfl, if_neg (by decide), Nat.add_zero]
          omega
      | handle hpending =>
          have hle := ih hrest (n + 1)
          rw [reached_handle hpending, Nat.add_assoc, Nat.add_comm 1] at hle
          exact hle
      | other => exact ih hrest n

/-- If no pulse is lost, they keep up with them. -/
theorem reached_eq (hpath : IsPath Step t path) (hempty : StepsMeet FindsEmpty t path)
    (n : Nat) :
    (endState t path).reached (n + handled path) = t.reached n + clocks path := by
  induction path generalizing t n with
  | nil => rfl
  | cons head rest ih =>
      obtain ⟨event, u⟩ := head
      obtain ⟨hstep, hrest⟩ := hpath
      obtain ⟨hfinds, hempty⟩ := hempty
      rw [clocks_cons, handled_cons, endState]
      cases hstep with
      | clock =>
          have hclock := reached_clock_eq hfinds n
          have heq := ih hrest hempty n
          rw [if_pos rfl, if_neg (by decide), Nat.add_zero]
          omega
      | handle hpending =>
          have heq := ih hrest hempty (n + 1)
          rw [reached_handle hpending, Nat.add_assoc, Nat.add_comm 1] at heq
          exact heq
      | other => exact ih hrest hempty n

/-- The handled pulses are at most as many as the clocks allow. -/
theorem handled_mul_lt (hpath : IsPath Step t path) :
    handled path * t.period <
      (t.pending.toNat + 1) * t.period + clocks path := by
  have hle := reached_le hpath 0
  have hphase := t.phase_lt
  unfold reached at hle
  rw [period_endState hpath, Nat.zero_add, Nat.zero_add, Nat.add_mul] at hle
  rw [Nat.succ_mul]
  omega

/-- If no pulse is lost, so many clocks have brought so many handled pulses. -/
theorem le_handled {n : Nat} (hpath : IsPath Step t path) (hempty : StepsMeet FindsEmpty t path)
    (hclocks : (n + 1) * t.period ≤ clocks path) :
    n ≤ handled path := by
  have heq := reached_eq hpath hempty 0
  have hphase := (endState t path).phase_lt
  unfold reached at heq
  rw [period_endState hpath] at heq hphase
  rw [Nat.zero_add, Nat.zero_add] at heq
  have hlt : (n + 1) * t.period <
      (handled path + (endState t path).pending.toNat + 1) * t.period := by
    rw [Nat.succ_mul (_ + _)]
    omega
  have hpending := Bool.toNat_le (endState t path).pending
  have hn := Nat.lt_of_mul_lt_mul_right hlt
  omega

end Runs

end PulseTimer

end DonutOS.Foundation
