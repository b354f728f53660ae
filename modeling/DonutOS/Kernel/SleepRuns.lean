import DonutOS.Foundation.PulseTimer
import DonutOS.Kernel.Pit
import DonutOS.Kernel.SchedulerClock

set_option autoImplicit false

/-!
# Kernel: sleeping (`libc/src/time.c`, `kernel/src/timer.c`)

`milisleep` reads the counter of `timer_handler` until it has reached the sum of what it was
and the time.  The timer's clock, its interrupts and the rounds of the loop come in any
order; the scheduler may keep the loop from running for any time.
-/

namespace DonutOS.Kernel

open DonutOS.Foundation

/-- The timer and its interrupt, `ticks`, and the loop with its `stop_time`. -/
structure Sleep where
  timer : PulseTimer
  ticks : Nat
  stopTime : Nat
  returned : Bool

/-- `milisleep` is called: the sum has 32 bits. -/
def milisleepStart (time : Nat) (timer : PulseTimer) (ticks : Nat) : Sleep :=
  ⟨timer, ticks, (ticks + time) % 2 ^ 32, false⟩

inductive SleepEvent
  /-- a clock of the timer -/
  | clock
  /-- `timer_handler` -/
  | tick
  /-- `timer_get() < stop_time` -/
  | test
  deriving DecidableEq

inductive SleepStep : Sleep → SleepEvent → Sleep → Prop
  | clock (s : Sleep) : SleepStep s .clock { s with timer := s.timer.clock }
  | tick {s : Sleep} (hpending : s.timer.pending = true) :
      SleepStep s .tick
        { s with timer := { s.timer with pending := false }, ticks := nextTick s.ticks }
  | test {s : Sleep} (hloop : s.returned = false) :
      SleepStep s .test { s with returned := decide (s.stopTime ≤ s.ticks) }

/-- What the timer sees of it. -/
def SleepEvent.pulse : SleepEvent → PulseEvent
  | .clock => .clock
  | .tick => .handle
  | .test => .other

/-- The run, as the timer sees it. -/
def pulsePath (path : List (SleepEvent × Sleep)) : List (PulseEvent × PulseTimer) :=
  path.map fun step => (step.1.pulse, step.2.timer)

/-- The clocks of a run. -/
def sleepClocks (path : List (SleepEvent × Sleep)) : Nat := PulseTimer.clocks (pulsePath path)

/-- The calls of `timer_handler` in it. -/
def sleepTicks (path : List (SleepEvent × Sleep)) : Nat := PulseTimer.handled (pulsePath path)

section Runs

variable {s : Sleep} {path : List (SleepEvent × Sleep)}

theorem isPath_pulsePath (hpath : IsPath SleepStep s path) :
    IsPath PulseTimer.Step s.timer (pulsePath path) ∧
      endState s.timer (pulsePath path) = (endState s path).timer := by
  induction path generalizing s with
  | nil => exact ⟨trivial, rfl⟩
  | cons head rest ih =>
      obtain ⟨event, t⟩ := head
      obtain ⟨hstep, hrest⟩ := hpath
      obtain ⟨hpulses, hend⟩ := ih hrest
      refine ⟨⟨?_, hpulses⟩, hend⟩
      cases hstep with
      | clock => exact .clock _
      | tick hpending => exact .handle hpending
      | test _ => exact .other _

/-- The counter counts the calls of `timer_handler`; `stop_time` stays. -/
theorem ticks_endState (hpath : IsPath SleepStep s path) (hticks : s.ticks < 2 ^ 32) :
    (endState s path).ticks = (s.ticks + sleepTicks path) % 2 ^ 32 ∧
      (endState s path).stopTime = s.stopTime := by
  induction path generalizing s with
  | nil => exact ⟨(Nat.mod_eq_of_lt hticks).symm, rfl⟩
  | cons head rest ih =>
      obtain ⟨event, t⟩ := head
      obtain ⟨hstep, hrest⟩ := hpath
      have hcount : sleepTicks ((event, t) :: rest) =
          sleepTicks rest + if event.pulse = .handle then 1 else 0 :=
        PulseTimer.handled_cons event.pulse t.timer (pulsePath rest)
      rw [endState, hcount]
      cases hstep with
      | clock => exact ih hrest hticks
      | tick hpending =>
          obtain ⟨hnow, hstop⟩ := ih hrest (Nat.mod_lt _ (by decide))
          refine ⟨?_, hstop⟩
          rw [hnow]
          change (nextTick s.ticks + sleepTicks rest) % 2 ^ 32 =
            (s.ticks + (sleepTicks rest + 1)) % 2 ^ 32
          rw [nextTick, Nat.mod_add_mod]
          congr 1
          omega
      | test _ => exact ih hrest hticks

end Runs

/-! ## When it returns -/

/-- The timer of `timer_init` behind a pulse. -/
def tickTimer (pending : Bool) : PulseTimer := ⟨1193, 0, pending, Nat.succ_pos 1192⟩

section Sleeps

variable {timer : PulseTimer} {ticks time : Nat} {path : List (SleepEvent × Sleep)} {t : Sleep}

/-- The test that ends the loop, by the calls of `timer_handler` so far. -/
theorem returned_iff (hticks : ticks < 2 ^ 32)
    (hpath : IsPath SleepStep (milisleepStart time timer ticks) path)
    (htest : SleepStep (endState (milisleepStart time timer ticks) path) .test t) :
    t.returned = true ↔
      (ticks + time) % 2 ^ 32 ≤ (ticks + sleepTicks path) % 2 ^ 32 := by
  obtain ⟨hnow, hstop⟩ := ticks_endState hpath hticks
  cases htest with
  | test _ =>
      rw [decide_eq_true_iff, hnow, hstop]
      rfl

/-- Exactly when a test ends the loop, within one round of the counter.  If the sum does not
wrap: when `time` ticks have passed and the counter has not wrapped since, so that a loop
that comes too late goes on for another round.  If it wraps: at once, for as long as the
counter has not wrapped too. -/
theorem sleepRuns_returned_iff (hticks : ticks < 2 ^ 32) (htime : time < 2 ^ 32)
    (hpath : IsPath SleepStep (milisleepStart time timer ticks) path)
    (hround : sleepTicks path < 2 ^ 32)
    (htest : SleepStep (endState (milisleepStart time timer ticks) path) .test t) :
    t.returned = true ↔
      if ticks + time < 2 ^ 32 then time ≤ sleepTicks path ∧ ticks + sleepTicks path < 2 ^ 32
      else ticks + sleepTicks path < 2 ^ 32 ∨ time ≤ sleepTicks path := by
  rw [returned_iff hticks hpath htest]
  split <;> omega

/-- A millisecond before the counter wraps, a sleep ends with its first test. -/
theorem sleepRuns_returned_iff_wraps :
    ∃ t, SleepStep (milisleepStart 15 (tickTimer false) (2 ^ 32 - 1)) .test t ∧
      t.returned = true := by
  have hpath : IsPath SleepStep (milisleepStart 15 (tickTimer false) (2 ^ 32 - 1)) [] := trivial
  exact ⟨_, .test rfl,
    (sleepRuns_returned_iff (by decide) (by decide) hpath (by decide) (.test rfl)).mpr
      (.inl (by decide))⟩

/-- In clocks of the timer, while the sum does not wrap: however the interrupts come, the
sleep is at most one pulse too short, or two if an interrupt was waiting when it began; and
if no pulse is lost, a test ends it as soon as one pulse more has passed. -/
theorem sleepRuns_clocks (hsum : ticks + time < 2 ^ 32)
    (hpath : IsPath SleepStep (milisleepStart time timer ticks) path)
    (htest : SleepStep (endState (milisleepStart time timer ticks) path) .test t) :
    (t.returned = true →
        time * timer.period < (timer.pending.toNat + 1) * timer.period + sleepClocks path) ∧
      (StepsMeet PulseTimer.FindsEmpty timer (pulsePath path) →
        (time + 1) * timer.period ≤ sleepClocks path →
        ticks + sleepTicks path < 2 ^ 32 → t.returned = true) := by
  have hticks : ticks < 2 ^ 32 := Nat.lt_of_le_of_lt (Nat.le_add_right _ _) hsum
  have hpulses : IsPath PulseTimer.Step timer (pulsePath path) := (isPath_pulsePath hpath).1
  rw [returned_iff hticks hpath htest, Nat.mod_eq_of_lt hsum]
  refine ⟨fun hreached => ?_, fun hempty hclocks hround => ?_⟩
  · have hle : time ≤ sleepTicks path := by
      have hmod := Nat.mod_le (ticks + sleepTicks path) (2 ^ 32)
      omega
    exact Nat.lt_of_le_of_lt (Nat.mul_le_mul_right _ hle) (PulseTimer.handled_mul_lt hpulses)
  · have hle : time ≤ sleepTicks path := PulseTimer.le_handled hpulses hempty hclocks
    rw [Nat.mod_eq_of_lt hround]
    omega

/-- A waiting interrupt is the tick that a sleep of one waits for. -/
theorem sleepRuns_clocks_one : ∃ path t,
    IsPath SleepStep (milisleepStart 1 (tickTimer true) 0) path ∧
      SleepStep (endState (milisleepStart 1 (tickTimer true) 0) path) .test t ∧
      (t.returned = true → 1 * 1193 < (true.toNat + 1) * 1193 + sleepClocks path) := by
  have hpath : IsPath SleepStep (milisleepStart 1 (tickTimer true) 0) [(.tick, _)] :=
    ⟨.tick rfl, trivial⟩
  exact ⟨_, _, hpath, .test rfl, (sleepRuns_clocks (by decide) hpath (.test rfl)).1⟩

end Sleeps

end DonutOS.Kernel
