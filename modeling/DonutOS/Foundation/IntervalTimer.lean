import Mathlib.Algebra.Group.Int.Defs
import Mathlib.Algebra.Group.Nat.Defs
import Mathlib.Logic.Function.Basic
import Mathlib.Tactic.Common

set_option autoImplicit false

/-!
# Foundation: an 8254 interval timer

Three channels that count down from what was written to them.  Modelled are the control
word of a channel and the bytes of its count; latch and read-back commands, which change
nothing that is modelled, do nothing here.
-/

namespace DonutOS.Foundation

/-- A channel: its mode, the bytes that its count has, and the low byte when the high one
is still to come.  It counts when it has a count. -/
structure TimerChannel where
  mode : BitVec 3
  access : BitVec 2
  bcd : Bool
  low : Option (BitVec 8)
  count : Option (BitVec 16)
  deriving DecidableEq, Repr

/-- The channels by number. -/
structure IntervalTimer where
  channel : Nat → TimerChannel

namespace TimerChannel

/-- The control word of the channel. -/
def control (word : BitVec 8) (c : TimerChannel) : TimerChannel :=
  if word.extractLsb' 4 2 = 0 then c
  else
    { mode := word.extractLsb' 1 3, access := word.extractLsb' 4 2, bcd := word.getLsbD 0
      low := none, count := none }

/-- A byte of the count. -/
def write (v : BitVec 8) (c : TimerChannel) : TimerChannel :=
  if c.access = 1 then { c with count := some (0#8 ++ v) }
  else if c.access = 2 then { c with count := some (v ++ 0#8) }
  else
    match c.low with
    | none => { c with low := some v }
    | some low => { c with low := none, count := some (v ++ low) }

/-- How many clocks it is from one pulse to the next, of a binary count; 0 stands for
`2 ^ 16`, and the modes 2 and 3 do not allow a count of 1. -/
def period (c : TimerChannel) : Option Nat :=
  if c.bcd then none
  else c.count.bind fun n =>
    if n = 0 then some (2 ^ 16)
    else if n = 1 ∧ c.mode.getLsbD 1 = true then none
    else some n.toNat

/-- Two bytes are a count. -/
theorem write_write {c : TimerChannel} (haccess : c.access = 3) (hlow : c.low = none)
    (low high : BitVec 8) :
    (c.write low).write high = { c with count := some (high ++ low) } := by
  obtain ⟨mode, access, bcd, low, count⟩ := c
  cases haccess
  cases hlow
  rfl

end TimerChannel

namespace IntervalTimer

/-- A control word; number 3 is the read-back command. -/
def control (word : BitVec 8) (t : IntervalTimer) : IntervalTimer :=
  let i := (word.extractLsb' 6 2).toNat
  if i = 3 then t else ⟨Function.update t.channel i ((t.channel i).control word)⟩

def write (i : Nat) (v : BitVec 8) (t : IntervalTimer) : IntervalTimer :=
  ⟨Function.update t.channel i ((t.channel i).write v)⟩

end IntervalTimer

end DonutOS.Foundation
