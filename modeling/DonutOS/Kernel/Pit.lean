import DonutOS.Foundation.IntervalTimer

set_option autoImplicit false

/-!
# Kernel: the interval timer (`kernel/src/pit.c`)

`pit_set` divides the clock of the timer by a count of 16 bits.
-/

namespace DonutOS.Kernel

open DonutOS.Foundation

/-- `PIT_HZ`. -/
def pitHz : Nat := 1193182

/-- `PIT_CHANNEL_0`. -/
def pitChannel0 : Nat := 0x40

/-- `PIT_COMMAND`. -/
def pitCommand : Nat := 0x43

/-- `TPS`. -/
def tps : Int := 1000

/-- `outb`, on the ports of the timer. -/
def pitOutb (port : Nat) (v : BitVec 8) (t : IntervalTimer) : IntervalTimer :=
  if port = pitCommand then t.control v
  else if pitChannel0 ≤ port ∧ port < pitCommand then t.write (port - pitChannel0) v
  else t

/-- `__pit_set_command`. -/
def pitSetCommand (channel accessMode opMode bcd : BitVec 8) (t : IntervalTimer) :
    IntervalTimer :=
  let commandByte : BitVec 8 := 0
  let commandByte := commandByte ||| (bcd &&& 0x1)
  let commandByte := commandByte ||| ((opMode &&& 0x7) <<< 1)
  let commandByte := commandByte ||| ((accessMode &&& 0x3) <<< 4)
  let commandByte := commandByte ||| ((channel &&& 0x3) <<< 6)
  pitOutb pitCommand commandByte t

/-- `pit_set`; dividing by 0 has no result. -/
def pitSet (hz : Int) (t : IntervalTimer) : Option IntervalTimer :=
  if hz = 0 then none
  else
    let divisor := BitVec.ofInt 16 ((pitHz : Int).tdiv hz)
    let t := pitSetCommand 0 3 3 0 t
    let t := pitOutb pitChannel0 (divisor.setWidth 8) t
    some (pitOutb pitChannel0 ((divisor >>> 8).setWidth 8) t)

/-- What is in channel 0 then. -/
def squareWave (count : BitVec 16) : TimerChannel := ⟨3, 3, false, none, some count⟩

theorem append_bytes (v : BitVec 16) :
    (v >>> 8).setWidth 8 ++ v.setWidth 8 = v := by
  ext i hi
  simp only [BitVec.getElem_append, BitVec.getElem_setWidth, BitVec.getLsbD_ushiftRight]
  split
  · rw [BitVec.getLsbD_eq_getElem]
  · next hge =>
      rw [Nat.add_sub_cancel' (Nat.le_of_not_lt hge), BitVec.getLsbD_eq_getElem]

/-- Whatever the channels were doing. -/
theorem pitSet_eq {hz : Int} (h : hz ≠ 0) (t : IntervalTimer) :
    pitSet hz t = some ⟨Function.update t.channel 0
      (squareWave (BitVec.ofInt 16 ((pitHz : Int).tdiv hz)))⟩ := by
  unfold pitSet
  rw [if_neg h]
  generalize BitVec.ofInt 16 ((pitHz : Int).tdiv hz) = divisor
  have hcommand : pitSetCommand 0 3 3 0 t =
      ⟨Function.update t.channel 0 ⟨3, 3, false, none, none⟩⟩ := rfl
  have hwrites : ∀ v w : BitVec 8, pitOutb pitChannel0 w (pitOutb pitChannel0 v
      ⟨Function.update t.channel 0 ⟨3, 3, false, none, none⟩⟩) =
        ⟨Function.update t.channel 0 (squareWave (w ++ v))⟩ := by
    intro v w
    change IntervalTimer.write 0 w (IntervalTimer.write 0 v _) = _
    simp only [IntervalTimer.write, Function.update_self, Function.update_idem]
    rw [TimerChannel.write_write rfl rfl]
    rfl
  dsimp only
  rw [hcommand, hwrites, append_bytes]

/-! ## The frequency -/

theorem period_squareWave (count : BitVec 16) :
    (squareWave count).period =
      if count = 0 then some (2 ^ 16) else if count = 1 then none else some count.toNat := by
  have hmode : (3#3).getLsbD 1 = true := by decide
  change (if count = 0 then some (2 ^ 16)
    else if count = 1 ∧ (3#3).getLsbD 1 = true then none else some count.toNat) = _
  rw [hmode]
  simp only [and_true]

/-- A count of 16 bits is the divisor if it fits, with 0 for the largest; 1 is none. -/
theorem period_eq_iff (q : Int) :
    (squareWave (BitVec.ofInt 16 q)).period.map Int.ofNat = some q ↔ 2 ≤ q ∧ q ≤ 2 ^ 16 := by
  have hnat : ((BitVec.ofInt 16 q).toNat : Int) = q % 2 ^ 16 := by
    rw [BitVec.toNat_ofInt, Int.toNat_of_nonneg (Int.emod_nonneg _ (by decide))]
    rfl
  have hzero : BitVec.ofInt 16 q = 0 ↔ q % 2 ^ 16 = 0 := by
    rw [← hnat, ← BitVec.toNat_inj]
    exact Int.natCast_eq_zero.symm
  have hone : BitVec.ofInt 16 q = 1 ↔ q % 2 ^ 16 = 1 := by
    rw [← hnat, ← BitVec.toNat_inj]
    exact (Int.natCast_inj (n := 1)).symm
  rw [period_squareWave]
  split
  · next h =>
      have hmod := hzero.mp h
      simp only [Option.map_some, Option.some.injEq, Int.ofNat_eq_natCast]
      omega
  · next h =>
      have hmod := mt hzero.mpr h
      split
      · next h1 =>
          have hmod1 := hone.mp h1
          simp only [Option.map_none, reduceCtorEq, false_iff]
          omega
      · next h1 =>
          have hmod1 := mt hone.mpr h1
          simp only [Option.map_some, Option.some.injEq, Int.ofNat_eq_natCast, hnat]
          omega

/-- The divisor is between 2 and `2 ^ 16`. -/
theorem divisor_iff {hz : Int} (h : hz ≠ 0) :
    2 ≤ (pitHz : Int).tdiv hz ∧ (pitHz : Int).tdiv hz ≤ 2 ^ 16 ↔
      19 ≤ hz ∧ 2 * hz ≤ pitHz := by
  rcases Int.lt_or_gt_of_ne h with hneg | hpos
  · have hle : (pitHz : Int).tdiv hz ≤ 0 := by
      rw [← Int.neg_neg hz, Int.tdiv_neg]
      have hnonneg := Int.tdiv_nonneg (Int.natCast_nonneg pitHz) (show 0 ≤ -hz by omega)
      omega
    omega
  · rw [Int.tdiv_eq_ediv_of_nonneg (Int.natCast_nonneg _)]
    have hlow : 2 ≤ (pitHz : Int) / hz ↔ 2 * hz ≤ pitHz := Int.le_ediv_iff_mul_le hpos
    have hhigh : (pitHz : Int) / hz < 2 ^ 16 + 1 ↔ 19 ≤ hz := by
      rw [Int.ediv_lt_iff_lt_mul hpos]
      unfold pitHz
      omega
    omega

/-- `pit_set`, whatever the timer was doing: channel 0 is in mode 3 and the others are as
they were.  Its pulses are `PIT_HZ / hz` clocks apart exactly for the frequencies from 19 Hz
to half of `PIT_HZ`; then they are no slower than asked for, and with one clock more they
would be. -/
theorem pitSet_period {hz : Int} (h : hz ≠ 0) (t : IntervalTimer) :
    ∃ u, pitSet hz t = some u ∧ (u.channel 0).mode = 3 ∧
      (∀ i, i ≠ 0 → u.channel i = t.channel i) ∧
      ((u.channel 0).period.map Int.ofNat = some ((pitHz : Int).tdiv hz) ↔
        19 ≤ hz ∧ 2 * hz ≤ pitHz) ∧
      (19 ≤ hz → 2 * hz ≤ pitHz → ∀ p, (u.channel 0).period = some p →
        p * hz ≤ pitHz ∧ pitHz < (p + 1) * hz) := by
  have hiff := (period_eq_iff ((pitHz : Int).tdiv hz)).trans (divisor_iff h)
  refine ⟨_, pitSet_eq h t, rfl, fun i hi => Function.update_of_ne hi _ _, hiff,
    fun hlow hhigh p hp => ?_⟩
  have hperiod := hiff.mpr ⟨hlow, hhigh⟩
  rw [show (squareWave _).period = some p from hp, Option.map_some, Option.some.injEq,
    Int.ofNat_eq_natCast, Int.tdiv_eq_ediv_of_nonneg (Int.natCast_nonneg _)] at hperiod
  rw [hperiod]
  have hpos : 0 < hz := by omega
  exact ⟨Int.ediv_mul_le _ h, Int.lt_ediv_add_one_mul_self _ hpos⟩

/-- A timer to which nothing was written. -/
def idleTimer : IntervalTimer := ⟨fun _ => ⟨0, 0, false, none, none⟩⟩

/-- `timer_init` asks for 1000 Hz. -/
theorem pitSet_period_tps :
    ∃ u, pitSet tps idleTimer = some u ∧ (u.channel 0).mode = 3 ∧
      (u.channel 0).period.map Int.ofNat = some ((pitHz : Int).tdiv tps) := by
  obtain ⟨u, hset, hmode, -, hiff, -⟩ := pitSet_period (show tps ≠ 0 by decide) idleTimer
  exact ⟨u, hset, hmode, hiff.mpr (by decide)⟩

/-- The count of `timer_init`. -/
example : (pitHz : Int).tdiv tps = 1193 := by decide

end DonutOS.Kernel
