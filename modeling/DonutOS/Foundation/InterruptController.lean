import Mathlib.Data.List.Find
import Mathlib.Data.List.Nodup
import Mathlib.Tactic.Common

set_option autoImplicit false

/-!
# Foundation: a pair of 8259A interrupt controllers

Two controllers of eight lines each; the output of the second is wired to line 2
of the first.  Of the commands, initialisation, the mask, the end of interrupt and
the choice of the register to read are modelled; rotation of priorities, polling
and the special mask mode are not, and such commands change nothing here.
-/

namespace DonutOS.Foundation

/-- What the next byte at the data port is taken for. -/
inductive Expects
  | icw2 | icw3 | icw4 | mask
  deriving DecidableEq, Repr

structure Controller where
  expects : Expects
  icw1 : BitVec 8
  base : BitVec 8
  cascade : BitVec 8
  mode : BitVec 8
  imr : BitVec 8
  irr : BitVec 8
  isr : BitVec 8
  readsIsr : Bool
  deriving DecidableEq, Repr

/-- The line of highest priority among the bits of a register. -/
def firstLine (v : BitVec 8) : Option Nat := (List.range 8).find? fun i => v.getLsbD i

namespace Controller

/-! ## The two ports -/

/-- The end of interrupt that names no line: the line of highest priority in service. -/
def endOfInterrupt (c : Controller) : Controller :=
  match firstLine c.isr with
  | some i => { c with isr := c.isr &&& ~~~BitVec.twoPow 8 i }
  | none => c

/-- A byte written to the command port. -/
def command (v : BitVec 8) (c : Controller) : Controller :=
  if v.getLsbD 4 then
    { c with
      expects := .icw2, icw1 := v, mode := if v.getLsbD 0 then c.mode else 0#8
      imr := 0#8, irr := 0#8, isr := 0#8, readsIsr := false }
  else if v.getLsbD 3 then
    if v.getLsbD 1 then { c with readsIsr := v.getLsbD 0 } else c
  else if v >>> 5 = 1#8 then c.endOfInterrupt
  else if v >>> 5 = 3#8 then
    { c with isr := c.isr &&& ~~~BitVec.twoPow 8 (v &&& 7#8).toNat }
  else c

/-- A byte written to the data port. -/
def data (v : BitVec 8) (c : Controller) : Controller :=
  let last := if c.icw1.getLsbD 0 then Expects.icw4 else Expects.mask
  match c.expects with
  | .icw2 => { c with base := v, expects := if c.icw1.getLsbD 1 then last else .icw3 }
  | .icw3 => { c with cascade := v, expects := last }
  | .icw4 => { c with mode := v, expects := .mask }
  | .mask => { c with imr := v }

/-- What the command port is read as. -/
def status (c : Controller) : BitVec 8 := if c.readsIsr then c.isr else c.irr

/-! ## Requests -/

/-- A device raises a line. -/
def request (i : Nat) (c : Controller) : Controller :=
  { c with irr := c.irr ||| BitVec.twoPow 8 i }

/-- The requests that are not masked. -/
def waiting (c : Controller) : BitVec 8 := c.irr &&& ~~~c.imr

/-- The line that an interrupt is asked for: the first that waits, unless it, or one of
higher priority, is in service. -/
def requested (c : Controller) : Option Nat :=
  if c.expects = .mask then
    match firstLine c.waiting, firstLine c.isr with
    | some i, some j => if i < j then some i else none
    | first, none => first
    | none, _ => none
  else none

/-- The processor acknowledges line `i`. -/
def acknowledge (i : Nat) (c : Controller) : Controller :=
  { c with
    irr := c.irr &&& ~~~BitVec.twoPow 8 i
    isr := if c.mode.getLsbD 1 then c.isr else c.isr ||| BitVec.twoPow 8 i }

/-- The vector given to an 8086 for line `i`. -/
def vector (i : Nat) (c : Controller) : Option Nat :=
  if c.mode.getLsbD 0 then some (c.base.toNat / 8 * 8 + i) else none

end Controller

/-! ## The pair -/

structure Cascade where
  master : Controller
  slave : Controller
  deriving DecidableEq, Repr

namespace Cascade

/-- A device raises one of the sixteen lines. -/
def request (line : Nat) (p : Cascade) : Cascade :=
  if line < 8 then { p with master := p.master.request line }
  else { p with slave := p.slave.request (line - 8) }

/-- The master with the output of the slave on its line 2. -/
def settled (p : Cascade) : Controller :=
  { p.master with
    irr := if p.slave.requested.isSome then p.master.irr ||| BitVec.twoPow 8 2
      else p.master.irr &&& ~~~BitVec.twoPow 8 2 }

/-- The interrupt that the pair asks the processor for: the vector, and the pair once
it is acknowledged.  On line 2 the slave gives the vector, where both know of the
wire. -/
def acknowledge (p : Cascade) : Option (Nat × Cascade) := do
  let m := p.settled
  let i ← m.requested
  if i = 2 ∧ m.cascade.getLsbD 2 = true ∧ p.slave.cascade &&& 7#8 = 2#8 then
    let j ← p.slave.requested
    let v ← p.slave.vector j
    some (v, ⟨m.acknowledge 2, p.slave.acknowledge j⟩)
  else
    let v ← m.vector i
    some (v, { p with master := m.acknowledge i })

/-- The end of interrupt for a line of the pair. -/
def finish (line : Nat) (p : Cascade) : Cascade :=
  if line < 8 then { p with master := p.master.endOfInterrupt }
  else ⟨p.master.endOfInterrupt, p.slave.endOfInterrupt⟩

end Cascade

/-! ## Registers as sets of lines -/

theorem firstLine_eq_some {v : BitVec 8} {i : Nat} :
    firstLine v = some i ↔
      i < 8 ∧ v.getLsbD i = true ∧ ∀ j, j < i → v.getLsbD j = false := by
  rw [firstLine, List.find?_range_eq_some, List.mem_range]
  simp only [Bool.not_eq_true']
  exact and_left_comm

theorem firstLine_eq_none {v : BitVec 8} : firstLine v = none ↔ v = 0#8 := by
  rw [firstLine, List.find?_range_eq_none]
  constructor
  · intro h
    apply BitVec.eq_of_getLsbD_eq
    intro i hi
    simpa using h i hi
  · rintro rfl i _
    simp

@[simp] theorem firstLine_zero : firstLine 0#8 = none := firstLine_eq_none.mpr rfl

theorem firstLine_twoPow {i : Nat} (hi : i < 8) : firstLine (BitVec.twoPow 8 i) = some i := by
  rw [firstLine_eq_some]
  refine ⟨hi, by simp [hi], fun j hj => ?_⟩
  rw [BitVec.getLsbD_twoPow, decide_eq_false (by omega : ¬ i = j), Bool.and_false]

theorem getLsbD_clear {v : BitVec 8} {i j : Nat} (hj : j < 8) :
    (v &&& ~~~BitVec.twoPow 8 i).getLsbD j = (v.getLsbD j && decide (j ≠ i)) := by
  rw [BitVec.getLsbD_and, BitVec.getLsbD_not, BitVec.getLsbD_twoPow]
  by_cases h : i = j
  · simp [h, hj]
  · simp [h, Ne.symm h, hj]

theorem getLsbD_raise {v : BitVec 8} {i j : Nat} (hj : j < 8) :
    (v ||| BitVec.twoPow 8 i).getLsbD j = (v.getLsbD j || decide (j = i)) := by
  rw [BitVec.getLsbD_or, BitVec.getLsbD_twoPow]
  by_cases h : i = j
  · simp [h, hj]
  · simp [h, Ne.symm h]

/-! ## What an initialised pair answers -/

/-- Initialised for an 8086, at a base, with an explicit end of each interrupt. -/
structure Controller.Ready (base : Nat) (c : Controller) : Prop where
  expects : c.expects = .mask
  base_eq : c.base.toNat / 8 * 8 = base
  is8086 : c.mode.getLsbD 0 = true
  explicit : c.mode.getLsbD 1 = false

namespace Cascade

/-- Both controllers are, and they know of the wire between them. -/
structure Ready (base₁ base₂ : Nat) (p : Cascade) : Prop where
  master : p.master.Ready base₁
  slave : p.slave.Ready base₂
  wire : p.master.cascade.getLsbD 2 = true
  name : p.slave.cascade &&& 7#8 = 2#8

/-- Nothing is in service. -/
def Idle (p : Cascade) : Prop := p.master.isr = 0#8 ∧ p.slave.isr = 0#8

/-- Line `line` is in service, and nothing else. -/
def InService (line : Nat) (p : Cascade) : Prop :=
  if line < 8 then p.master.isr = BitVec.twoPow 8 line ∧ p.slave.isr = 0#8
  else p.master.isr = BitVec.twoPow 8 2 ∧ p.slave.isr = BitVec.twoPow 8 (line - 8)

/-- The lines that devices are on, the one of highest priority first. -/
def priorityOrder : List Nat := [0, 1] ++ (List.range 8).map (8 + ·) ++ [3, 4, 5, 6, 7]

/-- Line `line` waits for the processor. -/
def pending (p : Cascade) (line : Nat) : Bool :=
  if line < 8 then p.master.waiting.getLsbD line
  else p.slave.waiting.getLsbD (line - 8) && !p.master.imr.getLsbD 2

/-- The vector of a line. -/
def vectorOf (base₁ base₂ line : Nat) : Nat :=
  if line < 8 then base₁ + line else base₂ + (line - 8)

/-- The pair once the interrupt of a line is acknowledged. -/
def serve (line : Nat) (p : Cascade) : Cascade :=
  if line < 8 then { p with master := p.settled.acknowledge line }
  else ⟨p.settled.acknowledge 2, p.slave.acknowledge (line - 8)⟩

variable {base₁ base₂ line : Nat} {p : Cascade}

theorem mem_priorityOrder : line ∈ priorityOrder ↔ line < 16 ∧ line ≠ 2 := by
  simp only [priorityOrder, List.mem_append, List.mem_cons, List.not_mem_nil, or_false,
    List.mem_map, List.mem_range]
  constructor
  · rintro ((h | ⟨i, hi, rfl⟩) | h) <;> omega
  · rintro ⟨hlt, hne⟩
    by_cases h : 8 ≤ line
    · exact .inl (.inr ⟨line - 8, by omega, by omega⟩)
    · omega

theorem nodup_priorityOrder : priorityOrder.Nodup := by decide

theorem requested_of_idle {c : Controller} (hc : c.expects = .mask) (hidle : c.isr = 0#8) :
    c.requested = firstLine c.waiting := by
  rw [Controller.requested, if_pos hc, hidle, firstLine_zero]
  cases firstLine c.waiting <;> rfl

/-- The bits of the master that wait, the slave on line 2 among them. -/
theorem settled_waiting (p : Cascade) {i : Nat} (hi : i < 8) :
    p.settled.waiting.getLsbD i =
      if i = 2 then p.slave.requested.isSome && !p.master.imr.getLsbD 2
      else p.master.waiting.getLsbD i := by
  rw [Controller.waiting, BitVec.getLsbD_and, settled]
  cases h : p.slave.requested.isSome
  · rw [if_neg Bool.false_ne_true, getLsbD_clear hi]
    by_cases h2 : i = 2
    · simp [h2]
    · simp [h2, Controller.waiting, hi]
  · rw [if_pos rfl, getLsbD_raise hi]
    by_cases h2 : i = 2
    · simp [h2]
    · simp [h2, Controller.waiting, hi]

/-- The first of the slave's lines that waits is the one the slave asks for. -/
theorem find_slave (hready : p.Ready base₁ base₂) (hidle : p.Idle) :
    ((List.range 8).map (8 + ·)).find? p.pending =
      if p.master.imr.getLsbD 2 then none else p.slave.requested.map (8 + ·) := by
  rw [List.find?_map, requested_of_idle hready.slave.expects hidle.2]
  have hcomp : ∀ i, (p.pending ∘ (8 + ·)) i =
      (p.slave.waiting.getLsbD i && !p.master.imr.getLsbD 2) := by
    intro i
    rw [Function.comp_apply, pending, if_neg (by omega), Nat.add_sub_cancel_left]
  rw [funext hcomp, firstLine]
  cases p.master.imr.getLsbD 2 <;> simp

/-- What is asked for is the line of highest priority that waits. -/
theorem acknowledge_eq (hready : p.Ready base₁ base₂) (hidle : p.Idle) :
    p.acknowledge = (priorityOrder.find? p.pending).map fun line =>
      (vectorOf base₁ base₂ line, p.serve line) := by
  have hmaster : p.settled.requested = (List.range 8).find? fun i =>
      p.settled.waiting.getLsbD i := requested_of_idle hready.master.expects hidle.1
  have hvector : ∀ i, p.settled.vector i = some (base₁ + i) := by
    intro i
    rw [Controller.vector]
    change (if p.master.mode.getLsbD 0 = true then _ else _) = _
    rw [if_pos hready.master.is8086]
    exact congrArg (fun b => some (b + i)) hready.master.base_eq
  have hsplit : List.range 8 = [0, 1] ++ [2] ++ [3, 4, 5, 6, 7] := rfl
  have hlow : ∀ l : List Nat, (∀ i ∈ l, i < 8 ∧ i ≠ 2) →
      l.find? (fun i => p.settled.waiting.getLsbD i) = l.find? p.pending := by
    intro l hl
    apply List.find?_congr
    intro i hi
    obtain ⟨hlt, hne⟩ := hl i hi
    rw [settled_waiting p hlt, if_neg hne, pending, if_pos hlt]
  have hwire : p.settled.cascade.getLsbD 2 = true := hready.wire
  rw [acknowledge, Option.bind_eq_bind, hmaster, hsplit, List.find?_append, List.find?_append,
    hlow [0, 1] (by decide), hlow [3, 4, 5, 6, 7] (by decide), priorityOrder,
    List.find?_append, List.find?_append, find_slave hready hidle]
  cases hhigh : [0, 1].find? p.pending with
  | some i =>
      have hi : i < 8 ∧ i ≠ 2 := by
        have := List.mem_of_find?_eq_some hhigh
        simp only [List.mem_cons, List.not_mem_nil, or_false] at this
        omega
      simp [hi.2, hvector, vectorOf, serve, hi.1]
  | none =>
      have htwo : p.settled.waiting.getLsbD 2 =
          (p.slave.requested.isSome && !p.master.imr.getLsbD 2) := settled_waiting p (by decide)
      have hlast : ∀ i, [3, 4, 5, 6, 7].find? p.pending = some i → i < 8 ∧ i ≠ 2 := by
        intro i hi
        have := List.mem_of_find?_eq_some hi
        simp only [List.mem_cons, List.not_mem_nil, or_false] at this
        omega
      by_cases hcascade : (p.slave.requested.isSome && !p.master.imr.getLsbD 2) = true
      · -- the slave asks through line 2
        rw [Bool.and_eq_true, Bool.not_eq_true', Option.isSome_iff_exists] at hcascade
        obtain ⟨⟨j, hj⟩, hopen⟩ := hcascade
        have hslave : p.slave.vector j = some (base₂ + j) := by
          rw [Controller.vector, if_pos hready.slave.is8086, hready.slave.base_eq]
        have hasks : p.settled.waiting.getLsbD 2 = true := by rw [htwo, hj, hopen]; rfl
        rw [List.find?_cons_of_pos hasks, hopen, hj]
        simp [hready.name, hslave, vectorOf, serve, (hwire : p.settled.cascade[2] = true)]
      · have hno : (if p.master.imr.getLsbD 2 then none else p.slave.requested.map (8 + ·)) =
            none := by
          cases himr : p.master.imr.getLsbD 2
          · rw [himr, Bool.not_false, Bool.and_true, Option.not_isSome_iff_eq_none] at hcascade
            rw [hcascade]
            rfl
          · rfl
        rw [hno, List.find?_cons_of_neg (by rw [htwo]; exact hcascade), List.find?_nil]
        cases hfound : [3, 4, 5, 6, 7].find? p.pending with
        | none => rfl
        | some i => simp [(hlast i hfound).2, hvector, vectorOf, serve, (hlast i hfound).1]

/-! ## Serving one line -/

theorem Ready.request (h : p.Ready base₁ base₂) (line : Nat) :
    (p.request line).Ready base₁ base₂ := by
  obtain ⟨⟨he, hb, h8, hx⟩, ⟨he', hb', h8', hx'⟩, hw, hn⟩ := h
  unfold Cascade.request
  split
  · exact ⟨⟨he, hb, h8, hx⟩, ⟨he', hb', h8', hx'⟩, hw, hn⟩
  · exact ⟨⟨he, hb, h8, hx⟩, ⟨he', hb', h8', hx'⟩, hw, hn⟩

theorem Ready.serve (h : p.Ready base₁ base₂) (line : Nat) :
    (p.serve line).Ready base₁ base₂ := by
  obtain ⟨⟨he, hb, h8, hx⟩, ⟨he', hb', h8', hx'⟩, hw, hn⟩ := h
  unfold Cascade.serve
  split
  · exact ⟨⟨he, hb, h8, hx⟩, ⟨he', hb', h8', hx'⟩, hw, hn⟩
  · exact ⟨⟨he, hb, h8, hx⟩, ⟨he', hb', h8', hx'⟩, hw, hn⟩

@[simp] theorem request_master_isr (p : Cascade) (line : Nat) :
    (p.request line).master.isr = p.master.isr := by
  unfold Cascade.request
  split <;> rfl

@[simp] theorem request_slave_isr (p : Cascade) (line : Nat) :
    (p.request line).slave.isr = p.slave.isr := by
  unfold Cascade.request
  split <;> rfl

theorem Idle.request (h : p.Idle) (line : Nat) : (p.request line).Idle := by
  rwa [Idle, request_master_isr, request_slave_isr]

theorem InService.request {served : Nat} (h : p.InService served) (line : Nat) :
    (p.request line).InService served := by
  rwa [InService, request_master_isr, request_slave_isr]

theorem isr_acknowledge {c : Controller} (hmode : c.mode.getLsbD 1 = false) (h : c.isr = 0#8)
    (i : Nat) : (c.acknowledge i).isr = BitVec.twoPow 8 i := by
  rw [Controller.acknowledge, hmode, if_neg Bool.false_ne_true, h, BitVec.zero_or]

/-- An acknowledged line is in service. -/
theorem inService_serve (hready : p.Ready base₁ base₂) (hidle : p.Idle) (line : Nat) :
    (p.serve line).InService line := by
  have hmaster : ∀ i, (p.settled.acknowledge i).isr = BitVec.twoPow 8 i := fun i =>
    isr_acknowledge (c := p.settled) hready.master.explicit hidle.1 i
  unfold InService serve
  split
  · exact ⟨hmaster line, hidle.2⟩
  · exact ⟨hmaster 2, isr_acknowledge hready.slave.explicit hidle.2 (line - 8)⟩

theorem endOfInterrupt_of_one {c : Controller} {i : Nat} (hi : i < 8)
    (h : c.isr = BitVec.twoPow 8 i) : c.endOfInterrupt = { c with isr := 0#8 } := by
  have hnone : BitVec.twoPow 8 i &&& ~~~BitVec.twoPow 8 i = 0#8 :=
    BitVec.and_not_self _
  rw [Controller.endOfInterrupt, h, firstLine_twoPow hi]
  exact congrArg (fun isr => { c with isr := isr }) hnone

/-- The end of interrupt for the line in service leaves nothing in service, and touches
nothing else. -/
theorem finish_of_inService (hline : line < 16) (h : p.InService line) :
    p.finish line =
      ⟨{ p.master with isr := 0#8 }, { p.slave with isr := 0#8 }⟩ := by
  unfold InService at h
  unfold finish
  split at h
  · rename_i hlow
    rw [if_pos hlow, endOfInterrupt_of_one hlow h.1, ← h.2]
  · rename_i hhigh
    rw [if_neg hhigh, endOfInterrupt_of_one (by decide) h.1,
      endOfInterrupt_of_one (by omega) h.2]

/-! ## Requests and masks, line by line -/

/-- Line `line` has a request. -/
def raised (p : Cascade) (line : Nat) : Bool :=
  if line < 8 then p.master.irr.getLsbD line else p.slave.irr.getLsbD (line - 8)

/-- Line `line` is masked. -/
def masked (p : Cascade) (line : Nat) : Bool :=
  if line < 8 then p.master.imr.getLsbD line else p.slave.imr.getLsbD (line - 8)

/-- Its requests reach the processor; those of the slave pass through line 2. -/
def enabled (p : Cascade) (line : Nat) : Bool :=
  !p.masked line && (decide (line < 8) || !p.masked 2)

theorem waiting_getLsbD (c : Controller) {i : Nat} (hi : i < 8) :
    c.waiting.getLsbD i = (c.irr.getLsbD i && !c.imr.getLsbD i) := by
  rw [Controller.waiting, BitVec.getLsbD_and, BitVec.getLsbD_not, decide_eq_true hi,
    Bool.true_and]

theorem pending_eq (p : Cascade) (hline : line < 16) :
    p.pending line = (p.raised line && p.enabled line) := by
  unfold pending raised enabled masked
  by_cases hlow : line < 8
  · rw [if_pos hlow, if_pos hlow, if_pos hlow, waiting_getLsbD _ hlow, decide_eq_true hlow,
      Bool.true_or, Bool.and_true]
  · rw [if_neg hlow, if_neg hlow, if_neg hlow, waiting_getLsbD _ (by omega),
      decide_eq_false hlow, Bool.false_or, if_pos (by decide), Bool.and_assoc]

theorem raised_request {l : Nat} (hl : l < 16) (hline : line < 16) :
    (p.request line).raised l = (p.raised l || decide (l = line)) := by
  unfold raised Cascade.request Controller.request
  by_cases hlow : l < 8
  · rw [if_pos hlow, if_pos hlow]
    split
    · exact getLsbD_raise hlow
    · rw [decide_eq_false (show ¬ l = line by omega), Bool.or_false]
  · rw [if_neg hlow, if_neg hlow]
    split
    · rw [decide_eq_false (show ¬ l = line by omega), Bool.or_false]
    · have hiff : decide (l - 8 = line - 8) = decide (l = line) :=
        decide_eq_decide.mpr (by omega)
      rw [← hiff]
      exact getLsbD_raise (by omega)

/-- A line that is served has no request left; the others are as before. -/
theorem raised_serve {l : Nat} (hl : l ∈ priorityOrder) (hline : line < 16) :
    (p.serve line).raised l = (p.raised l && decide (l ≠ line)) := by
  rw [mem_priorityOrder] at hl
  have hmaster : ∀ i, l < 8 → (p.settled.acknowledge i).irr.getLsbD l =
      (p.master.irr.getLsbD l && decide (l ≠ i)) := by
    intro i hlow
    have hkept : p.settled.irr.getLsbD l = p.master.irr.getLsbD l := by
      rw [settled]
      split
      · rw [getLsbD_raise hlow, decide_eq_false hl.2, Bool.or_false]
      · rw [getLsbD_clear hlow, decide_eq_true hl.2, Bool.and_true]
    rw [Controller.acknowledge, getLsbD_clear hlow, hkept]
  unfold raised serve
  by_cases hlow : l < 8
  · rw [if_pos hlow, if_pos hlow]
    split
    · exact hmaster line hlow
    · rw [decide_eq_true (show l ≠ line by omega), ← decide_eq_true hl.2]
      exact hmaster 2 hlow
  · rw [if_neg hlow, if_neg hlow]
    split
    · rw [decide_eq_true (show l ≠ line by omega), Bool.and_true]
    · have hiff : decide (l - 8 ≠ line - 8) = decide (l ≠ line) :=
        decide_eq_decide.mpr (by omega)
      rw [← hiff]
      exact getLsbD_clear (by omega)

theorem masked_request (p : Cascade) (line : Nat) : (p.request line).masked = p.masked := by
  unfold Cascade.request masked
  split <;> rfl

theorem masked_serve (p : Cascade) (line : Nat) : (p.serve line).masked = p.masked := by
  unfold serve masked
  split <;> rfl

end Cascade

end DonutOS.Foundation
