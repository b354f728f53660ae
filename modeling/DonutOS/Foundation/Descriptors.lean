import DonutOS.Foundation.Store
import DonutOS.Foundation.Wire

set_option autoImplicit false

/-!
# Foundation: x86 descriptor tables

How a 32-bit processor in protected mode finds the code for an interrupt: a gate of
eight bytes in one table names a segment, a descriptor of eight bytes in another.
Everything runs at privilege level 0.
-/

namespace DonutOS.Foundation

/-- What `lidt` and `lgdt` load. -/
structure TableRegister where
  limit : Nat
  base : Nat
  deriving DecidableEq, Repr

/-- The six bytes that `lidt` and `lgdt` load from. -/
def readTableRegister (m : Memory) (a : Nat) : TableRegister :=
  ⟨readHalf m a, readWord m (a + 2)⟩

/-- The address of the eight bytes at index `i`, if they are inside the table. -/
def TableRegister.entry (t : TableRegister) (i : Nat) : Option Nat :=
  if 8 * i + 7 ≤ t.limit then some (t.base + 8 * i) else none

/-! ## Gates -/

structure Gate where
  offset : Nat
  selector : Nat
  flags : Byte
  deriving DecidableEq, Repr

/-- The gate at `a`: the offset is in the outer four bytes. -/
def readGate (m : Memory) (a : Nat) : Gate :=
  { offset := readHalf m a + 0x10000 * readHalf m (a + 6)
    selector := readHalf m (a + 2)
    flags := m (a + 5) }

/-- Present. -/
def Gate.present (g : Gate) : Bool := g.flags.getLsbD 7

/-- A 32-bit gate that clears the interrupt flag. -/
def Gate.isInterrupt (g : Gate) : Bool := g.flags &&& 0x1f#8 == 0x0e#8

/-! ## Segments -/

structure Segment where
  base : Nat
  limit : Nat
  access : Byte
  deriving DecidableEq, Repr

/-- The descriptor at `a`; a limit with the granularity bit counts pages. -/
def readSegment (m : Memory) (a : Nat) : Segment :=
  let limit := readHalf m a + 0x10000 * ((m (a + 6)).toNat % 16)
  { base := readHalf m (a + 2) + 0x10000 * (m (a + 4)).toNat + 0x1000000 * (m (a + 7)).toNat
    limit := if (m (a + 6)).getLsbD 7 then limit * 0x1000 + 0xfff else limit
    access := m (a + 5) }

/-- Present, of privilege level 0, and code. -/
def Segment.isCode (s : Segment) : Bool := s.access &&& 0xf8#8 == 0x98#8

/-! ## Interrupts -/

/-- Where the processor goes for vector `v`, as a linear address; `none` where it raises
another exception instead. -/
def interruptTarget (m : Memory) (idtr gdtr : TableRegister) (v : Nat) : Option Nat := do
  let a ← idtr.entry v
  let gate := readGate m a
  if gate.present && gate.isInterrupt then
    let d ← gdtr.entry (gate.selector / 8)
    let segment := readSegment m d
    if segment.isCode && decide (0 < gate.selector / 8) && decide (gate.offset ≤ segment.limit)
    then some ((segment.base + gate.offset) % 2 ^ 32)
    else none
  else none

/-! ## Structures in memory -/

/-- A 16-bit number as it lies in memory. -/
def halfBytes (v : Nat) : List Byte := [BitVec.ofNat 8 v, BitVec.ofNat 8 (v / 0x100)]

/-- Store bytes one after another. -/
def Store.putBytes (a : Nat) : List Byte → Store → Store
  | [], st => st
  | v :: vs, st => Store.putBytes (a + 1) vs (st.put a v)

theorem Store.putBytes_of_outside {a b : Nat} {vs : List Byte} {st : Store}
    (h : b < a ∨ a + vs.length ≤ b) : (st.putBytes a vs).bytes b = st.bytes b := by
  induction vs generalizing st a with
  | nil => rfl
  | cons v vs ih =>
      rw [List.length_cons] at h
      rw [putBytes, ih (by omega), bytes_put_of_ne v st (by omega)]

theorem Store.textAt_putBytes (a : Nat) (vs : List Byte) (st : Store) :
    TextAt (st.putBytes a vs).bytes a vs := by
  induction vs generalizing st a with
  | nil => exact TextAt.nil _ _
  | cons v vs ih =>
      rw [← List.singleton_append, TextAt.append_iff, TextAt.singleton_iff]
      refine ⟨?_, ih (a + 1) (st.put a v)⟩
      change ((st.put a v).putBytes (a + 1) vs).bytes a = v
      rw [putBytes_of_outside (.inl (Nat.lt_succ_self a)), bytes_put_same]

/-- A gate is read from its eight bytes. -/
theorem readGate_of_textAt {m : Memory} {a : Nat} {b₀ b₁ b₂ b₃ b₄ b₅ b₆ b₇ : Byte}
    (h : TextAt m a [b₀, b₁, b₂, b₃, b₄, b₅, b₆, b₇]) :
    readGate m a =
      { offset := b₀.toNat + 0x100 * b₁.toNat + 0x10000 * (b₆.toNat + 0x100 * b₇.toNat)
        selector := b₂.toNat + 0x100 * b₃.toNat
        flags := b₅ } := by
  have h0 : m a = b₀ := h 0 (Nat.zero_lt_succ _)
  have h1 : m (a + 1) = b₁ := h 1 (by simp)
  have h2 : m (a + 2) = b₂ := h 2 (by simp)
  have h3 : m (a + 2 + 1) = b₃ := h 3 (by simp)
  have h5 : m (a + 5) = b₅ := h 5 (by simp)
  have h6 : m (a + 6) = b₆ := h 6 (by simp)
  have h7 : m (a + 6 + 1) = b₇ := h 7 (by simp)
  rw [readGate, readHalf, readHalf, readHalf, h0, h1, h2, h3, h5, h6, h7]

/-- So is a segment. -/
theorem readSegment_of_textAt {m : Memory} {a : Nat} {b₀ b₁ b₂ b₃ b₄ b₅ b₆ b₇ : Byte}
    (h : TextAt m a [b₀, b₁, b₂, b₃, b₄, b₅, b₆, b₇]) :
    readSegment m a =
      let limit := b₀.toNat + 0x100 * b₁.toNat + 0x10000 * (b₆.toNat % 16)
      { base := b₂.toNat + 0x100 * b₃.toNat + 0x10000 * b₄.toNat + 0x1000000 * b₇.toNat
        limit := if b₆.getLsbD 7 then limit * 0x1000 + 0xfff else limit
        access := b₅ } := by
  have h0 : m a = b₀ := h 0 (Nat.zero_lt_succ _)
  have h1 : m (a + 1) = b₁ := h 1 (by simp)
  have h2 : m (a + 2) = b₂ := h 2 (by simp)
  have h3 : m (a + 2 + 1) = b₃ := h 3 (by simp)
  have h4 : m (a + 4) = b₄ := h 4 (by simp)
  have h5 : m (a + 5) = b₅ := h 5 (by simp)
  have h6 : m (a + 6) = b₆ := h 6 (by simp)
  have h7 : m (a + 7) = b₇ := h 7 (by simp)
  rw [readSegment, readHalf, readHalf, h0, h1, h2, h3, h4, h5, h6, h7]

end DonutOS.Foundation
