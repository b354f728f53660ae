import Mathlib.Algebra.Group.Int.Defs
import Mathlib.Algebra.Group.Nat.Defs
import Mathlib.Tactic.Common

set_option autoImplicit false

/-!
# Foundation: byte-addressed memory

Memory is a function from addresses to bytes, with little-endian 32-bit words
read and written through four consecutive bytes.  Addresses are natural
numbers: a caller that does 32-bit address arithmetic wraps it itself.
-/

namespace DonutOS.Foundation

/-- A byte. -/
abbrev Byte := BitVec 8

/-- A 32-bit machine word. -/
abbrev Word := BitVec 32

/-- Byte-addressed memory. -/
abbrev Memory := Nat → Byte

/-- The little-endian 32-bit word at address `a`. -/
def readWord (m : Memory) (a : Nat) : Nat :=
  (m a).toNat + 0x100 * (m (a + 1)).toNat + 0x10000 * (m (a + 2)).toNat
    + 0x1000000 * (m (a + 3)).toNat

/-- The little-endian 16-bit word at address `a`. -/
def readHalf (m : Memory) (a : Nat) : Nat := (m a).toNat + 0x100 * (m (a + 1)).toNat

/-- Store the low 32 bits of `v` at address `a`, least significant byte
first. -/
def writeWord (m : Memory) (a v : Nat) : Memory := fun b =>
  if b = a then BitVec.ofNat 8 v
  else if b = a + 1 then BitVec.ofNat 8 (v / 0x100)
  else if b = a + 2 then BitVec.ofNat 8 (v / 0x10000)
  else if b = a + 3 then BitVec.ofNat 8 (v / 0x1000000)
  else m b

/-- Store one byte. -/
def writeByte (m : Memory) (a : Nat) (v : Byte) : Memory := fun b =>
  if b = a then v else m b

theorem readWord_lt (m : Memory) (a : Nat) : readWord m a < 2 ^ 32 := by
  have h0 := (m a).isLt
  have h1 := (m (a + 1)).isLt
  have h2 := (m (a + 2)).isLt
  have h3 := (m (a + 3)).isLt
  unfold readWord
  omega

/-- Two memories that agree on the four bytes of a word agree on the word. -/
theorem readWord_congr {m m' : Memory} {a : Nat}
    (h : ∀ b, a ≤ b → b < a + 4 → m' b = m b) : readWord m' a = readWord m a := by
  unfold readWord
  rw [h a (by omega) (by omega), h (a + 1) (by omega) (by omega),
    h (a + 2) (by omega) (by omega), h (a + 3) (by omega) (by omega)]

/-- A word write changes only its own four bytes. -/
theorem writeWord_of_outside {m : Memory} {a v b : Nat} (h : b < a ∨ a + 4 ≤ b) :
    writeWord m a v b = m b := by
  unfold writeWord
  rw [if_neg (by omega), if_neg (by omega), if_neg (by omega), if_neg (by omega)]

theorem writeByte_of_ne {m : Memory} {a b : Nat} {v : Byte} (h : b ≠ a) :
    writeByte m a v b = m b := if_neg h

/-- A word read back is the low 32 bits of what was written. -/
@[simp] theorem readWord_writeWord_same (m : Memory) (a v : Nat) :
    readWord (writeWord m a v) a = v % 2 ^ 32 := by
  simp only [readWord, writeWord, if_true, BitVec.toNat_ofNat,
    show a + 1 ≠ a by omega, show a + 2 ≠ a by omega, show a + 3 ≠ a by omega,
    show a + 2 ≠ a + 1 by omega, show a + 3 ≠ a + 1 by omega,
    show a + 3 ≠ a + 2 by omega, if_false]
  omega

/-- Of two writes to one word the second stands. -/
theorem writeWord_writeWord (m : Memory) (a v w : Nat) :
    writeWord (writeWord m a v) a w = writeWord m a w := by
  funext b
  unfold writeWord
  split_ifs <;> rfl

/-- A word written back as it was read changes nothing. -/
theorem writeWord_readWord (m : Memory) (a : Nat) : writeWord m a (readWord m a) = m := by
  have h0 := (m a).isLt
  have h1 := (m (a + 1)).isLt
  have h2 := (m (a + 2)).isLt
  have h3 := (m (a + 3)).isLt
  funext b
  unfold writeWord
  split_ifs with hb hb hb hb
  all_goals
    first
    | rfl
    | rw [hb]
      refine BitVec.eq_of_toNat_eq ?_
      rw [BitVec.toNat_ofNat, readWord]
      omega

/-- A word write leaves every word that does not overlap it alone. -/
theorem readWord_writeWord_of_disjoint {m : Memory} {a b v : Nat}
    (h : b + 4 ≤ a ∨ a + 4 ≤ b) : readWord (writeWord m a v) b = readWord m b :=
  readWord_congr fun _ _ _ => writeWord_of_outside (by omega)

theorem readWord_writeByte_of_outside {m : Memory} {a b : Nat} {v : Byte}
    (h : a < b ∨ b + 4 ≤ a) : readWord (writeByte m a v) b = readWord m b :=
  readWord_congr fun _ _ _ => writeByte_of_ne (by omega)

end DonutOS.Foundation
