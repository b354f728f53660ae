import DonutOS.Libc.MemSpec
import DonutOS.Libc.PrintfFormat

set_option autoImplicit false

/-!
# Libc: the text that `printf` builds (`libc/src/printf.c`)

A piece is an item of the format with its argument.  As long as `str` has room for the
text and its NUL, the loop appends the text of one piece after another.
-/

namespace DonutOS.Libc

open DonutOS.Foundation DonutOS.Kernel

/-! ## Pieces -/

/-- The conversions that print an `int` as a number. -/
inductive IntConv
  | d | i | x | upperX | b
  deriving DecidableEq, Repr

def IntConv.byte : IntConv → Byte
  | .d => 0x64
  | .i => 0x69
  | .x => 0x78
  | .upperX => 0x58
  | .b => 0x62

def IntConv.base : IntConv → Word
  | .d => 10
  | .i => 10
  | .x => 16
  | .upperX => 16
  | .b => 2

/-- An item of the format, with its argument. -/
inductive Piece
  | char (c : Byte)
  /-- `%%`, and every character that is no conversion -/
  | plain (w : Width) (c : Byte)
  | int (w : Width) (conv : IntConv) (value : Word)
  | double (w : Width) (lo hi : Nat)
  | arg (w : Width) (value : Word)
  | string (w : Width) (cs : List Byte)

/-- The characters behind a `%` that take an argument. -/
def conversions : List Byte := [0x69, 0x64, 0x78, 0x58, 0x62, 0x66, 0x63, 0x73]

namespace Piece

def item : Piece → Item
  | .char c => .char c
  | .plain w c => .directive w c
  | .int w conv _ => .directive w conv.byte
  | .double w _ _ => .directive w 0x66
  | .arg w _ => .directive w 0x63
  | .string w _ => .directive w 0x73

/-- The width that stands in the format. -/
def width : Piece → Width
  | .char _ => .none
  | .plain w _ => w
  | .int w _ _ => w
  | .double w _ _ => w
  | .arg w _ => w
  | .string w _ => w

/-- The width is used. -/
def padded : Piece → Bool
  | .int _ _ _ => true
  | .double _ _ _ => true
  | _ => false

/-- The digits of the width fit `helper_str`, and where they are used so does their
NUL. -/
def WidthFits (piece : Piece) : Prop :=
  piece.width.digits.length < if piece.padded then helperLen else helperLen + 1

instance (piece : Piece) : Decidable piece.WidthFits :=
  inferInstanceAs (Decidable (_ < _))

/-- The words that the argument takes. -/
def words : Piece → Nat
  | .char _ => 0
  | .plain _ _ => 0
  | .int _ _ _ => 1
  | .double _ _ _ => 2
  | .arg _ _ => 1
  | .string _ _ => 1

def Ok : Piece → Prop
  | .char c => c ≠ 0 ∧ c ≠ 0x25
  | .plain _ c => c ≠ 0 ∧ isDigit c = false ∧ c ∉ conversions
  | .string _ cs => (∀ c ∈ cs, c ≠ 0) ∧ cs.length < stringFuel
  | _ => True

theorem Ok.item {piece : Piece} (h : piece.Ok) : piece.item.Ok := by
  cases piece with
  | char c => exact h
  | plain w c => exact ⟨h.1, h.2.1⟩
  | int w conv value =>
      change conv.byte ≠ 0 ∧ isDigit conv.byte = false
      cases conv <;> decide
  | double w lo hi => exact (by decide : (0x66 : Byte) ≠ 0 ∧ isDigit 0x66 = false)
  | arg w value => exact (by decide : (0x63 : Byte) ≠ 0 ∧ isDigit 0x63 = false)
  | string w cs => exact (by decide : (0x73 : Byte) ≠ 0 ∧ isDigit 0x73 = false)

end Piece

/-! ## Their text -/

/-- A capital hexadecimal digit. -/
def upperDigit (d : Nat) : Byte :=
  if d < 10 then BitVec.ofNat 8 (0x30 + d) else BitVec.ofNat 8 (0x41 + d - 10)

/-- A number in base 16 with capitals. -/
def upperText (n : Nat) : List Byte := ((digitsOf 16 n).map upperDigit).reverse

/-- `cs`, filled up on the left to `n` characters. -/
def padLeft (n : Nat) (fill : Byte) (cs : List Byte) : List Byte :=
  List.replicate (n - cs.length) fill ++ cs

/-- The first digits of a fraction. -/
def fractionText (fpu : Doubles) : Nat → fpu.Double → List Byte
  | 0, _ => []
  | n + 1, x =>
      let x := fpu.timesTen x
      (0x30 + fpu.toInt x).setWidth 8 ::
        fractionText fpu n (fpu.sub x (fpu.ofInt (fpu.toInt x)))

/-- The six digits behind the point, up to a NUL: a fraction that is no number may have
one. -/
def fractionDigits (fpu : Doubles) (value : fpu.Double) : List Byte :=
  (fractionText fpu 6 (fpu.sub value (fpu.ofInt (fpu.toInt value)))).takeWhile (· ≠ 0)

/-- How the text of a piece is made: `decimal` writes an `int` in base 10, `width` reads
the digits of a width. -/
structure Rendering where
  decimal : Word → List Byte
  width : List (Fin 10) → Nat

def IntConv.text (r : Rendering) : IntConv → Word → List Byte
  | .d, value => r.decimal value
  | .i, value => r.decimal value
  | .x, value => numberText 16 value.toNat
  | .upperX, value => upperText value.toNat
  | .b, value => numberText 2 value.toNat

def Piece.text (fpu : Doubles) (r : Rendering) : Piece → List Byte
  | .char c => [c]
  | .plain _ c => [c]
  | .int w conv value => padLeft (r.width w.digits) w.fill (conv.text r value)
  | .double w lo hi =>
      let value := fpu.ofWords lo hi
      padLeft (r.width w.digits) w.fill (r.decimal (fpu.toInt value)) ++
        0x2e :: fractionDigits fpu value
  | .arg _ value => [value.setWidth 8]
  | .string _ cs => cs

/-- The text of an argument list over its format. -/
def textOfPieces (fpu : Doubles) (r : Rendering) (pieces : List Piece) : List Byte :=
  pieces.flatMap (Piece.text fpu r)

/-- What `printf` does: every `int` is read as unsigned, and a width as a `size_t`. -/
def unsignedRendering : Rendering where
  decimal := fun value => numberText 10 value.toNat
  width := fun ds => numeral ds % 2 ^ 32

/-- An `int` in base 10, with its sign. -/
def signedText (value : Word) : List Byte :=
  if value.toInt < 0 then 0x2d :: numberText 10 value.toInt.natAbs
  else numberText 10 value.toInt.natAbs

/-- What the directives stand for. -/
def signedRendering : Rendering where
  decimal := signedText
  width := numeral

/-! ## Memory -/

/-- The bytes of the two buffers. -/
def PrintfFrame.Inside (frame : PrintfFrame) (a : Nat) : Prop :=
  (frame.str ≤ a ∧ a < frame.str + vgaScrSize) ∨
    (frame.helperStr ≤ a ∧ a < frame.helperStr + helperLen)

/-- The two buffers share no byte. -/
def PrintfFrame.Apart (frame : PrintfFrame) : Prop :=
  frame.str + vgaScrSize ≤ frame.helperStr ∨ frame.helperStr + helperLen ≤ frame.str

/-- The `n` bytes at `a` and the one behind them are in neither buffer. -/
def PrintfFrame.Clear (frame : PrintfFrame) (a n : Nat) : Prop :=
  ∀ b, a ≤ b → b ≤ a + n → ¬ frame.Inside b

/-- The argument of a piece is in the words from `ap` on. -/
def Piece.ArgAt (frame : PrintfFrame) (m : Memory) (args : Nat → Nat) (ap : Nat) : Piece → Prop
  | .int _ _ value => BitVec.ofNat 32 (args ap) = value
  | .double _ lo hi => args ap = lo ∧ args (ap + 1) = hi
  | .arg _ value => BitVec.ofNat 32 (args ap) = value
  | .string _ cs => StrAt m (args ap) cs ∧ frame.Clear (args ap) cs.length
  | _ => True

/-- The arguments, from left to right. -/
def ArgsAt (frame : PrintfFrame) (m : Memory) (args : Nat → Nat) : Nat → List Piece → Prop
  | _, [] => True
  | ap, piece :: pieces =>
      piece.ArgAt frame m args ap ∧ ArgsAt frame m args (ap + piece.words) pieces

end DonutOS.Libc
