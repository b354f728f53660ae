import DonutOS.Libc.Str
import Mathlib.Logic.Function.Basic

set_option autoImplicit false

/-!
# Kernel: output on the screen (`kernel/src/vga.c`, `kernel/src/tty.c`)

The screen is a flat array of cells, a character in the low byte and its colour
in the high byte, with a flat cursor.  `size_t` values are naturals below `2 ^ 32`
that wrap.
-/

namespace DonutOS.Kernel

open DonutOS.Foundation DonutOS.Libc

/-- `VGA_HEIGHT`. -/
def vgaHeight : Nat := 25

/-- `VGA_WIDTH`. -/
def vgaWidth : Nat := 80

/-- `VGA_SCR_SIZE`. -/
def vgaScrSize : Nat := vgaHeight * vgaWidth

/-- A cell of the screen. -/
abbrev Entry := BitVec 16

/-- The globals of `tty.c` that output uses, `lock_ctx`, and the position in the
registers of the hardware cursor. -/
structure Screen where
  ttyBuffer : Nat → Entry
  ttyPtr : Nat
  ttyColor : BitVec 16
  lockCtx : Nat
  cursor : Nat

/-! ## `vga.c` -/

/-- `vga_color`; the enumeration is an `unsigned int`. -/
def vgaColor (fg bg : Word) : BitVec 16 := (bg <<< 4 ||| fg).setWidth 16

/-- `vga_entry`. -/
def vgaEntry (c color : BitVec 16) : Entry := color <<< 8 ||| c

/-- `vga_move_cursor_to`: the two low bytes go to the ports. -/
def vgaMoveCursorTo (index : Nat) (s : Screen) : Screen := { s with cursor := index % 2 ^ 16 }

/-! ## `tty.c` -/

/-- `CRITICAL_SECTION_START`. -/
def criticalSectionStart (s : Screen) : Screen :=
  { s with lockCtx := (s.lockCtx + 1) % 2 ^ 8 }

/-- `CRITICAL_SECTION_END`. -/
def criticalSectionEnd (s : Screen) : Screen :=
  { s with lockCtx := (s.lockCtx + (2 ^ 8 - 1)) % 2 ^ 8 }

/-- `TTY_ROW`. -/
def ttyRow (s : Screen) : Nat := s.ttyPtr / vgaWidth

/-- `TTY_COL`. -/
def ttyCol (s : Screen) : Nat := s.ttyPtr % vgaWidth

/-- `tty_buffer[i] = entry`. -/
def setCell (i : Nat) (entry : Entry) (s : Screen) : Screen :=
  { s with ttyBuffer := Function.update s.ttyBuffer i entry }

/-- `tty_buffer[i] = vga_entry(tty_buffer[i + gap] & 0xFF, tty_color)`. -/
def shiftCell (gap i : Nat) (s : Screen) : Screen :=
  setCell i (vgaEntry (s.ttyBuffer (i + gap) &&& 0xff) s.ttyColor) s

/-- `tty_scroll`. -/
def ttyScroll (n : Int) (s : Screen) : Screen :=
  let gap := (n * vgaWidth % 2 ^ 32).toNat
  let entry := vgaEntry 0 s.ttyColor
  -- the other test, `gap < 0`, fails for every `size_t`
  let gap := if vgaScrSize < gap then vgaScrSize else gap
  let s :=
    if 0 ≤ n then
      let s := criticalSectionStart s
      let s := forLoop (shiftCell gap) 0 (vgaScrSize - gap) s
      let s := forLoop (fun i => setCell i entry) (vgaScrSize - gap) gap s
      criticalSectionEnd s
    else s
  { s with ttyPtr := (s.ttyPtr + (2 ^ 32 - gap)) % 2 ^ 32 }

/-- `tty_set_color`. -/
def ttySetColor (fg bg : Word) (s : Screen) : Screen :=
  ttyScroll 0 { s with ttyColor := vgaColor fg bg }

/-- `tty_update_cursor`.  The argument of `tty_scroll` is computed in `size_t` and
converted to `int`. -/
def ttyUpdateCursor (s : Screen) : Screen :=
  let s :=
    if vgaScrSize ≤ s.ttyPtr then
      ttyScroll (Int.bmod ((ttyRow s : Int) - vgaHeight + 1) (2 ^ 32)) s
    else s
  vgaMoveCursorTo s.ttyPtr s

/-- `__tty_write_char`. -/
def ttyWriteChar (c : BitVec 16) (s : Screen) : Screen :=
  let s := criticalSectionStart s
  let s :=
    if c = 0x0a then { s with ttyPtr := (s.ttyPtr + (vgaWidth - ttyCol s)) % 2 ^ 32 }
    else if c = 0x0d then { s with ttyPtr := s.ttyPtr - ttyCol s }
    else if c = 0x08 then { s with ttyPtr := (s.ttyPtr + (2 ^ 32 - 1)) % 2 ^ 32 }
    else
      let entry := vgaEntry c s.ttyColor
      { setCell s.ttyPtr entry s with ttyPtr := (s.ttyPtr + 1) % 2 ^ 32 }
  criticalSectionEnd s

/-- `tty_putc`. -/
def ttyPutc (c : BitVec 16) (s : Screen) : Screen := ttyUpdateCursor (ttyWriteChar c s)

/-- `__tty_clear_scr`. -/
def ttyClearScr (s : Screen) : Screen :=
  let entry := vgaEntry 0x20 s.ttyColor
  let s := forLoop (fun i => setCell i entry) 0 vgaScrSize s
  ttyUpdateCursor { s with ttyPtr := 0 }

/-- The last character of an escape sequence and its number. -/
def ttyEscape (c : Byte) (x : Int) (s : Screen) : Screen :=
  if c = 0x41 then { s with ttyPtr := ((s.ttyPtr - vgaWidth * x) % 2 ^ 32).toNat }
  else if c = 0x42 then { s with ttyPtr := ((s.ttyPtr + vgaWidth * x) % 2 ^ 32).toNat }
  else if c = 0x43 then { s with ttyPtr := ((s.ttyPtr + x) % 2 ^ 32).toNat }
  else if c = 0x44 then { s with ttyPtr := ((s.ttyPtr - x) % 2 ^ 32).toNat }
  else if c = 0x48 then { s with ttyPtr := 0 }
  else s

/-- The loop of `tty_puts` over the string at `str`, and where it ends. -/
def ttyPutsLoop (m : Memory) : Nat → Nat → Screen → Screen × Nat
  | 0, str, s => (s, str)
  | fuel + 1, str, s =>
      if m str = 0 then (s, str)
      else if m str ≠ 0x1b then
        -- a `char` is signed
        ttyPutsLoop m fuel (str + 1) (ttyWriteChar ((m str).signExtend 16) s)
      else
        let str := str + 1
        if m str = 0x5b then
          let str := str + 1
          let i := span m isDigit str
          -- `tmp` has 16 bytes; the model has room for any number of digits
          let tmp : Memory := fun j => if j < i then m (str + j) else 0
          let x := if tmp 0 ≠ 0 then atoi tmp 0 else 0
          let str := str + i
          ttyPutsLoop m fuel (str + 1) (ttyEscape (m str) x s)
        else ttyPutsLoop m fuel (str + 1) s

/-- `tty_puts`; the number is what it returns. -/
def ttyPuts (m : Memory) (str : Nat) (s : Screen) : Screen × Nat :=
  let (s, last) := ttyPutsLoop m stringFuel str s
  (ttyUpdateCursor s, last - str)

end DonutOS.Kernel
