import DonutOS.Kernel.Tty
import DonutOS.Libc.Itoa

set_option autoImplicit false

/-!
# Libc: `printf` (`libc/src/printf.c`)

The format is constant data of the caller.  The arguments are the words behind it on the
stack: an `int` is the low 32 bits of a word, a pointer the whole of it and a `double`
two words.  The strings they point to and the two buffers of `printf` share one memory.
The state remembers which bytes of the format were read; no code reads that.
-/

namespace DonutOS.Libc

open DonutOS.Foundation DonutOS.Kernel

/-- `helper_len`. -/
def helperLen : Nat := 128

/-- Where the local arrays `str` and `helper_str` lie. -/
structure PrintfFrame where
  str : Nat
  helperStr : Nat
  deriving DecidableEq, Repr

/-- The arithmetic of the processor on `double`. -/
structure Doubles where
  Double : Type
  ofWords : Nat → Nat → Double
  toInt : Double → Word
  ofInt : Word → Double
  sub : Double → Double → Double
  timesTen : Double → Double

/-- The variables of `printf`, and the bytes of the format read so far. -/
structure PrintfState where
  st : Store
  s : Nat
  fmt : Nat
  ap : Nat
  reads : List Nat

/-! ## `str_to_upper` -/

/-- `*str >= 'a' && *str <= 'z'` -/
def isLower (c : Byte) : Bool := 0x61 ≤ c.toInt && c.toInt ≤ 0x7a

/-- `*str - 'a' + 'A'`, of small letters only. -/
def upper (c : Byte) : Byte := if isLower c then c - 0x61 + 0x41 else c

def strToUpperLoop : Nat → Nat → Store → Store
  | 0, _, st => st
  | fuel + 1, str, st =>
      if st.bytes str ≠ 0 then
        let st := if isLower (st.bytes str) then st.put str (upper (st.bytes str)) else st
        strToUpperLoop fuel (str + 1) st
      else st

/-- `str_to_upper`. -/
def strToUpper (str : Nat) (st : Store) : Store := strToUpperLoop stringFuel str st

/-! ## What the directives print -/

/-- `*s = c; s++;` -/
def putChar (c : Byte) (p : PrintfState) : PrintfState :=
  { p with st := p.st.put p.s c, s := p.s + 1 }

/-- The text in `helper_str`, behind its padding. -/
def putHelper (frame : PrintfFrame) (leadingChar : Byte) (leadingLen : Nat) (p : PrintfState) :
    PrintfState :=
  let valueLen := strlen p.st.bytes frame.helperStr
  let st :=
    if valueLen < leadingLen then memset p.s leadingChar (leadingLen - valueLen) p.st else p.st
  let s := if valueLen < leadingLen then p.s + (leadingLen - valueLen) else p.s
  { p with st := strcpy s frame.helperStr st, s := s + valueLen }

/-- `itoa` into `helper_str`. -/
def itoaHelper (frame : PrintfFrame) (base : Word) (value : Word) (p : PrintfState) :
    PrintfState :=
  { p with st := (itoa value frame.helperStr (BitVec.ofNat 32 helperLen) base p.st).2 }

/-- `va_arg(ap, int)`, without moving on. -/
def argInt (args : Nat → Nat) (p : PrintfState) : Word := BitVec.ofNat 32 (args p.ap)

/-- `ap` behind the next `n` words. -/
def PrintfState.take (n : Nat) (p : PrintfState) : PrintfState := { p with ap := p.ap + n }

/-- The cases `d`, `i`, `x` and `b`. -/
def putInt (frame : PrintfFrame) (args : Nat → Nat) (base : Word) (leadingChar : Byte)
    (leadingLen : Nat) (p : PrintfState) : PrintfState :=
  putHelper frame leadingChar leadingLen (itoaHelper frame base (argInt args p) (p.take 1))

/-- The case `X`. -/
def putUpper (frame : PrintfFrame) (args : Nat → Nat) (leadingChar : Byte) (leadingLen : Nat)
    (p : PrintfState) : PrintfState :=
  let p := itoaHelper frame 16 (argInt args p) (p.take 1)
  putHelper frame leadingChar leadingLen { p with st := strToUpper frame.helperStr p.st }

/-- The case `s`.  The string is measured after it was copied. -/
def putString (args : Nat → Nat) (p : PrintfState) : PrintfState :=
  let tmp := args p.ap
  let st := strcpy p.s tmp p.st
  { p.take 1 with st := st, s := p.s + strlen st.bytes tmp }

/-- A digit of the fraction. -/
def fractionRound (fpu : Doubles) (helperStr i : Nat) (x : fpu.Double × Store) :
    fpu.Double × Store :=
  let fractionPart := fpu.timesTen x.1
  let digit := fpu.toInt fractionPart
  (fpu.sub fractionPart (fpu.ofInt digit), x.2.put (helperStr + i) ((0x30 + digit).setWidth 8))

/-- The case `f`. -/
def putDouble (fpu : Doubles) (frame : PrintfFrame) (args : Nat → Nat) (leadingChar : Byte)
    (leadingLen : Nat) (p : PrintfState) : PrintfState :=
  let value := fpu.ofWords (args p.ap) (args (p.ap + 1))
  let intPart := fpu.toInt value
  let fractionPart := fpu.sub value (fpu.ofInt intPart)
  let p := putHelper frame leadingChar leadingLen (itoaHelper frame 10 intPart (p.take 2))
  let p := putChar 0x2e p
  let st := (forLoop (fractionRound fpu frame.helperStr) 0 6 (fractionPart, p.st)).2
  let st := st.put (frame.helperStr + 6) 0
  let valueLen := strlen st.bytes frame.helperStr
  { p with st := strcpy p.s frame.helperStr st, s := p.s + valueLen }

/-- The `switch`. -/
def putDirective (fpu : Doubles) (frame : PrintfFrame) (args : Nat → Nat) (c leadingChar : Byte)
    (leadingLen : Nat) (p : PrintfState) : PrintfState :=
  if c = 0x25 then putChar 0x25 p
  else if c = 0x69 ∨ c = 0x64 then putInt frame args 10 leadingChar leadingLen p
  else if c = 0x78 then putInt frame args 16 leadingChar leadingLen p
  else if c = 0x58 then putUpper frame args leadingChar leadingLen p
  else if c = 0x62 then putInt frame args 2 leadingChar leadingLen p
  else if c = 0x66 then putDouble fpu frame args leadingChar leadingLen p
  else if c = 0x63 then putChar ((argInt args p).setWidth 8) (p.take 1)
  else if c = 0x73 then putString args p
  else putChar c p

/-! ## The format loop -/

/-- `fmt = a`, and `*fmt` is read. -/
def PrintfState.readAt (a : Nat) (p : PrintfState) : PrintfState :=
  { p with fmt := a, reads := a :: p.reads }

/-- A digit of the width goes to `helper_str[i]`. -/
def widthRound (frame : PrintfFrame) (text : Memory) (i : Nat) (p : PrintfState) : PrintfState :=
  let p := { p with st := p.st.put (frame.helperStr + i) (text p.fmt) }
  p.readAt (p.fmt + 1)

/-- The digits of the width, and the NUL if there is room for it. -/
def readDigits (frame : PrintfFrame) (text : Memory) (p : PrintfState) : PrintfState :=
  let i := span text isDigit p.fmt
  let p := forLoop (widthRound frame text) 0 i p
  { p with st := if i < helperLen then p.st.put (frame.helperStr + i) 0 else p.st }

/-- From the `%` on: the zero flag and the width. -/
def readWidth (frame : PrintfFrame) (text : Memory) (p : PrintfState) : PrintfState :=
  let p := p.readAt (p.fmt + 1)
  let p := { p with fmt := if text p.fmt = 0x30 then p.fmt + 1 else p.fmt }
  readDigits frame text (p.readAt p.fmt)

/-- `leading_len`: the `int` of `atoi` becomes a `size_t`. -/
def leadingLen (frame : PrintfFrame) (st : Store) : Nat :=
  if st.bytes frame.helperStr ≠ 0 then (atoi st.bytes frame.helperStr % 2 ^ 32).toNat else 0

/-- A directive, from its `%` on. -/
def printfDirective (fpu : Doubles) (frame : PrintfFrame) (text : Memory) (args : Nat → Nat)
    (p : PrintfState) : PrintfState :=
  let leadingChar : Byte := if text (p.fmt + 1) = 0x30 then 0x30 else 0x20
  let p := readWidth frame text p
  putDirective fpu frame args (text p.fmt) leadingChar (leadingLen frame p.st) p

/-- A round of the loop. -/
def printfRound (fpu : Doubles) (frame : PrintfFrame) (text : Memory) (args : Nat → Nat)
    (p : PrintfState) : PrintfState :=
  let p :=
    if text p.fmt ≠ 0x25 then putChar (text p.fmt) p else printfDirective fpu frame text args p
  { p with fmt := p.fmt + 1 }

/-- The loop; `none` when it does not end within the rounds. -/
def printfLoop (fpu : Doubles) (frame : PrintfFrame) (text : Memory) (args : Nat → Nat) :
    Nat → PrintfState → Option PrintfState
  | 0, _ => none
  | fuel + 1, p =>
      let p := p.readAt p.fmt
      if text p.fmt ≠ 0 then printfLoop fpu frame text args fuel (printfRound fpu frame text args p)
      else some p

/-- What `printf` returns and leaves. -/
structure Printed where
  result : Int
  final : PrintfState
  screen : Screen

/-- The state before the loop. -/
def printfStart (frame : PrintfFrame) (fmt : Nat) (st : Store) : PrintfState :=
  ⟨st, frame.str, fmt, 0, []⟩

/-- `printf`; `none` when it does not return.  A loop with more rounds than the address
space has bytes never ends. -/
def printf (fpu : Doubles) (frame : PrintfFrame) (text : Memory) (fmt : Nat) (args : Nat → Nat)
    (st : Store) (screen : Screen) : Option Printed :=
  let start := printfStart frame fmt st
  if fmt = 0 then some ⟨-1, start, screen⟩
  else
    match printfLoop fpu frame text args stringFuel start with
    | none => none
    | some p =>
        let p := { p with st := p.st.put p.s 0 }
        let shown := ttyPuts p.st.bytes frame.str screen
        some ⟨shown.2, p, shown.1⟩

end DonutOS.Libc
