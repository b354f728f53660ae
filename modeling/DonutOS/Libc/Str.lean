import DonutOS.Foundation.Loop
import DonutOS.Foundation.Store
import Mathlib.Data.Int.Basic

set_option autoImplicit false

/-!
# Libc: strings (`libc/src/string.c`, `libc/src/atoi.c`)

The functions over byte-addressed memory.  Addresses are naturals that do not
wrap.  A loop that ends at a NUL takes as many rounds as the address space has
bytes; a string is never longer.
-/

namespace DonutOS.Libc

open DonutOS.Foundation

/-- The rounds of a loop that looks for a NUL. -/
def stringFuel : Nat := 2 ^ 32

/-! ## `string.c` -/

/-- `((size_t*)dest)[i] = ((size_t*)src)[i]` for `n` words, from the first on. -/
def moveWords (dest src n : Nat) (st : Store) : Store :=
  forLoop (fun i st => st.putWord (dest + 4 * i) (readWord st.bytes (src + 4 * i))) 0 n st

/-- `dest[i] = src[i]` for `n` bytes. -/
def moveBytes (dest src n : Nat) (st : Store) : Store :=
  forLoop (fun i st => st.put (dest + i) (st.bytes (src + i))) 0 n st

/-- `memcpy`: words, then the remaining bytes. -/
def memcpy (dest src size : Nat) (st : Store) : Store :=
  moveBytes (dest + 4 * (size / 4)) (src + 4 * (size / 4)) (size % 4)
    (moveWords dest src (size / 4) st)

/-- `memmove`. -/
def memmove (dest src n : Nat) (st : Store) : Store :=
  if src = dest ∨ n = 0 then st
  else if src < dest ∧ dest - src < n then
    -- word by word in reverse order, but the remaining bytes last
    let st := downLoop (fun i st =>
      st.putWord (dest + 4 * (i - 1)) (readWord st.bytes (src + 4 * (i - 1)))) (n / 4) (n / 4) st
    moveBytes (dest + 4 * (n / 4)) (src + 4 * (n / 4)) (n % 4) st
  else if dest < src ∧ src - dest < n then
    let st := moveWords dest src (n / 4) st
    moveBytes (dest + 4 * (n / 4)) (src + 4 * (n / 4)) (n % 4) st
  else memcpy dest src n st

/-- `c_arch`: a word with `c` in every byte. -/
def cArch (c : Byte) : Nat := forLoop (fun i cArch => cArch ||| c.toNat <<< (i * 8)) 0 4 0

/-- `((size_t*)ptr)[i] = v` for `n` words. -/
def setWords (ptr v n : Nat) (st : Store) : Store :=
  forLoop (fun i st => st.putWord (ptr + 4 * i) v) 0 n st

/-- `ptr[i] = c` for `n` bytes. -/
def setBytes (ptr : Nat) (c : Byte) (n : Nat) (st : Store) : Store :=
  forLoop (fun i st => st.put (ptr + i) c) 0 n st

/-- `memset`: words, then the remaining bytes. -/
def memset (ptr : Nat) (c : Byte) (n : Nat) (st : Store) : Store :=
  setBytes (ptr + 4 * (n / 4)) c (n % 4) (setWords ptr (cArch c) (n / 4) st)

def strlenLoop (m : Memory) (str : Nat) : Nat → Nat → Nat
  | 0, len => len
  | fuel + 1, len => if m (str + len) ≠ 0 then strlenLoop m str fuel (len + 1) else len

/-- `strlen`. -/
def strlen (m : Memory) (str : Nat) : Nat := strlenLoop m str stringFuel 0

/-- `strrev`. -/
def strrev (str : Nat) (st : Store) : Store :=
  let len := strlen st.bytes str
  forLoop (fun i st =>
    let tmp := st.bytes (str + i)
    let st := st.put (str + i) (st.bytes (str + (len - i - 1)))
    st.put (str + (len - i - 1)) tmp) 0 (len / 2) st

def strcpyLoop : Nat → Nat → Nat → Store → Store
  | 0, _, _, st => st
  | fuel + 1, d, s, st =>
      let c := st.bytes s
      let st := st.put d c
      if c ≠ 0 then strcpyLoop fuel (d + 1) (s + 1) st else st

/-- `strcpy`. -/
def strcpy (dest src : Nat) (st : Store) : Store := strcpyLoop stringFuel dest src st

def strcmpLoop (m : Memory) : Nat → Nat → Nat → Int
  | 0, _, _ => 0
  | fuel + 1, a, b =>
      if m a = m b then if m a = 0 then 0 else strcmpLoop m fuel (a + 1) (b + 1)
      else (m a).toInt - (m b).toInt

/-- `strcmp`. -/
def strcmp (m : Memory) (s1 s2 : Nat) : Int := strcmpLoop m stringFuel s1 s2

/-! ## `atoi.c` -/

/-- `'0' <= c && c <= '9'` -/
def isDigit (c : Byte) : Bool := 0x30 ≤ c.toInt && c.toInt ≤ 0x39

/-- The bytes from `str` on that satisfy `p`. -/
def spanLoop (m : Memory) (p : Byte → Bool) (str : Nat) : Nat → Nat → Nat
  | 0, len => len
  | fuel + 1, len => if p (m (str + len)) then spanLoop m p str fuel (len + 1) else len

def span (m : Memory) (p : Byte → Bool) (str : Nat) : Nat := spanLoop m p str stringFuel 0

/-- `atoi`; an `int` that overflows wraps. -/
def atoi (m : Memory) (str : Nat) : Int :=
  let str := str + span m (fun c => c == 0x20 || c == 0x0a || c == 0x0d) str
  let negative := m str == 0x2d
  let str := if m str = 0x2d ∨ m str = 0x2b then str + 1 else str
  let num := forLoop
    (fun i (num : Int) => Int.bmod (num * 10 + ((m (str + i)).toInt - 0x30)) (2 ^ 32))
    0 (span m isDigit str) 0
  if negative then Int.bmod (num * -1) (2 ^ 32) else num

end DonutOS.Libc
