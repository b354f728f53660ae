import DonutOS.Kernel.Kb

set_option autoImplicit false

/-!
# Kernel: the keyboard of a typist (`kernel/src/kb.c`)

Which keys of the US layout type which characters, and what the handler of the
keyboard makes of them.
-/

namespace DonutOS.Kernel

open DonutOS.Foundation

/-! ## The US layout -/

/-- A row of keys: the scancode of the first, the characters without and with shift. -/
structure UsRow where
  first : Nat
  plain : List Byte
  shifted : List Byte

/-- The keys of the layout that type a character.  The quotation marks and the other
characters that are not written as such are `'`, `"`, the backtick, the backslash and
the curly brackets. -/
def usRows : List UsRow :=
  [⟨0x02, chars ['1', '2', '3', '4', '5', '6', '7', '8', '9', '0', '-', '='],
    chars ['!', '@', '#', '$', '%', '^', '&', '*', '(', ')', '_', '+']⟩,
   ⟨0x10, chars ['q', 'w', 'e', 'r', 't', 'y', 'u', 'i', 'o', 'p', '[', ']'],
    chars ['Q', 'W', 'E', 'R', 'T', 'Y', 'U', 'I', 'O', 'P'] ++ [0x7b, 0x7d]⟩,
   ⟨0x1e, chars ['a', 's', 'd', 'f', 'g', 'h', 'j', 'k', 'l', ';'] ++ [0x27, 0x60],
    chars ['A', 'S', 'D', 'F', 'G', 'H', 'J', 'K', 'L', ':'] ++ [0x22] ++ chars ['~']⟩,
   ⟨0x2b, [0x5c] ++ chars ['z', 'x', 'c', 'v', 'b', 'n', 'm', ',', '.', '/'],
    chars ['|', 'Z', 'X', 'C', 'V', 'B', 'N', 'M', '<', '>', '?']⟩,
   ⟨0x39, chars [' '], chars [' ']⟩]

/-- The character of a key. -/
def usKey (shifted : Bool) (scancode : Byte) : Option Byte :=
  usRows.findSome? fun row =>
    if row.first ≤ scancode.toNat then
      (bif shifted then row.shifted else row.plain)[scancode.toNat - row.first]?
    else none

def isLetter (c : Byte) : Bool :=
  (0x41 ≤ c.toNat && c.toNat ≤ 0x5a) || (0x61 ≤ c.toNat && c.toNat ≤ 0x7a)

/-- Caps lock stands for the shift key on the keys of the letters. -/
def needsShift (capsLock shifted : Bool) (c : Byte) : Bool :=
  Bool.xor shifted (capsLock && isLetter c)

/-- Every printable character has a key. -/
theorem exists_usKey (c : Byte) (hlo : 0x20 ≤ c.toNat) (hhi : c.toNat ≤ 0x7e) :
    ∃ shifted scancode, usKey shifted scancode = some c := by
  have hall : ∀ c : Byte, 0x20 ≤ c.toNat → c.toNat ≤ 0x7e →
      (List.range 128).any (fun i => usKey false (BitVec.ofNat 8 i) == some c ||
        usKey true (BitVec.ofNat 8 i) == some c) = true := by decide +kernel
  obtain ⟨i, -, hi⟩ := List.any_eq_true.mp (hall c hlo hhi)
  rcases Bool.or_eq_true_iff.mp hi with hi | hi
  · exact ⟨false, _, beq_iff_eq.mp hi⟩
  · exact ⟨true, _, beq_iff_eq.mp hi⟩

/-! ## The handler -/

/-- The keys that `__kb_handler` does not pass on. -/
def modifierKeys : List Byte :=
  [keyLshift, keyNumLock, keyCapsLock, keyScrollLock, keyLctrl, keyLalt, keyRshift]

theorem kbHandler_shift (down : Bool) (kb : Kb) :
    kbHandler (bif down then 0x2a else 0xaa) kb =
      ({ kb with lastKey := keyLshift, mods := { kb.mods with shift := down } }, .none) := by
  cases down with
  | false => rfl
  | true => rfl

theorem kbHandler_of_key {scancode key : Byte} {isRelease : Bool}
    (hkey : scancode &&& 0x7f = key) (hrelease : decide (0x80 < scancode.toNat) = isRelease)
    (hmodifier : key ∉ modifierKeys) (kb : Kb) :
    kbHandler scancode kb = ({ kb with lastKey := key },
      if kb.keyHandler && !isRelease then .keyHandler (kbLayoutUs kb.mods.layout key)
      else .none) := by
  simp only [modifierKeys, List.mem_cons, List.not_mem_nil, or_false, not_or] at hmodifier
  obtain ⟨hlshift, hnum, hcaps, hscroll, hlctrl, hlalt, hrshift⟩ := hmodifier
  unfold kbHandler
  simp only [hkey, hrelease, if_neg hlshift, if_neg hnum, if_neg hcaps, if_neg hscroll,
    if_neg hlctrl, if_neg hlalt, if_neg hrshift]
  split
  · rfl
  · rfl

/-- The make code of a key, while somebody waits for keys. -/
theorem kbHandler_make {key : Byte} (hkey : key.toNat < 0x80) (hmodifier : key ∉ modifierKeys)
    {kb : Kb} (hhandler : kb.keyHandler = true) :
    kbHandler key kb =
      ({ kb with lastKey := key }, .keyHandler (kbLayoutUs kb.mods.layout key)) := by
  have hmask : ∀ key : Byte, key.toNat < 0x80 → key &&& 0x7f = key := by decide +kernel
  rw [kbHandler_of_key (hmask key hkey) (decide_eq_false (by omega)) hmodifier, hhandler]
  rfl

/-- The break code of a key. -/
theorem kbHandler_break {key : Byte} (hpos : 0 < key.toNat) (hkey : key.toNat < 0x80)
    (hmodifier : key ∉ modifierKeys) (kb : Kb) :
    kbHandler (key ||| 0x80) kb = ({ kb with lastKey := key }, .none) := by
  have hcode : ∀ key : Byte, 0 < key.toNat → key.toNat < 0x80 →
      (key ||| 0x80) &&& 0x7f = key ∧ decide (0x80 < (key ||| 0x80).toNat) = true := by
    decide +kernel
  obtain ⟨hmask, hrelease⟩ := hcode key hpos hkey
  rw [kbHandler_of_key hmask hrelease hmodifier, Bool.not_true, Bool.and_false]
  rfl

/-- The handler passes keys on only to somebody who waits, and goes on to do so. -/
theorem kbHandler_keyHandler (scancode : Byte) (kb : Kb) :
    (kbHandler scancode kb).1.keyHandler = kb.keyHandler ∧
      ∀ key, (kbHandler scancode kb).2 = .keyHandler key → kb.keyHandler = true := by
  unfold kbHandler
  simp only []
  split
  · exact ⟨rfl, fun _ h => nomatch h⟩
  split
  · exact ⟨rfl, fun _ h => nomatch h⟩
  split
  · exact ⟨rfl, fun _ h => nomatch h⟩
  split
  · exact ⟨rfl, fun _ h => nomatch h⟩
  split
  · exact ⟨rfl, fun _ h => nomatch h⟩
  split
  · exact ⟨rfl, fun _ h => nomatch h⟩
  split
  · refine ⟨rfl, fun _ h => ?_⟩
    revert h
    split
    · exact fun h => nomatch h
    · exact fun h => nomatch h
  split
  · next hwaits => exact ⟨rfl, fun _ _ => (Bool.and_eq_true_iff.mp hwaits).1⟩
  · exact ⟨rfl, fun _ h => nomatch h⟩

end DonutOS.Kernel
