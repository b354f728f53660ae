import DonutOS.Foundation.Memory

set_option autoImplicit false

/-!
# Kernel: the keyboard (`kernel/src/kb.c`)

The handler of the keyboard interrupt: a scancode goes through a table to a key
code, which the handler of the keys gets.
-/

namespace DonutOS.Kernel

open DonutOS.Foundation

/-! ## The key codes of `kb.h` -/

def keyNull : Byte := 0
def keyEsc : Byte := 27
def keyBackspace : Byte := 0x08
def keyTab : Byte := 0x09
def keyEnter : Byte := 0x0a
def keyInsert : Byte := 0x90
def keyDelete : Byte := 0x91
def keyHome : Byte := 0x92
def keyEnd : Byte := 0x93
def keyPageUp : Byte := 0x94
def keyPageDown : Byte := 0x95
def keyLeft : Byte := 0x4b
def keyUp : Byte := 0x48
def keyRight : Byte := 0x4d
def keyDown : Byte := 0x50
def keyF1 : Byte := 0x80
def keyLctrl : Byte := 0x1d
def keyLalt : Byte := 0x38
def keyLshift : Byte := 0x2a
def keyRshift : Byte := 0x36
def keyCapsLock : Byte := 0x3a
def keyScrollLock : Byte := 0x46
def keyNumLock : Byte := 0x45

/-! ## `kb_layout_us` -/

/-- Characters as key codes. -/
def chars (cs : List Char) : List Byte := cs.map fun c => BitVec.ofNat 8 c.toNat

/-- `KEY_F1` to `KEY_F10`. -/
def keyF1ToF10 : List Byte := (List.range 10).map fun i => keyF1 + BitVec.ofNat 8 i

/-- The end of both halves of the table, from the space bar on. -/
def kbLayoutEnd : List Byte :=
  chars [' '] ++ [0] ++ keyF1ToF10 ++ [0, 0, keyHome, keyUp, keyPageUp] ++ chars ['-'] ++
    [keyLeft] ++ chars ['5'] ++ [keyRight] ++ chars ['+'] ++
    [keyEnd, keyDown, keyPageDown, keyInsert, keyDelete, 0, 0, 0, keyF1 + 10, keyF1 + 11]

def kbLayoutPlain : List Byte :=
  [keyNull, keyEsc] ++
    chars ['1', '2', '3', '4', '5', '6', '7', '8', '9', '0', '-', '='] ++
    [keyBackspace, keyTab] ++
    chars ['q', 'w', 'e', 'r', 't', 'y', 'u', 'i', 'o', 'p', '[', ']'] ++
    [keyEnter, 0] ++ chars ['a', 's', 'd', 'f', 'g', 'h', 'j', 'k', 'l', ';'] ++
    -- apostrophe, backtick, and the backslash behind the shift key
    [0x27, 0x60, keyLshift, 0x5c] ++
    chars ['z', 'x', 'c', 'v', 'b', 'n', 'm', ',', '.', '/'] ++
    [keyLshift, 0, 0] ++ kbLayoutEnd

def kbLayoutShift : List Byte :=
  [keyNull, keyEsc] ++
    chars ['!', '@', '#', '$', '%', '^', '&', '*', '(', ')', '_', '+'] ++
    [keyBackspace, keyTab] ++
    chars ['Q', 'W', 'E', 'R', 'T', 'Y', 'U', 'I', 'O', 'P'] ++ [0x7b, 0x7d] ++
    [keyEnter, 0] ++ chars ['A', 'S', 'D', 'F', 'G', 'H', 'J', 'K', 'L', ':'] ++
    -- quotation mark, and the bar behind the shift key
    [0x22] ++ chars ['~'] ++ [keyLshift] ++ chars ['|'] ++
    chars ['Z', 'X', 'C', 'V', 'B', 'N', 'M', '<', '>', '?'] ++
    [keyRshift, 0, 0] ++ kbLayoutEnd

/-- `kb_layout_us[i][key]`; the rest of the 128 entries is zero. -/
def kbLayoutUs (i : Bool) (key : Byte) : Byte :=
  (bif i then kbLayoutShift else kbLayoutPlain).getD key.toNat 0

/-! ## The handler -/

/-- `mods`. -/
structure Mods where
  shift : Bool
  ctrl : Bool
  alt : Bool
  numLock : Bool
  capsLock : Bool
  scrollLock : Bool
  deriving DecidableEq, Repr, Inhabited

/-- The globals of `kb.c`.  Of `kb_key_handler` only whether it is `NULL` decides anything
here. -/
structure Kb where
  mods : Mods
  lastKey : Byte
  keyHandler : Bool
  deriving DecidableEq, Repr, Inhabited

/-- The function `__kb_handler` calls. -/
inductive KbCall
  | none
  | procKbDebug (key : Byte)
  | keyHandler (key : Byte)
  deriving DecidableEq, Repr

/-- The row of `kb_layout_us`. -/
def Mods.layout (mods : Mods) : Bool := Bool.xor mods.capsLock mods.shift

/-- `__kb_handler`, on a scancode read from the port. -/
def kbHandler (scancode : Byte) (kb : Kb) : Kb × KbCall :=
  let key := scancode &&& 0x7f
  let isRelease : Bool := decide (0x80 < scancode.toNat)
  let kb := { kb with lastKey := key }
  let mods := kb.mods
  if key = keyLshift then ({ kb with mods := { mods with shift := !isRelease } }, .none)
  else if key = keyNumLock then
    ({ kb with mods := { mods with numLock := Bool.xor mods.numLock isRelease } }, .none)
  else if key = keyCapsLock then
    ({ kb with mods := { mods with capsLock := Bool.xor mods.capsLock isRelease } }, .none)
  else if key = keyScrollLock then
    ({ kb with mods := { mods with scrollLock := Bool.xor mods.scrollLock isRelease } }, .none)
  else if key = keyLctrl then ({ kb with mods := { mods with ctrl := !isRelease } }, .none)
  else if key = keyLalt then ({ kb with mods := { mods with alt := !isRelease } }, .none)
  else if key = keyRshift then
    (kb, if isRelease then .procKbDebug (kbLayoutUs mods.layout key) else .none)
  else if kb.keyHandler && !isRelease then (kb, .keyHandler (kbLayoutUs mods.layout key))
  else (kb, .none)

/-- `kb_set_key_handler`. -/
def kbSetKeyHandler (handler : Bool) (kb : Kb) : Kb :=
  if kb.keyHandler = false ∨ handler = false then { kb with keyHandler := handler } else kb

end DonutOS.Kernel
