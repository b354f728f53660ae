import DonutOS.Kernel.Kb
import DonutOS.Kernel.Tty

set_option autoImplicit false

/-!
# Kernel: input and history (`kernel/src/tty.c`)

The line editor of the shell.  Memory is counted from `tty_history`, whose rows the
editor writes, and holds the arrays of the callers of `tty_read` behind it.
-/

namespace DonutOS.Kernel

open DonutOS.Foundation DonutOS.Libc

/-- `TTY_INPUT_SIZE`. -/
def ttyInputSize : Nat := 512

/-- `TTY_HISTORY_SIZE`. -/
def ttyHistorySize : Nat := 16

/-- `sizeof(tty_history)`. -/
def sizeofTtyHistory : Nat := ttyHistorySize * ttyInputSize

/-- `tty_history[i]`. -/
def ttyHistory (i : Nat) : Nat := ttyInputSize * i

/-- The globals of `tty.c`, those of `kb.c`, and memory. -/
structure Tty where
  screen : Screen
  kb : Kb
  mem : Store
  promptPtr : Nat
  hasKeyReady : Bool
  lastKey : Byte
  stopRead : Bool
  inputBuf : Nat
  inputPtr : Nat
  inputLen : Nat
  historyPtr : Nat
  historyFst : Nat
  historyLst : Nat

/-- A function of the output half. -/
def Tty.onScreen (f : Screen → Screen) (s : Tty) : Tty := { s with screen := f s.screen }

/-- `-1` as a `size_t`. -/
def minusOne : Nat := 2 ^ 32 - 1

/-- `tty_init`; the colour is light grey on black. -/
def ttyInit (s : Tty) : Tty :=
  { s with
    stopRead := true, hasKeyReady := false
    historyPtr := 0, historyFst := minusOne, historyLst := minusOne
    screen := ttyClearScr { s.screen with ttyPtr := 0, ttyColor := 0x07 } }

/-! ## History -/

/-- The second half of `__history_new_buf`: the line at `history_ptr` becomes the
newest one, unless it is the newest already. -/
def historyCommit (s : Tty) : Tty :=
  let tmpPtr := ttyHistory s.historyPtr
  let sndLst := ttyHistory ((s.historyLst + minusOne) % 2 ^ 32 % ttyHistorySize)
  let lst := ttyHistory s.historyLst
  if s.mem.bytes lst ≠ 0 then
    if strcmp s.mem.bytes tmpPtr sndLst ≠ 0 then
      { s with
        mem := strcpy lst tmpPtr s.mem
        historyLst := (s.historyLst + 1) % ttyHistorySize }
    else { s with mem := s.mem.put lst 0 }
  else if strcmp s.mem.bytes tmpPtr sndLst ≠ 0 then
    { s with
      mem := strcpy lst tmpPtr s.mem
      historyLst := (s.historyLst + 1) % ttyHistorySize }
  else s

/-- Its end: a full ring gives up its oldest line. -/
def historyAdvance (s : Tty) : Tty :=
  { s with
    historyFst :=
      if s.historyFst = s.historyLst then (s.historyFst + 1) % ttyHistorySize else s.historyFst
    historyPtr := s.historyLst }

/-- `__history_new_buf`. -/
def historyNewBuf (s : Tty) : Tty :=
  if s.historyFst = minusOne ∧ s.historyLst = minusOne then
    { s with historyFst := 0, historyLst := 0 }
  else if s.mem.bytes (ttyHistory s.historyPtr) = 0 then s
  else historyAdvance (historyCommit s)

/-- The line at `tty_input_buf` on the screen, behind the prompt.  `tmp` is the length
of the line that was there. -/
def historyShow (tmp : Nat) (s : Tty) : Tty :=
  let screen := (ttyPuts s.mem.bytes s.inputBuf { s.screen with ttyPtr := s.promptPtr }).1
  let screen :=
    if s.inputLen < tmp then forLoop (fun _ => ttyWriteChar 0x20) 0 tmp screen else screen
  { s with screen := { screen with ttyPtr := (s.promptPtr + s.inputLen) % 2 ^ 32 } }

/-- `__history_move`. -/
def historyMove (offset : Int) (s : Tty) : Tty :=
  let mem := s.mem.put (s.inputBuf + s.inputLen) 0
  let historyPtr := ((s.historyPtr + offset) % 2 ^ 32).toNat % ttyHistorySize
  let inputLen := strlen mem.bytes (ttyHistory historyPtr)
  historyShow s.inputLen
    { s with
      mem := mem, historyPtr := historyPtr, inputBuf := ttyHistory historyPtr
      inputLen := inputLen, inputPtr := inputLen }

/-- `__history_next_buf`. -/
def historyNextBuf (s : Tty) : Tty :=
  if s.historyPtr ≠ s.historyLst then historyMove 1 s else s

/-- `__history_prev_buf`. -/
def historyPrevBuf (s : Tty) : Tty :=
  if s.historyPtr ≠ s.historyFst then historyMove (-1) s else s

/-! ## The keys -/

/-- `tty_ptr += d`, for a `d` that is converted to `size_t`. -/
def addPtr (d : Nat) (s : Screen) : Screen := { s with ttyPtr := (s.ttyPtr + d) % 2 ^ 32 }

/-- `KEY_LEFT`. -/
def handleLeft (s : Tty) : Tty :=
  if 0 < s.inputPtr ∧ s.inputPtr ≤ s.inputLen then
    { s with inputPtr := s.inputPtr - 1, screen := ttyUpdateCursor (addPtr minusOne s.screen) }
  else s

/-- `KEY_RIGHT`. -/
def handleRight (s : Tty) : Tty :=
  if s.inputPtr < s.inputLen then
    { s with inputPtr := s.inputPtr + 1, screen := ttyUpdateCursor (addPtr 1 s.screen) }
  else s

/-- `KEY_HOME`. -/
def handleHome (s : Tty) : Tty :=
  { s with
    inputPtr := 0, screen := ttyUpdateCursor (addPtr (2 ^ 32 - s.inputPtr) s.screen) }

/-- `KEY_END`. -/
def handleEnd (s : Tty) : Tty :=
  { s with
    inputPtr := s.inputLen
    screen := ttyUpdateCursor (addPtr (s.inputLen + 2 ^ 32 - s.inputPtr) s.screen) }

/-- `tty_buffer[i] = tty_buffer[i + 1]` for `lo <= i < hi`. -/
def shiftLeft (lo hi : Nat) (s : Screen) : Screen :=
  forLoop (fun i s => setCell i (s.ttyBuffer (i + 1)) s) lo (hi - lo) s

/-- The string of bytes `cs`. -/
def literal (cs : List Byte) : Memory := fun i => cs.getD i 0

/-- `KEY_BACKSPACE` inside the line. -/
def backspaceInside (s : Tty) : Tty :=
  let p := s.screen.ttyPtr
  let screen := shiftLeft ((p + minusOne) % 2 ^ 32) ((p + s.inputLen + minusOne) % 2 ^ 32) s.screen
  let screen := setCell ((p + s.inputLen) % 2 ^ 32) (vgaEntry 0x20 screen.ttyColor) screen
  { s with
    screen := ttyUpdateCursor (addPtr minusOne screen)
    mem := memmove (s.inputBuf + s.inputPtr - 1) (s.inputBuf + s.inputPtr)
      (s.inputLen - s.inputPtr) s.mem
    inputPtr := s.inputPtr - 1, inputLen := s.inputLen - 1 }

/-- `KEY_BACKSPACE`. -/
def handleBackspace (s : Tty) : Tty :=
  if 0 < s.inputLen ∧ 0 < s.inputPtr then
    if s.inputPtr = s.inputLen then
      { s with
        screen := (ttyPuts (literal [0x08, 0x20, 0x08]) 0 s.screen).1
        inputLen := s.inputLen - 1, inputPtr := s.inputPtr - 1 }
    else backspaceInside s
  else s

/-- `KEY_DELETE`. -/
def handleDelete (s : Tty) : Tty :=
  if 0 < s.inputLen ∧ s.inputPtr < s.inputLen then
    let p := s.screen.ttyPtr
    let last := (p + s.inputLen + minusOne) % 2 ^ 32
    let screen := shiftLeft p last s.screen
    let screen := setCell last (vgaEntry 0 screen.ttyColor) screen
    { s with
      screen := ttyUpdateCursor screen
      mem := memmove (s.inputBuf + s.inputPtr) (s.inputBuf + s.inputPtr + 1)
        (s.inputLen - s.inputPtr) s.mem
      inputLen := s.inputLen - 1 }
  else s

/-- A round of the loop that makes room for a character. -/
def makeRoom (i : Nat) (s : Tty) : Tty :=
  let p := s.screen.ttyPtr
  { s with
    mem := s.mem.put (s.inputBuf + i) (s.mem.bytes (s.inputBuf + i - 1))
    screen := setCell ((p + (i - s.inputPtr)) % 2 ^ 32)
      (s.screen.ttyBuffer ((p + (i - s.inputPtr - 1)) % 2 ^ 32)) s.screen }

/-- Any other key: the character is inserted. -/
def handleOther (key : Byte) (s : Tty) : Tty :=
  let s :=
    if s.inputPtr < s.inputLen then
      downLoop makeRoom s.inputLen (s.inputLen - s.inputPtr) s
    else s
  { s with
    inputLen := s.inputLen + 1
    mem := s.mem.put (s.inputBuf + s.inputPtr) key
    inputPtr := s.inputPtr + 1
    screen := ttyPutc (key.setWidth 16) s.screen }

/-- The `switch` of `__tty_handle_key`. -/
def handleKey (key : Byte) (s : Tty) : Tty :=
  if key = keyUp then historyPrevBuf s
  else if key = keyDown then historyNextBuf s
  else if key = keyLeft then handleLeft s
  else if key = keyRight then handleRight s
  else if key = keyHome then handleHome s
  else if key = keyEnd then handleEnd s
  else if key = keyBackspace then handleBackspace s
  else if key = keyDelete then handleDelete s
  else handleOther key s

/-! ## `tty_read` -/

/-- `__tty_read_key`. -/
def ttyReadKey (key : Byte) (s : Tty) : Tty := { s with hasKeyReady := true, lastKey := key }

/-- `__tty_handle_key`, once it has read the key. -/
def ttyEditKey (key : Byte) (s : Tty) : Tty :=
  let s := { s with stopRead := key == keyEnter }
  if key = keyEnter then s
  else ((handleKey key (s.onScreen criticalSectionStart)).onScreen criticalSectionEnd)

/-- `__tty_handle_key`. -/
def ttyHandleKey (s : Tty) : Tty :=
  let s := { s with hasKeyReady := false }
  ttyEditKey s.lastKey s

/-- `tty_read`, up to its loop. -/
def ttyReadStart (s : Tty) : Tty :=
  let s := historyNewBuf s
  let buf := ttyHistory s.historyLst
  { s with
    inputBuf := buf, mem := s.mem.put buf 0, inputPtr := 0, inputLen := 0, stopRead := false
    kb := kbSetKeyHandler true s.kb }

/-- The condition of the loop of `tty_read`. -/
def Tty.reads (s : Tty) : Bool := decide (s.inputLen < ttyInputSize) && !s.stopRead

/-- `tty_input_buf[tty_input_len] = '\0'`. -/
def closeLine (s : Tty) : Tty := { s with mem := s.mem.put (s.inputBuf + s.inputLen) 0 }

/-- `memcpy(dest, tty_input_buf, tty_input_len + 1)`. -/
def copyLine (dest : Nat) (s : Tty) : Tty :=
  { s with mem := memcpy dest s.inputBuf (s.inputLen + 1) s.mem }

/-- `tty_read`, behind its loop. -/
def ttyReadEnd (dest : Nat) (s : Tty) : Tty :=
  copyLine dest (closeLine { s with
    kb := kbSetKeyHandler false s.kb, screen := ttyPutc 0x0a s.screen })

/-- What `tty_prompt` does before it reads. -/
def ttyPrompt (s : Tty) : Tty :=
  let screen := ttyPutc 0x3e s.screen
  { s with screen := screen, promptPtr := screen.ttyPtr }

end DonutOS.Kernel
