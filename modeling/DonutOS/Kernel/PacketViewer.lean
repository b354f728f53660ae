import DonutOS.Foundation.ListCursor
import DonutOS.Kernel.HeaderReaders
import DonutOS.Kernel.TtyLoop

set_option autoImplicit false

/-!
# Kernel: the viewer of packets (`__pctprint_command`)

The viewer draws the list of packets, takes the key that came last, and clears it.  While
it runs, packets come in and keys are pressed at any time: both are interrupts, and it
locks nothing.
-/

namespace DonutOS.Kernel

open DonutOS.Foundation DonutOS.Libc

/-- What the viewer does next. -/
inductive ViewerPc
  /-- `tty_has_key_ready == 0` -/
  | head
  /-- the rest of that condition -/
  | compare
  /-- `lastNHeaders = nHeaders; lastSelectedIndex = selectedIndex` -/
  | snapshot
  /-- the screen is cleared and the two lines above the list are printed -/
  | heading
  /-- `i < nHeaders && i < viewOffset + 11` -/
  | test (i : Nat)
  /-- a row -/
  | row (i : Nat)
  /-- `switch(tty_last_key)` -/
  | choose
  /-- the first line of the case for Enter -/
  | enter
  | details
  /-- `while (tty_has_key_ready == 0)` -/
  | wait
  /-- `tty_has_key_ready = 0` behind the switch -/
  | clearReady
  /-- `tty_last_key = 0` behind the switch -/
  | clearKey
  /-- the two assignments of the case for `q` -/
  | quitReady
  | quitKey
  | returned
  deriving DecidableEq

/-- A row on the screen.  No code reads `number`, which says which packet it is. -/
structure Row where
  index : Nat
  color : BitVec 16
  header : Option EthernetHeader
  number : Nat

/-- The driver and the keyboard, the mailbox of the keys, the variables of the viewer, and
what it has on the screen: the number in the first line and the rows, or the details of an
index.  No code reads the keys that were delivered and that the switch has had. -/
structure Viewer where
  ring : NicState
  kb : Kb
  hasKeyReady : Bool
  lastKey : Byte
  selectedIndex : Nat
  lastNHeaders : Nat
  lastSelectedIndex : Nat
  pc : ViewerPc
  number : Nat
  rows : List Row
  details : Option Nat
  delivered : List Byte
  handled : List Byte

/-- `viewOffset`. -/
def Viewer.viewOffset (s : Viewer) : Nat := s.selectedIndex - 6

/-- The colour of a row. -/
def rowColor (selectedIndex i : Nat) : BitVec 16 :=
  if i = selectedIndex then vgaColor 0x0 0x7
  else if i % 2 = 0 then vgaColor 0x7 0x0
  else vgaColor 0xf 0x0

/-- The row of index `i`, read now. -/
def Viewer.rowAt (i : Nat) (s : Viewer) : Row where
  index := i
  color := rowColor s.selectedIndex i
  header := s.ring.assigned (rtl8139GetEthHeader i s.ring.nic)
  number := s.ring.received.length - s.ring.nic.nHeaders + i + 1

/-- `selectedIndex` after a key: it is compared with `nHeaders - 1` as an `int`. -/
def nextSelected (key : Byte) (s : Viewer) : Nat :=
  if key = keyUp then if 0 < s.selectedIndex then s.selectedIndex - 1 else s.selectedIndex
  else if key = keyDown then
    if s.selectedIndex + 1 < s.ring.nic.nHeaders then s.selectedIndex + 1 else s.selectedIndex
  else s.selectedIndex

/-- Where a key leads. -/
def nextPc (key : Byte) : ViewerPc :=
  if key = keyEnter then .enter else if key = 0x71 then .quitReady else .clearReady

/-- The keys that the switch has had, without the 0 that says that there was none. -/
def handledKeys (key : Byte) (keys : List Byte) : List Byte :=
  if key = 0 then keys else keys ++ [key]

/-- The next step of the viewer. -/
def Viewer.next (s : Viewer) : Viewer :=
  let nHeaders := s.ring.nic.nHeaders
  match s.pc with
  | .head => { s with pc := if s.hasKeyReady then .snapshot else .compare }
  | .compare =>
      { s with
        pc := if s.lastNHeaders = nHeaders ∧ s.lastSelectedIndex = s.selectedIndex then .head
          else .snapshot }
  | .snapshot =>
      { s with lastNHeaders := nHeaders, lastSelectedIndex := s.selectedIndex, pc := .heading }
  | .heading =>
      { s with number := nHeaders, rows := [], details := none, pc := .test s.viewOffset }
  | .test i => { s with pc := if i < nHeaders ∧ i < s.viewOffset + 11 then .row i else .choose }
  | .row i =>
      if rtl8139GetEthHeader i s.ring.nic = 0 then { s with pc := .choose }
      else { s with rows := s.rows ++ [s.rowAt i], pc := .test (i + 1) }
  | .choose =>
      { s with
        selectedIndex := nextSelected s.lastKey s, pc := nextPc s.lastKey
        handled := handledKeys s.lastKey s.handled }
  | .enter => { s with hasKeyReady := false, pc := .details }
  | .details => { s with rows := [], details := some s.selectedIndex, pc := .wait }
  | .wait => { s with pc := if s.hasKeyReady then .clearReady else .wait }
  | .clearReady => { s with hasKeyReady := false, pc := .clearKey }
  | .clearKey => { s with lastKey := 0, pc := .head }
  | .quitReady => { s with rows := [], hasKeyReady := false, pc := .quitKey }
  | .quitKey => { s with lastKey := 0, pc := .returned }
  | .returned => s

/-- A scancode comes: `__kb_handler`, and `__tty_read_key` for a key. -/
def Viewer.scancode (code : Byte) (s : Viewer) : Viewer :=
  let kb := (kbHandler code s.kb).1
  match keyOf code s.kb with
  | some key =>
      { s with kb, hasKeyReady := true, lastKey := key, delivered := s.delivered ++ [key] }
  | none => { s with kb }

inductive ViewerEvent
  | scancode (code : Byte)
  /-- the driver receives a packet, or the heap is used elsewhere -/
  | nic (event : NicEvent)
  | next

inductive ViewerStep (process : PacketParser) : Viewer → ViewerEvent → Viewer → Prop
  | scancode {s : Viewer} (code : Byte) :
      ViewerStep process s (.scancode code) (s.scancode code)
  | nic {s : Viewer} {event : NicEvent} {ring : NicState}
      (hstep : NicStep process s.ring event ring) :
      ViewerStep process s (.nic event) { s with ring }
  | next {s : Viewer} (hpc : s.pc ≠ .returned) : ViewerStep process s .next s.next

/-- The command begins, with what is left in the mailbox. -/
def viewerStart (ring : NicState) (kb : Kb) (ready : Bool) (key : Byte) : Viewer where
  ring := ring
  kb := kbSetKeyHandler true kb
  hasKeyReady := ready
  lastKey := key
  selectedIndex := 0
  lastNHeaders := 0
  lastSelectedIndex := 0
  pc := .head
  number := 0
  rows := []
  details := none
  delivered := []
  handled := []

end DonutOS.Kernel
