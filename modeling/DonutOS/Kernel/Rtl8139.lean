import DonutOS.Libc.Malloc
import DonutOS.Libc.Str

set_option autoImplicit false

/-!
# Kernel: the network card (`kernel/src/rtl8139.c`)

The receiving half of the driver.  What `process_received_packet` makes of a frame
depends on the frame and on its own stack, so it is a parameter.
-/

namespace DonutOS.Kernel

open DonutOS.Foundation DonutOS.Libc

/-- `RX_TOTAL_BUFFER_SIZE`. -/
def rxTotalBufferSize : Nat := 9708

/-- `RX_BUFFER_SIZE`. -/
def rxBufferSize : Nat := 8192

/-- `ROK`. -/
def rok : Nat := 0x01

/-- `TOK`. -/
def tok : Nat := 0x04

/-- `sizeof(struct EthernetHeader)`. -/
def sizeofEthernetHeader : Nat := 88

/-- The slots of `ethHeaders`. -/
def ethHeadersSize : Nat := 256

/-- A `struct EthernetHeader`. -/
abbrev EthernetHeader := Fin sizeofEthernetHeader → Byte

/-- `process_received_packet`, of a frame in memory and its length. -/
abbrev PacketParser := Memory → Nat → Nat → EthernetHeader

/-- The globals of `rtl8139.c`, the register `CAPR`, and the heap. -/
structure Rtl8139 where
  rxBuffer : Nat
  currentPacketPtr : Nat
  bytesReceived : Int
  ethHeaders : Nat
  firstHeader : Nat
  nHeaders : Nat
  capr : Nat
  heap : Heap

/-- The driver at boot. -/
def rtl8139AtBoot (heap : Heap) : Rtl8139 where
  rxBuffer := 0
  currentPacketPtr := 0
  bytesReceived := 0
  ethHeaders := 0
  firstHeader := 0
  nHeaders := 0
  capr := 0
  heap := heap

/-- `rtl8139_init`, without the ports; a `malloc` that does not return is `none`. -/
def rtl8139Init (s : Rtl8139) : Option Rtl8139 :=
  match malloc s.heap rxTotalBufferSize with
  | none => none
  | some (heap, rx) =>
      match malloc heap (ethHeadersSize * sizeofEthernetHeader) with
      | none => none
      | some (heap, eth) =>
          some { s with rxBuffer := rx.getD 0, ethHeaders := eth.getD 0, heap := heap }

/-- Only the two blocks and the heap are new. -/
theorem rtl8139Init_some {s t : Rtl8139} (h : rtl8139Init s = some t) :
    ∃ rx eth heap, t = { s with rxBuffer := rx, ethHeaders := eth, heap := heap } := by
  unfold rtl8139Init at h
  split at h
  · cases h
  · split at h
    · cases h
    · exact ⟨_, _, _, (Option.some.inj h).symm⟩

/-! ## The ring of headers -/

/-- `getHeaderIndex`. -/
def getHeaderIndex (i : Nat) (s : Rtl8139) : Nat := (s.firstHeader + i) % ethHeadersSize

/-- `rtl8139_get_ethHeader`: the address of `ethHeaders[getHeaderIndex(i)]`. -/
def rtl8139GetEthHeader (i : Nat) (s : Rtl8139) : Nat :=
  s.ethHeaders + sizeofEthernetHeader * getHeaderIndex i s

/-- The pointer that `removeFirstHeader` frees. -/
def freedHeader (s : Rtl8139) : Nat := rtl8139GetEthHeader s.firstHeader s

/-- `removeFirstHeader`. -/
def removeFirstHeader (s : Rtl8139) : Rtl8139 :=
  { s with
    heap := free s.heap (freedHeader s)
    firstHeader := (s.firstHeader + 1) % ethHeadersSize, nHeaders := s.nHeaders - 1 }

/-- `removeFirstHeader`, when the ring is full. -/
def makeSlot (s : Rtl8139) : Rtl8139 :=
  if s.nHeaders = ethHeadersSize then removeFirstHeader s else s

/-- The assignment to a `struct EthernetHeader` at `a`. -/
def storeHeader (m : Memory) (a : Nat) (header : EthernetHeader) : Memory := fun b =>
  if h : a ≤ b ∧ b < a + sizeofEthernetHeader then header ⟨b - a, by omega⟩ else m b

/-- `ethHeaders[getHeaderIndex(nHeaders)] = header; nHeaders++`. -/
def appendHeader (header : EthernetHeader) (s : Rtl8139) : Rtl8139 :=
  { s with
    heap := { s.heap with
      mem := storeHeader s.heap.mem (rtl8139GetEthHeader s.nHeaders s) header }
    nHeaders := s.nHeaders + 1 }

/-! ## A packet -/

/-- `frame_length`: the second half word of the packet, and the four bytes before it. -/
def frameLength (s : Rtl8139) : Nat :=
  (readHalf s.heap.mem (s.rxBuffer + s.currentPacketPtr + 2) + 4) % 2 ^ 16

/-- `((ptr + length + 3) & RX_READ_POINTER_MASK) % RX_BUFFER_SIZE`. -/
def nextPacketPtr (ptr length : Nat) : Nat := (ptr + length + 3) % 2 ^ 32 / 4 * 4 % rxBufferSize

/-- `memcpy(frame, t+2, frame_length)`. -/
def copyFrame (frame length : Nat) (s : Rtl8139) : Rtl8139 :=
  { s with
    heap := { s.heap with
      mem := (memcpy frame (s.rxBuffer + s.currentPacketPtr + 4) length ⟨s.heap.mem, []⟩).bytes } }

/-- The end of `receive_packet`. -/
def advancePacketPtr (length : Nat) (s : Rtl8139) : Rtl8139 :=
  let ptr := nextPacketPtr s.currentPacketPtr length
  { s with currentPacketPtr := ptr, capr := (ptr + 2 ^ 32 - 0x10) % 2 ^ 16 }

/-- What `process_received_packet` makes of the copy of the frame; it is called after the
ring has a slot. -/
def parsedHeader (process : PacketParser) (frame length : Nat) (s : Rtl8139) : EthernetHeader :=
  process (makeSlot (copyFrame frame length s)).heap.mem frame length

/-- `receive_packet`, once `malloc` has returned. -/
def receiveFrame (process : PacketParser) (frame length : Nat) (s : Rtl8139) : Rtl8139 :=
  advancePacketPtr length (appendHeader (parsedHeader process frame length s)
    (makeSlot (copyFrame frame length s)))

/-- `receive_packet`; a `malloc` that does not return is `none`. -/
def receivePacket (process : PacketParser) (s : Rtl8139) : Option Rtl8139 :=
  let length := frameLength s
  let s := { s with bytesReceived := Int.bmod (s.bytesReceived + length + 4) (2 ^ 32) }
  match malloc s.heap length with
  | none => none
  | some (heap, frame) => some (receiveFrame process (frame.getD 0) length { s with heap := heap })

end DonutOS.Kernel
