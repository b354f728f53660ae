import DonutOS.Foundation.RingBuffer
import DonutOS.Kernel.Rtl8139
import DonutOS.Libc.HeapRuns

set_option autoImplicit false

/-!
# Kernel: the ring of headers (`kernel/src/rtl8139.c`)

`ethHeaders` keeps the headers of the last packets.  A run receives packets one after
another, and between them the rest of the kernel uses the heap.
-/

namespace DonutOS.Kernel

open DonutOS.Foundation DonutOS.Libc

/-- The driver, the blocks of the heap, and what no code reads: the headers of the
packets received so far, the last one first, and for every address the header that
`receive_packet` assigned to it last. -/
structure NicState where
  nic : Rtl8139
  live : List Block
  received : List EthernetHeader
  assigned : Nat → Option EthernetHeader

def NicState.heapOf (s : NicState) : HeapState := ⟨s.nic.heap, s.live⟩

/-- `sizeof(struct EthernetHeader)` for each slot. -/
def sizeofEthHeaders : Nat := ethHeadersSize * sizeofEthernetHeader

/-- The arrays of the driver that `malloc` returned. -/
def initBlocks (nic : Rtl8139) : List Block :=
  [⟨nic.ethHeaders, sizeofEthHeaders⟩, ⟨nic.rxBuffer, rxTotalBufferSize⟩].filter fun b => b.ptr ≠ 0

/-- `rtl8139_init` runs on a heap. -/
def nicInit (before : HeapState) : Option NicState :=
  (rtl8139Init (rtl8139AtBoot before.heap)).map fun nic =>
    { nic := nic, live := initBlocks nic ++ before.live, received := [], assigned := fun _ => none }

/-- The blocks after a packet: its frame is one, and the slot that was freed is not. -/
def blocksAfter (frame : Option Nat) (s : NicState) : List Block :=
  let blocks := grant (frameLength s.nic) s.live frame
  if s.nic.nHeaders = ethHeadersSize then blocks.filter fun b => b.ptr ≠ freedHeader s.nic
  else blocks

/-- The slot that the next header goes to. -/
def nextSlot (s : Rtl8139) : Nat := rtl8139GetEthHeader (makeSlot s).nHeaders (makeSlot s)

/-- A packet is received; `none` when `malloc` does not return. -/
def nicReceive (process : PacketParser) (s : NicState) : Option NicState :=
  match malloc s.nic.heap (frameLength s.nic), receivePacket process s.nic with
  | some (heap, frame), some nic =>
      let header :=
        parsedHeader process (frame.getD 0) (frameLength s.nic) { s.nic with heap := heap }
      some
        { nic := nic, live := blocksAfter frame s, received := header :: s.received
          assigned := fun a => if a = nextSlot s.nic then some header else s.assigned a }
  | _, _ => none

inductive NicEvent
  /-- `receive_packet` -/
  | packet
  /-- the rest of the kernel calls the heap, or it or the device writes to a block -/
  | other (call : HeapCall)

inductive NicStep (process : PacketParser) : NicState → NicEvent → NicState → Prop
  | packet {s t : NicState} (hreceive : nicReceive process s = some t) :
      NicStep process s .packet t
  /-- The arrays of the driver are freed by nobody else. -/
  | other {s : NicState} {call : HeapCall} {heap : HeapState}
      (hstep : SizedStep s.heapOf call heap) (hrx : call ≠ .free s.nic.rxBuffer)
      (heth : call ≠ .free s.nic.ethHeaders) :
      NicStep process s (.other call)
        { s with nic := { s.nic with heap := heap.heap }, live := heap.live }

/-- The packets of a run. -/
def packets : List (NicEvent × NicState) → Nat
  | [] => 0
  | (.packet, _) :: path => packets path + 1
  | (.other _, _) :: path => packets path

/-! ## The property -/

/-- The header of a packet; packets are numbered from 1 on. -/
def headerOfPacket (number : Nat) (s : NicState) : Option EthernetHeader :=
  s.received.reverse[number - 1]?

/-- After `n` packets the ring has the headers of the last ones, the oldest first. -/
structure LastHeaders (n : Nat) (s : NicState) : Prop where
  received : s.received.length = n
  count : s.nic.nHeaders = min n ethHeadersSize
  slots : ∀ i < s.nic.nHeaders, ∃ header,
    headerOfPacket (n - s.nic.nHeaders + i + 1) s = some header ∧
      s.assigned (rtl8139GetEthHeader i s.nic) = some header

/-! ## What a packet does -/

/-- The driver when `malloc` has returned. -/
def afterMalloc (heap : Heap) (s : Rtl8139) : Rtl8139 :=
  { s with
    bytesReceived := Int.bmod (s.bytesReceived + frameLength s + 4) (2 ^ 32), heap := heap }

theorem receivePacket_eq (process : PacketParser) {s : Rtl8139} {heap : Heap} {frame : Option Nat}
    (hcall : malloc s.heap (frameLength s) = some (heap, frame)) :
    receivePacket process s =
      some (receiveFrame process (frame.getD 0) (frameLength s) (afterMalloc heap s)) := by
  unfold receivePacket
  simp only [hcall]
  rfl

theorem receivePacket_returns {process : PacketParser} {s t : Rtl8139}
    (h : receivePacket process s = some t) :
    ∃ heap frame, malloc s.heap (frameLength s) = some (heap, frame) ∧
      t = receiveFrame process (frame.getD 0) (frameLength s) (afterMalloc heap s) := by
  cases hcall : malloc s.heap (frameLength s) with
  | none =>
      unfold receivePacket at h
      simp only [hcall] at h
      exact nomatch h
  | some answer =>
      obtain ⟨heap, frame⟩ := answer
      rw [receivePacket_eq process hcall] at h
      exact ⟨heap, frame, rfl, (Option.some.inj h).symm⟩

/-- The ghost fields follow `receive_packet`. -/
theorem nicReceive_nic (process : PacketParser) (s : NicState) :
    (nicReceive process s).map NicState.nic = receivePacket process s.nic := by
  unfold nicReceive
  cases hcall : malloc s.nic.heap (frameLength s.nic) with
  | none =>
      unfold receivePacket
      simp only [hcall, Option.map_none]
  | some answer =>
      obtain ⟨heap, frame⟩ := answer
      rw [receivePacket_eq process hcall]
      rfl

theorem makeSlot_ethHeaders (s : Rtl8139) : (makeSlot s).ethHeaders = s.ethHeaders := by
  unfold makeSlot
  split
  · rfl
  · rfl

theorem makeSlot_rxBuffer (s : Rtl8139) : (makeSlot s).rxBuffer = s.rxBuffer := by
  unfold makeSlot
  split
  · rfl
  · rfl

theorem makeSlot_firstHeader (s : Rtl8139) : (makeSlot s).firstHeader =
    if s.nHeaders = ethHeadersSize then (s.firstHeader + 1) % ethHeadersSize
    else s.firstHeader := by
  unfold makeSlot
  split
  · rfl
  · rfl

theorem makeSlot_mem (s : Rtl8139) : (makeSlot s).heap.mem =
    if s.nHeaders = ethHeadersSize then (removeFirstHeader s).heap.mem else s.heap.mem := by
  unfold makeSlot
  split
  · rfl
  · rfl

theorem makeSlot_nHeaders (s : Rtl8139) : (makeSlot s).nHeaders =
    if s.nHeaders = ethHeadersSize then s.nHeaders - 1 else s.nHeaders := by
  unfold makeSlot
  split
  · rfl
  · rfl

/-- All that a packet does. -/
structure Received (process : PacketParser) (s t : NicState) (heap : Heap) (frame : Option Nat)
    (header : EthernetHeader) : Prop where
  call : malloc s.nic.heap (frameLength s.nic) = some (heap, frame)
  nic : t.nic = receiveFrame process (frame.getD 0) (frameLength s.nic) (afterMalloc heap s.nic)
  live : t.live = blocksAfter frame s
  received : t.received = header :: s.received
  assigned : t.assigned = fun a => if a = nextSlot s.nic then some header else s.assigned a

theorem nicReceive_received {process : PacketParser} {s t : NicState}
    (h : nicReceive process s = some t) :
    ∃ heap frame header, Received process s t heap frame header := by
  unfold nicReceive at h
  cases hcall : malloc s.nic.heap (frameLength s.nic) with
  | none =>
      rw [hcall] at h
      exact nomatch h
  | some answer =>
      obtain ⟨heap, frame⟩ := answer
      rw [hcall, receivePacket_eq process hcall] at h
      obtain rfl := Option.some.inj h
      exact ⟨heap, frame, _, hcall, rfl, rfl, rfl, rfl⟩

namespace Received

variable {process : PacketParser} {s t : NicState} {heap : Heap} {frame : Option Nat}
  {header : EthernetHeader}

theorem ethHeaders (h : Received process s t heap frame header) :
    t.nic.ethHeaders = s.nic.ethHeaders := by
  rw [h.nic]
  exact makeSlot_ethHeaders _

theorem rxBuffer (h : Received process s t heap frame header) :
    t.nic.rxBuffer = s.nic.rxBuffer := by
  rw [h.nic]
  exact makeSlot_rxBuffer _

theorem firstHeader (h : Received process s t heap frame header) :
    t.nic.firstHeader = (makeSlot s.nic).firstHeader := by
  rw [h.nic, makeSlot_firstHeader]
  exact makeSlot_firstHeader _

theorem nHeaders (h : Received process s t heap frame header) :
    t.nic.nHeaders = (makeSlot s.nic).nHeaders + 1 := by
  rw [h.nic, makeSlot_nHeaders]
  exact congrArg (· + 1) (makeSlot_nHeaders _)

end Received

/-! ## The ring over whole runs -/

/-- The headers received last are in the slots before the next one. -/
structure RingKept (s : NicState) : Prop where
  count : s.nic.nHeaders = min s.received.length ethHeadersSize
  holds : RingHolds ethHeadersSize
    (fun slot header => s.assigned (s.nic.ethHeaders + sizeofEthernetHeader * slot) = some header)
    (getHeaderIndex s.nic.nHeaders s.nic) (s.received.take ethHeadersSize)

theorem nicInit_ring {before : HeapState} {s : NicState} (h : nicInit before = some s) :
    RingKept s ∧ s.received = [] := by
  obtain ⟨nic, hinit, rfl⟩ := Option.map_eq_some_iff.mp h
  refine ⟨⟨?_, .nil _ _⟩, rfl⟩
  change nic.nHeaders = 0
  obtain ⟨_, _, _, rfl⟩ := rtl8139Init_some hinit
  rfl

/-- The next slot is the same before and after an eviction. -/
theorem getHeaderIndex_makeSlot (s : Rtl8139) :
    getHeaderIndex (makeSlot s).nHeaders (makeSlot s) = getHeaderIndex s.nHeaders s := by
  unfold getHeaderIndex
  rw [makeSlot_nHeaders, makeSlot_firstHeader]
  split
  · next hfull =>
      rw [hfull]
      simp only [ethHeadersSize]
      omega
  · rfl

theorem nextSlot_eq (s : Rtl8139) : nextSlot s = rtl8139GetEthHeader s.nHeaders s := by
  unfold nextSlot rtl8139GetEthHeader
  rw [getHeaderIndex_makeSlot, makeSlot_ethHeaders]

theorem storeHeader_self (m : Memory) (a : Nat) (header : EthernetHeader)
    (k : Fin sizeofEthernetHeader) : storeHeader m a header (a + k) = header k := by
  rw [storeHeader, dif_pos ⟨by omega, by omega⟩]
  exact congrArg header (Fin.ext (Nat.add_sub_cancel_left a k))

/-- What a packet stores, and where. -/
theorem receiveFrame_stores (process : PacketParser) (frame length : Nat) (s : Rtl8139) :
    (receiveFrame process frame length s).heap.mem =
      storeHeader (makeSlot (copyFrame frame length s)).heap.mem (nextSlot s)
        (parsedHeader process frame length s) := by
  have hslot : nextSlot (copyFrame frame length s) = nextSlot s := by
    rw [nextSlot_eq, nextSlot_eq]
    rfl
  rw [← hslot]
  rfl

/-- The count of bytes received is nothing to the parser. -/
theorem parsedHeader_afterMalloc (process : PacketParser) (frame length : Nat) (heap : Heap)
    (s : Rtl8139) : parsedHeader process frame length (afterMalloc heap s) =
      parsedHeader process frame length { s with heap := heap } := by
  rw [parsedHeader, parsedHeader, makeSlot_mem, makeSlot_mem]
  rfl

/-- The header that is recorded, as received last and as assigned to the slot, is the one
whose bytes `receive_packet` leaves there; the other slots keep their record. -/
theorem nicReceive_stored {process : PacketParser} {s t : NicState}
    (h : nicReceive process s = some t) :
    ∃ header, t.received = header :: s.received ∧
      t.assigned (nextSlot s.nic) = some header ∧
      (∀ k : Fin sizeofEthernetHeader, t.nic.heap.mem (nextSlot s.nic + k) = header k) ∧
      ∀ a, a ≠ nextSlot s.nic → t.assigned a = s.assigned a := by
  unfold nicReceive at h
  cases hcall : malloc s.nic.heap (frameLength s.nic) with
  | none =>
      rw [hcall] at h
      exact nomatch h
  | some answer =>
      obtain ⟨heap, frame⟩ := answer
      rw [hcall, receivePacket_eq process hcall] at h
      obtain rfl := Option.some.inj h
      have hslot : nextSlot (afterMalloc heap s.nic) = nextSlot s.nic := by
        rw [nextSlot_eq, nextSlot_eq]
        rfl
      refine ⟨_, rfl, if_pos rfl, fun k => ?_, fun a ha => if_neg ha⟩
      change (receiveFrame process (frame.getD 0) (frameLength s.nic)
        (afterMalloc heap s.nic)).heap.mem _ = _
      rw [receiveFrame_stores, hslot, parsedHeader_afterMalloc]
      exact storeHeader_self _ _ _ k

theorem Received.ringKept {process : PacketParser} {s t : NicState} {heap : Heap}
    {frame : Option Nat} {header : EthernetHeader} (h : Received process s t heap frame header)
    (hs : RingKept s) : RingKept t := by
  have hcount := hs.count
  have hsize : 0 < ethHeadersSize := by decide
  have hnext : getHeaderIndex t.nic.nHeaders t.nic =
      (getHeaderIndex s.nic.nHeaders s.nic + 1) % ethHeadersSize := by
    rw [← getHeaderIndex_makeSlot s.nic]
    unfold getHeaderIndex
    rw [h.nHeaders, h.firstHeader, Nat.mod_add_mod, Nat.add_assoc]
  have hslot : nextSlot s.nic = t.nic.ethHeaders +
      sizeofEthernetHeader * getHeaderIndex s.nic.nHeaders s.nic := by
    rw [nextSlot_eq, h.ethHeaders]
    rfl
  constructor
  · rw [h.nHeaders, makeSlot_nHeaders, h.received, List.length_cons]
    split
    · omega
    · omega
  · rw [hnext, h.received]
    have htake : (header :: s.received).take ethHeadersSize =
        (header :: s.received.take ethHeadersSize).take ethHeadersSize := by
      have hsucc : ethHeadersSize = 255 + 1 := rfl
      rw [hsucc, List.take_succ_cons, List.take_succ_cons, List.take_take]
      rfl
    rw [htake]
    refine hs.holds.push (Nat.mod_lt _ hsize) (Nat.le_refl _) ?_ ?_
    · rw [h.assigned]
      exact if_pos hslot.symm
    · intro slot _ hne header' hheld
      rw [h.assigned, h.ethHeaders]
      refine (if_neg fun heq => hne ?_).trans hheld
      rw [hslot, h.ethHeaders] at heq
      simp only [sizeofEthernetHeader] at heq
      omega

theorem RingKept.lastHeaders {s : NicState} (h : RingKept s) :
    LastHeaders s.received.length s := by
  refine ⟨rfl, h.count, fun i hi => ?_⟩
  have hcount := h.count
  have hk : s.nic.nHeaders - 1 - i < s.received.length := by omega
  have htake : s.nic.nHeaders - 1 - i < (s.received.take ethHeadersSize).length := by
    rw [List.length_take]
    omega
  have hheld := h.holds _ htake
  have hslot : slotBefore ethHeadersSize (getHeaderIndex s.nic.nHeaders s.nic)
      (s.nic.nHeaders - 1 - i + 1) = getHeaderIndex i s.nic := by
    simp only [slotBefore, getHeaderIndex, ethHeadersSize] at hcount ⊢
    omega
  rw [hslot, List.getElem_take] at hheld
  refine ⟨_, ?_, hheld⟩
  have hindex : s.received.length - 1 -
      (s.received.length - s.nic.nHeaders + i + 1 - 1) = s.nic.nHeaders - 1 - i := by omega
  unfold headerOfPacket
  rw [List.getElem?_reverse (by omega), hindex, List.getElem?_eq_getElem hk]

theorem NicStep.ringKept {process : PacketParser} {s t : NicState} {event : NicEvent}
    (hs : RingKept s) (hstep : NicStep process s event t) : RingKept t := by
  cases hstep with
  | packet hreceive =>
      obtain ⟨_, _, _, hreceived⟩ := nicReceive_received hreceive
      exact hreceived.ringKept hs
  | other _ _ _ => exact ⟨hs.count, hs.holds⟩

/-- Every packet of a run is recorded. -/
theorem length_received {process : PacketParser} {s : NicState}
    {path : List (NicEvent × NicState)} (hrun : IsPath (NicStep process) s path) :
    (endState s path).received.length = s.received.length + packets path := by
  induction path generalizing s with
  | nil => rfl
  | cons head path ih =>
      obtain ⟨event, t⟩ := head
      obtain ⟨hstep, hrest⟩ := hrun
      rw [endState, ih hrest]
      cases hstep with
      | packet hreceive =>
          obtain ⟨_, _, _, hreceived⟩ := nicReceive_received hreceive
          rw [hreceived.received, List.length_cons, packets]
          omega
      | other _ _ _ => rfl

/-- After `rtl8139_init` and any number of packets, the ring has the headers of the
last 256 packets, or of all of them, with the oldest first. -/
theorem nicRuns_lastHeaders {process : PacketParser} {before : HeapState} {s : NicState}
    (hinit : nicInit before = some s) {path : List (NicEvent × NicState)}
    (hrun : IsPath (NicStep process) s path) : LastHeaders (packets path) (endState s path) := by
  obtain ⟨hring, hnone⟩ := nicInit_ring hinit
  have hkept := hrun.invariant (fun _ _ _ hinv hstep => hstep.ringKept hinv) hring
  have hcount := length_received hrun
  rw [hnone, List.length_nil, Nat.zero_add] at hcount
  rw [← hcount]
  exact (hkept _ (endState_mem_visited _ _)).lastHeaders

/-- A parser that takes the first bytes of the frame. -/
def frontParser : PacketParser := fun mem frame _ i => mem (frame + i)

/-- Two packets on a machine whose memory is zero. -/
theorem nicRuns_lastHeaders_two : ∃ s path, nicInit (heapStart fun _ => 0) = some s ∧
    IsPath (NicStep frontParser) s path ∧ LastHeaders 2 (endState s path) := by
  have htwo : (((nicInit (heapStart fun _ => 0)).bind (nicReceive frontParser)).bind
      (nicReceive frontParser)).isSome = true := by decide +kernel
  obtain ⟨u, hu⟩ := Option.isSome_iff_exists.mp htwo
  obtain ⟨t, ht, hsecond⟩ := Option.bind_eq_some_iff.mp hu
  obtain ⟨s, hinit, hfirst⟩ := Option.bind_eq_some_iff.mp ht
  have hrun : IsPath (NicStep frontParser) s [(.packet, t), (.packet, u)] :=
    ⟨.packet hfirst, .packet hsecond, trivial⟩
  exact ⟨s, _, hinit, hrun, nicRuns_lastHeaders hinit hrun⟩

end DonutOS.Kernel
