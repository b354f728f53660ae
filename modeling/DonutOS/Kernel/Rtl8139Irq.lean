import DonutOS.Kernel.HeaderHeap
import DonutOS.Libc.MallocBelow

set_option autoImplicit false

/-!
# Kernel: the interrupts of the network card (`kernel/src/rtl8139.c`)

The device places packets one behind the other in the receive buffer and sets `ROK`.
`rtl8139_irq` reads and clears `ISR`, and then receives one packet.
-/

namespace DonutOS.Kernel

open DonutOS.Foundation DonutOS.Libc

/-! ## The device -/

/-- A packet in the receive buffer.  A frame takes at most half of the buffer: an Ethernet
frame with its checksum has at most 1518 bytes. -/
structure RxPacket where
  status : Nat
  frame : List Byte
  fits : 2 * (frame.length + 7) ≤ rxBufferSize

/-- Its bytes: the status, the length of the frame, and the frame. -/
def RxPacket.image (packet : RxPacket) : List Byte :=
  [BitVec.ofNat 8 packet.status, BitVec.ofNat 8 (packet.status / 0x100),
    BitVec.ofNat 8 packet.frame.length, BitVec.ofNat 8 (packet.frame.length / 0x100)] ++
    packet.frame

/-- Bytes that the device writes. -/
def dma (a : Nat) (bs : List Byte) (m : Memory) : Memory := fun b =>
  if h : a ≤ b ∧ b < a + bs.length then bs.get ⟨b - a, by omega⟩ else m b

/-- Where the device places the packet behind a packet at `offset`. -/
def nextRxOffset (offset length : Nat) : Nat := (offset + 4 + length + 3) / 4 * 4 % rxBufferSize

/-! ## `rtl8139_irq` -/

/-- Where `rtl8139_irq` stands, and the `status` it has read. -/
inductive IrqPhase
  | idle
  | status (status : Nat)
  | acknowledged (status : Nat)
  deriving DecidableEq

/-- The driver, the register `ISR`, the offset at which the device places the next packet,
and the numbers of packets that the device has appended and the driver has recorded, which
no code reads. -/
structure IrqState where
  nic : Rtl8139
  isr : Nat
  rxOffset : Nat
  phase : IrqPhase
  appended : Nat
  recorded : Nat

/-- The device places a packet in the buffer. -/
def rxAppend (packet : RxPacket) (s : IrqState) : IrqState :=
  { s with
    nic := { s.nic with heap := { s.nic.heap with
      mem := dma (s.nic.rxBuffer + s.rxOffset) packet.image s.nic.heap.mem } }
    isr := s.isr ||| rok
    rxOffset := nextRxOffset s.rxOffset packet.frame.length
    appended := s.appended + 1 }

/-- `outw(ioaddr + ISR, TOK | ROK)`: the device clears the bits that are written. -/
def clearIsr (isr : Nat) : Nat := isr &&& (0xffff ^^^ (tok ||| rok))

/-- The rest of `rtl8139_irq`; `none` when `receive_packet` does not return. -/
def irqHandle (process : PacketParser) (status : Nat) (s : IrqState) : Option IrqState :=
  if status &&& rok ≠ 0 then
    (receivePacket process s.nic).map fun nic =>
      { s with nic := nic, phase := .idle, recorded := s.recorded + 1 }
  else some { s with phase := .idle }

inductive IrqEvent
  | append (packet : RxPacket)
  /-- the device has sent a packet -/
  | sent
  | readStatus
  | acknowledge
  | handle

inductive IrqStep (process : PacketParser) : IrqState → IrqEvent → IrqState → Prop
  | append {s : IrqState} (packet : RxPacket) :
      IrqStep process s (.append packet) (rxAppend packet s)
  | sent {s : IrqState} : IrqStep process s .sent { s with isr := s.isr ||| tok }
  /-- The interrupt is requested while one of its bits is set. -/
  | readStatus {s : IrqState} (hidle : s.phase = .idle) (hrequest : s.isr &&& (tok ||| rok) ≠ 0) :
      IrqStep process s .readStatus { s with phase := .status s.isr }
  | acknowledge {s : IrqState} {status : Nat} (hphase : s.phase = .status status) :
      IrqStep process s .acknowledge { s with isr := clearIsr s.isr, phase := .acknowledged status }
  | handle {s t : IrqState} {status : Nat} (hphase : s.phase = .acknowledged status)
      (hreturns : irqHandle process status s = some t) : IrqStep process s .handle t

/-- After `rtl8139_init`. -/
def irqStart (nic : Rtl8139) : IrqState where
  nic := nic
  isr := 0
  rxOffset := 0
  phase := .idle
  appended := 0
  recorded := 0

/-! ## The property and the condition -/

/-- With `ROK` clear and no handler running, all packets are recorded. -/
def NoBacklog (s : IrqState) : Prop :=
  s.isr &&& rok = 0 → s.phase = .idle →
    s.nic.currentPacketPtr = s.rxOffset ∧ s.recorded = s.appended

/-- A packet is appended only while `ROK` is clear, and not between the read and the write
of `ISR`. -/
def AppendsAlone : IrqState → IrqEvent → Prop
  | s, .append _ => s.isr &&& rok = 0 ∧ ∀ status, s.phase ≠ .status status
  | _, _ => True

/-! ## The bits of `ISR` -/

theorem and_rok (isr : Nat) : isr &&& rok = 0 ∨ isr &&& rok = 1 := by
  unfold rok
  rw [Nat.and_one_is_mod]
  exact Nat.mod_two_eq_zero_or_one isr

theorem and_rok_append (isr : Nat) : (isr ||| rok) &&& rok = 1 := by
  rw [Nat.and_or_distrib_right]
  rcases and_rok isr with h | h
  · rw [h]
    rfl
  · rw [h]
    rfl

theorem and_rok_sent (isr : Nat) : (isr ||| tok) &&& rok = isr &&& rok := by
  rw [Nat.and_or_distrib_right]
  exact Nat.or_zero _

theorem and_rok_clear (isr : Nat) : clearIsr isr &&& rok = 0 := by
  rw [clearIsr, Nat.and_assoc]
  exact Nat.and_zero _

/-! ## Packets in the buffer -/

theorem dma_inside {a i : Nat} {bs : List Byte} (m : Memory) (hi : i < bs.length) :
    dma a bs m (a + i) = bs[i] := by
  unfold dma
  rw [dif_pos ⟨Nat.le_add_right _ _, Nat.add_lt_add_left hi _⟩]
  simp only [Nat.add_sub_cancel_left, List.get_eq_getElem]

theorem dma_outside {a b : Nat} {bs : List Byte} (m : Memory) (hb : b < a ∨ a + bs.length ≤ b) :
    dma a bs m b = m b := dif_neg (by omega)

theorem readHalf_congr {m m' : Memory} {a : Nat} (h0 : m' a = m a) (h1 : m' (a + 1) = m (a + 1)) :
    readHalf m' a = readHalf m a := by
  unfold readHalf
  rw [h0, h1]

theorem RxPacket.length_image (packet : RxPacket) :
    packet.image.length = packet.frame.length + 4 := by
  rw [RxPacket.image, List.length_append, Nat.add_comm]
  rfl

/-- The device's half word is the length of the frame. -/
theorem RxPacket.readHalf_dma (packet : RxPacket) (a : Nat) (m : Memory) :
    readHalf (dma a packet.image m) (a + 2) = packet.frame.length := by
  have hfits := packet.fits
  have hlength := packet.length_image
  simp only [rxBufferSize] at hfits
  unfold readHalf
  rw [dma_inside m (by omega : 2 < packet.image.length), Nat.add_assoc,
    dma_inside m (by omega : 2 + 1 < packet.image.length)]
  change (BitVec.ofNat 8 _).toNat + 0x100 * (BitVec.ofNat 8 _).toNat = _
  rw [BitVec.toNat_ofNat, BitVec.toNat_ofNat]
  omega

/-- The packets from `ptr` on have frames of the lengths, and the next one goes to
`offset`. -/
def Queued (m : Memory) (rx offset : Nat) : Nat → List Nat → Prop
  | ptr, [] => ptr = offset
  | ptr, length :: lengths =>
      (readHalf m (rx + ptr + 2) = length ∧ 2 * (length + 7) ≤ rxBufferSize) ∧
        Queued m rx offset (nextRxOffset ptr length) lengths

theorem nextRxOffset_lt (offset length : Nat) : nextRxOffset offset length < rxBufferSize :=
  Nat.mod_lt _ (by decide)

theorem Queued.congr {m m' : Memory} {rx offset ptr : Nat} {lengths : List Nat}
    (h : Queued m rx offset ptr lengths) (hptr : ptr < rxBufferSize)
    (hsame : ∀ a, rx ≤ a → a < rx + rxBufferSize + 4 → m' a = m a) :
    Queued m' rx offset ptr lengths := by
  induction lengths generalizing ptr with
  | nil => exact h
  | cons length lengths ih =>
      obtain ⟨⟨hlength, hfits⟩, hrest⟩ := h
      refine ⟨⟨?_, hfits⟩, ih hrest (nextRxOffset_lt _ _)⟩
      refine (readHalf_congr (hsame _ ?_ ?_) (hsame _ ?_ ?_)).trans hlength
      all_goals omega

/-- A packet behind at most one other. -/
theorem Queued.append {m : Memory} {rx offset ptr : Nat} {lengths : List Nat}
    (h : Queued m rx offset ptr lengths) (hone : lengths.length ≤ 1)
    (packet : RxPacket) :
    Queued (dma (rx + offset) packet.image m) rx (nextRxOffset offset packet.frame.length) ptr
      (lengths ++ [packet.frame.length]) := by
  cases lengths with
  | nil =>
      obtain rfl := h
      exact ⟨⟨packet.readHalf_dma _ _, packet.fits⟩, rfl⟩
  | cons length lengths =>
      obtain rfl : lengths = [] := List.length_eq_zero_iff.mp (by simpa using hone)
      obtain ⟨⟨hlength, hfits⟩, hnext⟩ := h
      obtain rfl := hnext
      refine ⟨⟨?_, hfits⟩, ⟨packet.readHalf_dma _ _, packet.fits⟩, rfl⟩
      have hfits' := packet.fits
      have himage := packet.length_image
      simp only [rxBufferSize, nextRxOffset] at hfits hfits' ⊢
      refine (readHalf_congr (dma_outside m ?_) (dma_outside m ?_)).trans hlength
      · omega
      · omega

/-! ## The memory below `ethHeaders` -/

/-- The heap starts with used chunks, one of them that of `rx_buffer`, and `ethHeaders` is
behind them. -/
structure BufferSafe (us : List Chunk) (s : Rtl8139) : Prop where
  tiles : Tiles (header s.heap.mem) heapPtr us (s.ethHeaders - sizeofAllocHeader)
  used : ∀ c ∈ us, c.free = false
  headers : ∀ x ∈ spans heapPtr us, x.1 + sizeofAllocHeader ≤ s.rxBuffer
  rx : heapPtr ≤ s.rxBuffer
  room : s.rxBuffer + rxTotalBufferSize ≤ s.ethHeaders - sizeofAllocHeader
  heap : s.ethHeaders - sizeofAllocHeader < stackBasePtr

/-- The headers of the used chunks are left alone. -/
theorem BufferSafe.congr {us : List Chunk} {s t : Rtl8139} (h : BufferSafe us s)
    (hrx : t.rxBuffer = s.rxBuffer) (heth : t.ethHeaders = s.ethHeaders)
    (hsame : ∀ a, heapPtr ≤ a → a < s.rxBuffer → t.heap.mem a = s.heap.mem a) :
    BufferSafe us t where
  tiles := by
    rw [heth]
    refine h.tiles.congr fun x hx => header_congr fun a hlo hhi => hsame a ?_ ?_
    · exact Nat.le_trans (mem_spans_bounds hx).1 hlo
    · exact Nat.lt_of_lt_of_le hhi (h.headers x hx)
  used := h.used
  headers := by
    rw [hrx]
    exact h.headers
  rx := by
    rw [hrx]
    exact h.rx
  room := by
    rw [hrx, heth]
    exact h.room
  heap := by
    rw [heth]
    exact h.heap

theorem makeSlot_below {s : Rtl8139} {a : Nat} (ha : a < s.ethHeaders - sizeofAllocHeader) :
    (makeSlot s).heap.mem a = s.heap.mem a := by
  have hslot := (rtl8139GetEthHeader_inside s.firstHeader s).1
  unfold makeSlot
  split
  · change setIsFree s.heap.mem (freedHeader s - sizeofAllocHeader) true a = _
    refine setIsFree_below true ?_
    unfold freedHeader
    omega
  · rfl

/-- All that `receive_packet` leaves alone. -/
structure ReceivedBelow (s t : Rtl8139) : Prop where
  mem : ∀ a, heapPtr ≤ a → a < s.ethHeaders - sizeofAllocHeader → t.heap.mem a = s.heap.mem a
  rxBuffer : t.rxBuffer = s.rxBuffer
  ethHeaders : t.ethHeaders = s.ethHeaders
  ptr : t.currentPacketPtr = nextPacketPtr s.currentPacketPtr (frameLength s)

theorem makeSlot_currentPacketPtr (s : Rtl8139) :
    (makeSlot s).currentPacketPtr = s.currentPacketPtr := by
  unfold makeSlot
  split
  · rfl
  · rfl

theorem receivePacket_below {process : PacketParser} {us : List Chunk} {s t : Rtl8139}
    (h : BufferSafe us s) (hreceive : receivePacket process s = some t) : ReceivedBelow s t := by
  obtain ⟨heap, frame, hcall, rfl⟩ := receivePacket_returns hreceive
  have habove := malloc_above h.tiles h.used h.heap hcall
  refine ⟨fun a hlo hhi => ?_, makeSlot_rxBuffer _, makeSlot_ethHeaders _, ?_⟩
  · have hcopy : (copyFrame (frame.getD 0) (frameLength s) (afterMalloc heap s)).heap.mem a =
        heap.mem a := by
      refine (memcpy_writes _ _ _ _).frame a fun hin => ?_
      cases frame with
      | none =>
          have hlength := frameLength_lt s
          simp only [Option.getD_none, heapPtr, heapAddress] at hin hlo
          omega
      | some q =>
          have hq := habove.taken q rfl
          simp only [Option.getD_some] at hin
          omega
    generalize hu : copyFrame (frame.getD 0) (frameLength s) (afterMalloc heap s) = u at hcopy
    have heth : u.ethHeaders = s.ethHeaders := hu ▸ rfl
    have hslot := (rtl8139GetEthHeader_inside (makeSlot u).nHeaders (makeSlot u)).1
    rw [makeSlot_ethHeaders, heth] at hslot
    unfold receiveFrame
    rw [hu]
    calc storeHeader (makeSlot u).heap.mem
          (rtl8139GetEthHeader (makeSlot u).nHeaders (makeSlot u)) _ a
        = (makeSlot u).heap.mem a := storeHeader_of_outside (Or.inl (by omega))
      _ = u.heap.mem a := makeSlot_below (heth ▸ hhi)
      _ = heap.mem a := hcopy
      _ = s.heap.mem a := habove.mem a hhi
  · exact congrArg (nextPacketPtr · (frameLength s)) (makeSlot_currentPacketPtr _)

/-- The driver reads the length that the device wrote. -/
theorem nextPacketPtr_frameLength {s : Rtl8139} {length : Nat}
    (hlength : readHalf s.heap.mem (s.rxBuffer + s.currentPacketPtr + 2) = length)
    (hfits : 2 * (length + 7) ≤ rxBufferSize) (hptr : s.currentPacketPtr < rxBufferSize) :
    nextPacketPtr s.currentPacketPtr (frameLength s) = nextRxOffset s.currentPacketPtr length := by
  unfold frameLength
  rw [hlength]
  simp only [rxBufferSize, nextPacketPtr, nextRxOffset] at hfits hptr ⊢
  omega

/-! ## The backlog over whole runs -/

/-- How many packets wait: one that `ROK` stands for, and one that a handler has
acknowledged and not received yet. -/
def Waiting (isr : Nat) : IrqPhase → Nat → Prop
  | .idle, n => n = isr &&& rok
  | .status status, n => n = isr &&& rok ∧ status &&& rok = isr &&& rok
  | .acknowledged status, n => n = (status &&& rok) + (isr &&& rok)

theorem Waiting.congr {isr isr' n : Nat} {phase : IrqPhase} (h : Waiting isr phase n)
    (hbit : isr' &&& rok = isr &&& rok) : Waiting isr' phase n := by
  cases phase with
  | idle => exact h.trans hbit.symm
  | status status => exact ⟨h.1.trans hbit.symm, h.2.trans hbit.symm⟩
  | acknowledged status => exact h.trans (congrArg (_ + ·) hbit.symm)

/-- The invariant. -/
structure IrqKept (s : IrqState) (lengths : List Nat) : Prop where
  buffer : ∃ us, BufferSafe us s.nic
  ptr : s.nic.currentPacketPtr < rxBufferSize
  queued : Queued s.nic.heap.mem s.nic.rxBuffer s.rxOffset s.nic.currentPacketPtr lengths
  count : s.recorded + lengths.length = s.appended
  waiting : Waiting s.isr s.phase lengths.length

theorem IrqKept.noBacklog {s : IrqState} {lengths : List Nat} (h : IrqKept s lengths) :
    NoBacklog s := by
  intro hclear hidle
  have hwaiting := h.waiting
  rw [hidle] at hwaiting
  have hnone : lengths.length = 0 := Eq.trans hwaiting hclear
  have hcount := h.count
  obtain rfl := List.length_eq_zero_iff.mp hnone
  exact ⟨h.queued, hcount⟩

theorem IrqKept.append {s : IrqState} {lengths : List Nat} (h : IrqKept s lengths)
    (packet : RxPacket) (halone : AppendsAlone s (.append packet)) :
    IrqKept (rxAppend packet s) (lengths ++ [packet.frame.length]) := by
  obtain ⟨us, hsafe⟩ := h.buffer
  obtain ⟨hclear, hphase⟩ := halone
  have hwaiting := h.waiting
  have hset : (rxAppend packet s).isr &&& rok = 1 := and_rok_append s.isr
  have hone : lengths.length ≤ 1 ∧
      Waiting (rxAppend packet s).isr s.phase (lengths.length + 1) := by
    cases hcase : s.phase with
    | idle =>
        rw [hcase] at hwaiting
        have hlength : lengths.length = s.isr &&& rok := hwaiting
        exact ⟨by omega, (by omega : lengths.length + 1 = (rxAppend packet s).isr &&& rok)⟩
    | status status => exact absurd hcase (hphase status)
    | acknowledged status =>
        rw [hcase] at hwaiting
        have hlength : lengths.length = (status &&& rok) + (s.isr &&& rok) := hwaiting
        have hbit := and_rok status
        exact ⟨by omega, (by omega : lengths.length + 1 =
          (status &&& rok) + ((rxAppend packet s).isr &&& rok))⟩
  refine ⟨⟨us, hsafe.congr rfl rfl fun a _ ha => ?_⟩, h.ptr, h.queued.append hone.1 packet, ?_, ?_⟩
  · exact dma_outside _ (Or.inl (Nat.lt_of_lt_of_le ha (Nat.le_add_right _ _)))
  · have hcount := h.count
    rw [List.length_append]
    change s.recorded + (lengths.length + 1) = s.appended + 1
    omega
  · rw [List.length_append]
    exact hone.2

/-- A packet is received. -/
theorem IrqKept.receive {process : PacketParser} {s : IrqState} {length : Nat} {lengths : List Nat}
    (h : IrqKept s (length :: lengths)) {nic : Rtl8139}
    (hreceive : receivePacket process s.nic = some nic) :
    (∃ us, BufferSafe us nic) ∧ nic.currentPacketPtr < rxBufferSize ∧
      Queued nic.heap.mem nic.rxBuffer s.rxOffset nic.currentPacketPtr lengths := by
  obtain ⟨us, hsafe⟩ := h.buffer
  obtain ⟨⟨hlength, hfits⟩, hrest⟩ := h.queued
  have hbelow := receivePacket_below hsafe hreceive
  have hnext := hbelow.ptr.trans (nextPacketPtr_frameLength hlength hfits h.ptr)
  have hroom := hsafe.room
  have hrx := hsafe.rx
  simp only [rxTotalBufferSize] at hroom
  refine ⟨⟨us, hsafe.congr hbelow.rxBuffer hbelow.ethHeaders fun a hlo hhi => ?_⟩, ?_, ?_⟩
  · exact hbelow.mem a hlo (by omega)
  · rw [hnext]
    exact nextRxOffset_lt _ _
  · rw [hnext, hbelow.rxBuffer]
    refine hrest.congr (nextRxOffset_lt _ _) fun a hlo hhi => hbelow.mem a ?_ ?_
    · omega
    · simp only [rxBufferSize] at hhi
      omega

theorem IrqKept.handle {process : PacketParser} {s t : IrqState} {lengths : List Nat} {status : Nat}
    (h : IrqKept s lengths) (hphase : s.phase = .acknowledged status)
    (hreturns : irqHandle process status s = some t) : ∃ lengths', IrqKept t lengths' := by
  have hwaiting := h.waiting
  rw [hphase] at hwaiting
  have hlength : lengths.length = (status &&& rok) + (s.isr &&& rok) := hwaiting
  have hbit := and_rok status
  unfold irqHandle at hreturns
  split at hreturns
  · obtain ⟨nic, hreceive, rfl⟩ := Option.map_eq_some_iff.mp hreturns
    cases lengths with
    | nil =>
        rw [List.length_nil] at hlength
        omega
    | cons length lengths =>
        obtain ⟨hsafe, hptr, hqueued⟩ := h.receive hreceive
        have hcount := h.count
        rw [List.length_cons] at hlength hcount
        exact ⟨lengths, hsafe, hptr, hqueued,
          (by omega : s.recorded + 1 + lengths.length = s.appended),
          (by omega : lengths.length = s.isr &&& rok)⟩
  · obtain rfl := Option.some.inj hreturns
    exact ⟨lengths, h.buffer, h.ptr, h.queued, h.count, (by omega : lengths.length = s.isr &&& rok)⟩

theorem IrqStep.kept {process : PacketParser} {s t : IrqState} {event : IrqEvent}
    (h : ∃ lengths, IrqKept s lengths) (halone : AppendsAlone s event)
    (hstep : IrqStep process s event t) : ∃ lengths, IrqKept t lengths := by
  obtain ⟨lengths, h⟩ := h
  have hwaiting := h.waiting
  cases hstep with
  | append packet => exact ⟨_, h.append packet halone⟩
  | sent =>
      refine ⟨lengths, h.buffer, h.ptr, h.queued, h.count, ?_⟩
      exact hwaiting.congr (and_rok_sent s.isr)
  | readStatus hidle _ =>
      rw [hidle] at hwaiting
      exact ⟨lengths, h.buffer, h.ptr, h.queued, h.count, hwaiting, rfl⟩
  | @acknowledge status hphase =>
      refine ⟨lengths, h.buffer, h.ptr, h.queued, h.count, ?_⟩
      rw [hphase] at hwaiting
      obtain ⟨hlength, hstatus⟩ := hwaiting
      change lengths.length = (status &&& rok) + (clearIsr s.isr &&& rok)
      rw [and_rok_clear, hstatus]
      exact hlength
  | handle hphase hreturns => exact h.handle hphase hreturns

theorem NicBooted.bufferSafe {top : Nat} {s : NicState} (h : NicBooted top s) :
    ∃ us, BufferSafe us s.nic := by
  obtain ⟨mid, ⟨us, hused, htop, hinv⟩, hlive, heth⟩ := h.before
  have hlo : s.nic.ethHeaders - sizeofAllocHeader =
      top + (rxTotalBufferSize + sizeofAllocHeader) := by
    rw [h.eth]
    exact Nat.add_sub_cancel _ _
  have htiles : Tiles (header mid.heap.mem) heapPtr us (s.nic.ethHeaders - sizeofAllocHeader) := by
    rw [hlo, ← htop]
    exact (tiles_append.mp hinv.wellFormed.tiles).1
  have hspans : ∀ x ∈ spans heapPtr us, x ∈ spans heapPtr
      (us ++ [⟨true, stackBasePtr - (top + (rxTotalBufferSize + sizeofAllocHeader))⟩]) := by
    intro x hx
    rw [spans_append]
    exact List.mem_append_left _ hx
  have hroom := h.room
  have hrx := h.rx
  have habove := malloc_above htiles hused (by omega) heth
  -- the chunk of the receive buffer is the last one
  obtain ⟨c, hc, -, hsize⟩ := hinv.liveUsed _ hlive
  change rxTotalBufferSize + sizeofAllocHeader ≤ c.size at hsize
  simp only [rxBufferBlock, hrx, Nat.add_sub_cancel] at hc
  refine ⟨us, ?_, hused, fun x hx => ?_, ?_, ?_, ?_⟩
  · refine htiles.congr fun x hx => header_congr fun a _ hhi => habove.mem a ?_
    have hend := (mem_spans_bounds hx).2
    have hxsize := hinv.wellFormed.size_ge x.2 (chunk_mem_of_mem_spans (hspans x hx))
    simp only [sizeofAllocHeader] at hxsize
    rw [hlo]
    omega
  · have hend := (mem_spans_bounds hx).2
    have hxsize := hinv.wellFormed.size_ge x.2 (chunk_mem_of_mem_spans (hspans x hx))
    simp only [sizeofAllocHeader] at hxsize
    rcases eq_or_apart_of_mem_spans (hspans x hx) hc with heq | hapart | hapart
    · rw [heq, hrx]
    · simp only at hapart
      omega
    · simp only at hapart
      omega
  · have hstart := (mem_spans_bounds hc).1
    simp only at hstart
    omega
  · omega
  · omega

/-- After boot: while packets are appended one at a time, whenever `ROK` is clear and no
handler runs, every appended packet is recorded, and `current_packet_ptr` is where the device
places the next one. -/
theorem irqRuns_noBacklog {devicesSize : Nat} (hdevices : devicesSize ≤ pciFunctions) (m : Memory)
    (process : PacketParser) : ∃ s, nicBoot devicesSize m = some s ∧ ∀ path,
      IsPath (IrqStep process) (irqStart s.nic) path →
        StepsMeet AppendsAlone (irqStart s.nic) path →
          ∀ t ∈ visited (irqStart s.nic) path, NoBacklog t := by
  obtain ⟨_, s, hboot, hs⟩ := nicBoot_spec hdevices m
  have hstart : IrqKept (irqStart s.nic) [] :=
    ⟨hs.bufferSafe, hs.ptr.trans_lt (by decide), hs.ptr, rfl, (by decide : 0 = 0 &&& rok)⟩
  refine ⟨s, hboot, fun path hrun halone t ht => ?_⟩
  obtain ⟨lengths, hkept⟩ := hrun.invariant_of_stepsMeet
    (fun _ _ _ hinv hok hstep => hstep.kept hinv hok) ⟨[], hstart⟩ halone t ht
  exact hkept.noBacklog

/-- A packet of 64 bytes. -/
def shortPacket : RxPacket := ⟨1, List.replicate 64 0, by decide⟩

/-- `rtl8139_irq` runs once after the packets. -/
def irqAfter (waiting : List RxPacket) (nic : Rtl8139) : Option IrqState :=
  let s := waiting.foldl (fun s packet => rxAppend packet s) (irqStart nic)
  irqHandle frontParser s.isr { s with isr := clearIsr s.isr, phase := .acknowledged s.isr }

/-- One packet. -/
theorem irqRuns_noBacklog_one : ∃ s path, nicBoot 1 (fun _ => 0) = some s ∧
    IsPath (IrqStep frontParser) (irqStart s.nic) path ∧
    (endState (irqStart s.nic) path).recorded = 1 ∧ NoBacklog (endState (irqStart s.nic) path) := by
  have hreturns : (((nicBoot 1 fun _ => 0).bind fun s => irqAfter [shortPacket] s.nic).map
      IrqState.recorded) = some 1 := by decide +kernel
  obtain ⟨t, ht, hone⟩ := Option.map_eq_some_iff.mp hreturns
  obtain ⟨s, hboot, hafter⟩ := Option.bind_eq_some_iff.mp ht
  obtain ⟨s', hboot', hnone⟩ :=
    irqRuns_noBacklog (by decide : 1 ≤ pciFunctions) (fun _ => 0) frontParser
  obtain rfl := Option.some.inj (hboot'.symm.trans hboot)
  have hrequest : (0 ||| rok) &&& (tok ||| rok) ≠ 0 := by decide
  have hclear : (0 &&& rok) = 0 := by decide
  obtain ⟨path, hrun, halone, hend⟩ : ∃ path, IsPath (IrqStep frontParser) (irqStart s'.nic) path ∧
      StepsMeet AppendsAlone (irqStart s'.nic) path ∧ endState (irqStart s'.nic) path = t :=
    ⟨[(.append shortPacket, _), (.readStatus, _), (.acknowledge, _), (.handle, t)],
      ⟨.append shortPacket, .readStatus rfl hrequest, .acknowledge rfl, .handle rfl hafter,
        trivial⟩,
      ⟨⟨hclear, fun _ h => nomatch h⟩, trivial, trivial, trivial, trivial⟩, rfl⟩
  refine ⟨s', path, hboot, hrun, ?_, hnone path hrun halone _ (endState_mem_visited _ _)⟩
  rw [hend]
  exact hone

/-- Two packets before the interrupt: the second one is not received. -/
theorem irqRuns_backlog : ∃ s path, nicBoot 1 (fun _ => 0) = some s ∧
    IsPath (IrqStep frontParser) (irqStart s.nic) path ∧
    ¬ ∀ t ∈ visited (irqStart s.nic) path, NoBacklog t := by
  have hreturns : (((nicBoot 1 fun _ => 0).bind fun s =>
      irqAfter [shortPacket, shortPacket] s.nic).map fun t =>
        (t.isr &&& rok, t.phase, t.nic.currentPacketPtr, t.rxOffset)) =
          some (0, .idle, 68, 136) := by decide +kernel
  obtain ⟨t, ht, hfields⟩ := Option.map_eq_some_iff.mp hreturns
  obtain ⟨s, hboot, hafter⟩ := Option.bind_eq_some_iff.mp ht
  obtain ⟨hclear, hfields⟩ := Prod.mk.inj hfields
  obtain ⟨hidle, hfields⟩ := Prod.mk.inj hfields
  obtain ⟨hptr, hoffset⟩ := Prod.mk.inj hfields
  have hrequest : (0 ||| rok ||| rok) &&& (tok ||| rok) ≠ 0 := by decide
  refine ⟨s, [(.append shortPacket, _), (.append shortPacket, _), (.readStatus, _),
    (.acknowledge, _), (.handle, t)], hboot, ⟨.append shortPacket, .append shortPacket,
      .readStatus rfl hrequest, .acknowledge rfl, .handle rfl hafter, trivial⟩, fun hnone => ?_⟩
  obtain ⟨hsame, -⟩ := hnone t (endState_mem_visited _ _) hclear hidle
  rw [hptr, hoffset] at hsame
  exact absurd hsame (by decide)

end DonutOS.Kernel
