import DonutOS.Kernel.Rtl8139Irq

set_option autoImplicit false

/-!
# Kernel: the receive pointer and the device's (`kernel/src/rtl8139.c`)

The driver computes where the next packet is from a length that already counts
the packet's header, by 16- and 32-bit arithmetic and a mask.  The device adds
the header, rounds up and wraps.  Over any sequence of packets the two stay
together, whatever else happens to memory between the calls.
-/

namespace DonutOS.Kernel

open DonutOS.Foundation DonutOS.Libc

/-- Where the device places the packet behind packets with frames of these
lengths, the first of them at offset 0. -/
def deviceOffset (lengths : List Nat) : Nat := lengths.foldl nextRxOffset 0

/-- The driver, and the lengths of the frames it has received, which no code
reads. -/
structure RxState where
  nic : Rtl8139
  received : List Nat

/-- A call of `receive_packet` while the buffer holds the packet where the device
placed it.  Nothing is assumed of the rest of memory. -/
inductive ReceiveStep (process : PacketParser) : RxState → RxPacket → RxState → Prop
  | receive {s : RxState} {packet : RxPacket} {m : Memory} {used : Nat} {nic : Rtl8139}
      (hreturns : receivePacket process { s.nic with heap :=
        ⟨dma (s.nic.rxBuffer + deviceOffset s.received) packet.image m, used⟩ } = some nic) :
      ReceiveStep process s packet ⟨nic, s.received ++ [packet.frame.length]⟩

/-- No packet received yet. -/
def rxStart (nic : Rtl8139) : RxState := ⟨nic, []⟩

/-- The driver's pointer is the device's, and so is the one it has written to
`CAPR`. -/
structure PointerFollows (s : RxState) : Prop where
  ptr : s.nic.currentPacketPtr = deviceOffset s.received
  aligned : s.nic.currentPacketPtr % 4 = 0
  inside : s.nic.currentPacketPtr < rxBufferSize
  capr : s.received ≠ [] →
    s.nic.capr = (deviceOffset s.received + 2 ^ 16 - 0x10) % 2 ^ 16

theorem deviceOffset_append (lengths : List Nat) (length : Nat) :
    deviceOffset (lengths ++ [length]) = nextRxOffset (deviceOffset lengths) length := by
  unfold deviceOffset
  rw [List.foldl_append, List.foldl_cons, List.foldl_nil]

/-- Reducing modulo the buffer keeps the alignment. -/
theorem nextRxOffset_aligned (offset length : Nat) : nextRxOffset offset length % 4 = 0 := by
  unfold nextRxOffset rxBufferSize
  omega

/-- What `receive_packet` does to the pointer. -/
theorem receivePacket_ptr {process : PacketParser} {s t : Rtl8139}
    (h : receivePacket process s = some t) :
    t.currentPacketPtr = nextPacketPtr s.currentPacketPtr (frameLength s) ∧
      t.capr = (t.currentPacketPtr + 2 ^ 32 - 0x10) % 2 ^ 16 := by
  obtain ⟨heap, frame, -, rfl⟩ := receivePacket_returns h
  refine ⟨?_, rfl⟩
  exact congrArg (nextPacketPtr · (frameLength s)) (makeSlot_currentPacketPtr _)

theorem PointerFollows.receive {process : PacketParser} {s t : RxState} {packet : RxPacket}
    (h : PointerFollows s) (hstep : ReceiveStep process s packet t) : PointerFollows t := by
  cases hstep with
  | @receive m used nic hreturns =>
      obtain ⟨hptr, hcapr⟩ := receivePacket_ptr hreturns
      have hnext : nic.currentPacketPtr =
          nextRxOffset s.nic.currentPacketPtr packet.frame.length := by
        refine hptr.trans (nextPacketPtr_frameLength ?_ packet.fits h.inside)
        simp only
        rw [h.ptr]
        exact packet.readHalf_dma _ m
      have hoffset : nic.currentPacketPtr =
          deviceOffset (s.received ++ [packet.frame.length]) := by
        rw [hnext, h.ptr, deviceOffset_append]
      refine ⟨hoffset, ?_, ?_, fun _ => ?_⟩
      · rw [hnext]
        exact nextRxOffset_aligned _ _
      · rw [hnext]
        exact nextRxOffset_lt _ _
      · rw [← hoffset, hcapr]
        omega

theorem rtl8139Init_ptr {heap : Heap} {nic : Rtl8139}
    (hinit : rtl8139Init (rtl8139AtBoot heap) = some nic) : nic.currentPacketPtr = 0 := by
  obtain ⟨_, _, _, rfl⟩ := rtl8139Init_some hinit
  rfl

/-- After `rtl8139_init` and any number of packets, `current_packet_ptr` is where the
device places the next packet, a multiple of 4 inside the buffer, and `CAPR` holds
it less 0x10. -/
theorem rxRuns_pointerFollows {process : PacketParser} {heap : Heap} {nic : Rtl8139}
    (hinit : rtl8139Init (rtl8139AtBoot heap) = some nic) {path : List (RxPacket × RxState)}
    (hpath : IsPath (ReceiveStep process) (rxStart nic) path) :
    ∀ s ∈ visited (rxStart nic) path, PointerFollows s := by
  have hptr := rtl8139Init_ptr hinit
  have hstart : PointerFollows (rxStart nic) := by
    refine ⟨hptr, ?_, ?_, fun hne => absurd rfl hne⟩
    · exact congrArg (· % 4) hptr
    · exact Nat.lt_of_le_of_lt (Nat.le_of_eq hptr) (by decide)
  exact hpath.invariant (fun _ _ _ h hstep => h.receive hstep) hstart

/-- Packets received one after another, each with the rest of memory as it is in `m`. -/
def receiveAll (process : PacketParser) (m : Memory) (used : Nat) :
    List RxPacket → RxState → Option RxState
  | [], s => some s
  | packet :: packets, s =>
      (receivePacket process { s.nic with heap :=
        ⟨dma (s.nic.rxBuffer + deviceOffset s.received) packet.image m, used⟩ }).bind fun nic =>
          receiveAll process m used packets ⟨nic, s.received ++ [packet.frame.length]⟩

theorem exists_receivePath {process : PacketParser} {m : Memory} {used : Nat}
    {packets : List RxPacket} {s t : RxState} (h : receiveAll process m used packets s = some t) :
    ∃ path, IsPath (ReceiveStep process) s path ∧ path.map Prod.fst = packets ∧
      endState s path = t := by
  induction packets generalizing s with
  | nil => exact ⟨[], trivial, rfl, Option.some.inj h⟩
  | cons packet packets ih =>
      obtain ⟨nic, hreturns, hrest⟩ := Option.bind_eq_some_iff.mp h
      obtain ⟨path, hpath, hlabels, hend⟩ := ih hrest
      exact ⟨(packet, _) :: path, ⟨.receive hreturns, hpath⟩, congrArg (packet :: ·) hlabels, hend⟩

theorem longFrame_fits (n : Nat) (hn : n ≤ 4089) :
    2 * ((List.replicate n (0 : Byte)).length + 7) ≤ rxBufferSize := by
  rw [List.length_replicate]
  unfold rxBufferSize
  omega

/-- A packet of `n` bytes. -/
def longPacket (n : Nat) (hn : n ≤ 4089) : RxPacket := ⟨1, List.replicate n 0, longFrame_fits n hn⟩

/-- Three packets that together are longer than the buffer. -/
def longPackets : List RxPacket :=
  [longPacket 4000 (Nat.le_of_ble_eq_true rfl), longPacket 4000 (Nat.le_of_ble_eq_true rfl),
    longPacket 1001 (Nat.le_of_ble_eq_true rfl)]

/-- The third packet goes round the end of the buffer, on a machine whose memory is zero. -/
theorem rxRuns_pointerFollows_wrapped : ∃ nic path,
    rtl8139Init (rtl8139AtBoot (heapInit ⟨fun _ => 0, 0⟩)) = some nic ∧
      IsPath (ReceiveStep frontParser) (rxStart nic) path ∧ path.map Prod.fst = longPackets ∧
      (endState (rxStart nic) path).nic.currentPacketPtr = 824 ∧
      ∀ s ∈ visited (rxStart nic) path, PointerFollows s := by
  have hptr : ((rtl8139Init (rtl8139AtBoot (heapInit ⟨fun _ => 0, 0⟩))).bind fun nic =>
      (receiveAll frontParser nic.heap.mem nic.heap.memoryUsed longPackets (rxStart nic)).map
        fun s => s.nic.currentPacketPtr) = some 824 := by decide +kernel
  obtain ⟨nic, hinit, hruns⟩ := Option.bind_eq_some_iff.mp hptr
  obtain ⟨t, hreceived, ht⟩ := Option.map_eq_some_iff.mp hruns
  obtain ⟨path, hpath, hlabels, hend⟩ := exists_receivePath hreceived
  exact ⟨nic, path, hinit, hpath, hlabels, hend ▸ ht, rxRuns_pointerFollows hinit hpath⟩

end DonutOS.Kernel
