import DonutOS.Kernel.HeaderRing

set_option autoImplicit false

/-!
# Kernel: what is read of a packet (`receive_packet`)

`receive_packet` once more, with the addresses of the receive buffer that it reads.  Its
`frame_length` counts four bytes that the copy has already left out.
-/

namespace DonutOS.Kernel

open DonutOS.Foundation DonutOS.Libc

/-! ## The copy -/

/-- `moveWords`, with the addresses read. -/
def moveWordsReads (dest src n : Nat) (x : Store × List Nat) : Store × List Nat :=
  forLoop (fun i x =>
    (x.1.putWord (dest + 4 * i) (readWord x.1.bytes (src + 4 * i)),
      x.2 ++ List.range' (src + 4 * i) 4)) 0 n x

/-- `moveBytes`, with the addresses read. -/
def moveBytesReads (dest src n : Nat) (x : Store × List Nat) : Store × List Nat :=
  forLoop (fun i x => (x.1.put (dest + i) (x.1.bytes (src + i)), x.2 ++ [src + i])) 0 n x

/-- `memcpy`, with the addresses read. -/
def memcpyReads (dest src size : Nat) (x : Store × List Nat) : Store × List Nat :=
  moveBytesReads (dest + 4 * (size / 4)) (src + 4 * (size / 4)) (size % 4)
    (moveWordsReads dest src (size / 4) x)

theorem moveWordsReads_eq (dest src n : Nat) (x : Store × List Nat) :
    moveWordsReads dest src n x =
      (moveWords dest src n x.1, x.2 ++ List.range' src (4 * n)) := by
  have hloop := forLoop_logged
    (fun i (st : Store) => st.putWord (dest + 4 * i) (readWord st.bytes (src + 4 * i)))
    (fun i => List.range' (src + 4 * i) 4) n 0 x
  rw [flatMap_range'_range'] at hloop
  exact hloop

theorem moveBytesReads_eq (dest src n : Nat) (x : Store × List Nat) :
    moveBytesReads dest src n x = (moveBytes dest src n x.1, x.2 ++ List.range' src n) := by
  have hlog : (fun i => [src + i]) = fun i => List.range' (src + 1 * i) 1 := by
    funext i
    rw [Nat.one_mul]
    rfl
  have hloop := forLoop_logged (fun i (st : Store) => st.put (dest + i) (st.bytes (src + i)))
    (fun i => [src + i]) n 0 x
  rw [hlog, flatMap_range'_range'] at hloop
  simp only [Nat.one_mul, Nat.add_zero] at hloop
  exact hloop

/-- A copy reads the bytes of its source, each once. -/
theorem memcpyReads_eq (dest src size : Nat) (x : Store × List Nat) :
    memcpyReads dest src size x = (memcpy dest src size x.1, x.2 ++ List.range' src size) := by
  unfold memcpyReads
  rw [moveWordsReads_eq, moveBytesReads_eq, List.append_assoc, List.range'_append_1,
    Nat.div_add_mod]
  rfl

/-! ## `receive_packet` -/

/-- The addresses of the receive buffer that are read, for `frame_length` and by the copy. -/
structure RxReads where
  header : List Nat
  copied : List Nat

/-- `memcpy(frame, t+2, frame_length)`, with the addresses read. -/
def copyFrameReads (frame length : Nat) (s : Rtl8139) : Rtl8139 × List Nat :=
  let copied :=
    memcpyReads frame (s.rxBuffer + s.currentPacketPtr + 4) length (⟨s.heap.mem, []⟩, [])
  ({ s with heap := { s.heap with mem := copied.1.bytes } }, copied.2)

/-- `receive_packet` once `malloc` has returned, with the addresses that the copy reads. -/
def receiveFrameReads (process : PacketParser) (frame length : Nat) (s : Rtl8139) :
    Rtl8139 × List Nat :=
  let copied := copyFrameReads frame length s
  (advancePacketPtr length (appendHeader (process (makeSlot copied.1).heap.mem frame length)
    (makeSlot copied.1)), copied.2)

/-- `receive_packet`, with the addresses of the receive buffer that it reads. -/
def receivePacketReads (process : PacketParser) (s : Rtl8139) : Option (Rtl8139 × RxReads) :=
  let header := List.range' (s.rxBuffer + s.currentPacketPtr + 2) 2
  let length := frameLength s
  let s := { s with bytesReceived := Int.bmod (s.bytesReceived + length + 4) (2 ^ 32) }
  match malloc s.heap length with
  | none => none
  | some (heap, frame) =>
      let received := receiveFrameReads process (frame.getD 0) length { s with heap := heap }
      some (received.1, ⟨header, received.2⟩)

theorem copyFrameReads_eq (frame length : Nat) (s : Rtl8139) :
    copyFrameReads frame length s =
      (copyFrame frame length s, List.range' (s.rxBuffer + s.currentPacketPtr + 4) length) := by
  unfold copyFrameReads
  rw [memcpyReads_eq]
  rfl

theorem receiveFrameReads_eq (process : PacketParser) (frame length : Nat) (s : Rtl8139) :
    receiveFrameReads process frame length s =
      (receiveFrame process frame length s,
        List.range' (s.rxBuffer + s.currentPacketPtr + 4) length) := by
  unfold receiveFrameReads
  rw [copyFrameReads_eq]
  rfl

/-- The copy computes what `receive_packet` does. -/
theorem receivePacketReads_fst (process : PacketParser) (s : Rtl8139) :
    (receivePacketReads process s).map Prod.fst = receivePacket process s := by
  unfold receivePacketReads receivePacket
  simp only
  cases hcall : malloc s.heap (frameLength s) with
  | none => rfl
  | some answer =>
      simp only [receiveFrameReads_eq, Option.map_some]

/-- All that is read, whatever `malloc` has answered. -/
theorem receivePacketReads_reads {process : PacketParser} {s t : Rtl8139} {reads : RxReads}
    (h : receivePacketReads process s = some (t, reads)) :
    reads = ⟨List.range' (s.rxBuffer + s.currentPacketPtr + 2) 2,
      List.range' (s.rxBuffer + s.currentPacketPtr + 4) (frameLength s)⟩ := by
  unfold receivePacketReads at h
  simp only at h
  split at h
  · exact nomatch h
  · rw [receiveFrameReads_eq] at h
    exact ((Prod.mk.inj (Option.some.inj h)).2).symm

/-! ## The packet -/

/-- The length that the device has written in the header of the packet. -/
def packetLength (s : Rtl8139) : Nat := readHalf s.heap.mem (s.rxBuffer + s.currentPacketPtr + 2)

/-- Everything is read inside the receive buffer. -/
def ReadsInside (s : Rtl8139) (reads : RxReads) : Prop :=
  ∀ b ∈ reads.header ++ reads.copied, s.rxBuffer ≤ b ∧ b < s.rxBuffer + rxTotalBufferSize

/-- What is copied is the packet behind its header. -/
def CopiesPacket (s : Rtl8139) (reads : RxReads) : Prop :=
  reads.copied = List.range' (s.rxBuffer + s.currentPacketPtr + 4) (packetLength s)

theorem frameLength_of_le {s : Rtl8139} (hlength : packetLength s ≤ 1518) :
    frameLength s = packetLength s + 4 := by
  unfold packetLength at hlength ⊢
  unfold frameLength
  exact Nat.mod_eq_of_lt (by omega)

theorem readsInside_iff {s : Rtl8139} {n : Nat} (hptr : s.currentPacketPtr < rxBufferSize) :
    ReadsInside s ⟨List.range' (s.rxBuffer + s.currentPacketPtr + 2) 2,
        List.range' (s.rxBuffer + s.currentPacketPtr + 4) n⟩ ↔
      s.currentPacketPtr + 4 + n ≤ rxTotalBufferSize := by
  unfold ReadsInside
  unfold rxBufferSize at hptr
  unfold rxTotalBufferSize
  simp only [List.mem_append, List.mem_range'_1]
  constructor
  · intro h
    by_cases hn : n = 0
    · omega
    · have hlast := h (s.rxBuffer + s.currentPacketPtr + 4 + (n - 1)) (Or.inr (by omega))
      omega
  · rintro h b (hb | hb)
    · omega
    · omega

/-- A packet never is copied as it is: four bytes behind it are copied with it, and near
the end of the buffer these are outside of it. -/
theorem receivePacket_copy {process : PacketParser} {s t : Rtl8139} {reads : RxReads}
    (hreturns : receivePacketReads process s = some (t, reads))
    (hptr : s.currentPacketPtr < rxBufferSize) (hlength : packetLength s ≤ 1518) :
    ¬(ReadsInside s reads ∧ CopiesPacket s reads) ∧
      (ReadsInside s reads ↔ s.currentPacketPtr + packetLength s + 8 ≤ rxTotalBufferSize) := by
  rw [receivePacketReads_reads hreturns, frameLength_of_le hlength]
  constructor
  · rintro ⟨-, hcopies⟩
    have hcount := congrArg List.length hcopies
    rw [List.length_range', List.length_range'] at hcount
    omega
  · rw [readsInside_iff hptr]
    omega

/-- The driver after `rtl8139_init` on a machine whose memory is zero, when a packet of
length 1516 starts in the last four bytes that the device wraps at. -/
def wrappingRx : Option Rtl8139 :=
  (rtl8139Init (rtl8139AtBoot (heapStart fun _ => 0).heap)).map fun s =>
    { s with
      currentPacketPtr := 8188
      heap := { s.heap with
        mem := writeByte (writeByte s.heap.mem (s.rxBuffer + 8190) 0xec)
          (s.rxBuffer + 8191) 0x05 } }

/-- The packet is received. -/
theorem exists_wrappingRx : ∃ s t reads, receivePacketReads frontParser s = some (t, reads) ∧
    s.currentPacketPtr = 8188 ∧ packetLength s = 1516 := by
  have hreceived : (wrappingRx.bind fun s => (receivePacketReads frontParser s).filter fun _ =>
      s.currentPacketPtr = 8188 ∧ packetLength s = 1516).isSome = true := by decide +kernel
  obtain ⟨⟨t, reads⟩, hsome⟩ := Option.isSome_iff_exists.mp hreceived
  obtain ⟨s, -, hfilter⟩ := Option.bind_eq_some_iff.mp hsome
  obtain ⟨hreturns, hpacket⟩ := Option.filter_eq_some_iff.mp hfilter
  have hfacts := of_decide_eq_true hpacket
  exact ⟨s, t, reads, hreturns, hfacts⟩

theorem receivePacket_copy_wrapping : ∃ s t reads,
    receivePacketReads frontParser s = some (t, reads) ∧
      ¬(ReadsInside s reads ∧ CopiesPacket s reads) ∧
      (ReadsInside s reads ↔ s.currentPacketPtr + packetLength s + 8 ≤ rxTotalBufferSize) := by
  obtain ⟨s, t, reads, hreturns, hptr, hlength⟩ := exists_wrappingRx
  exact ⟨s, t, reads, hreturns, receivePacket_copy hreturns (hptr.trans_lt (by decide))
    (hlength.trans_le (by decide))⟩

/-- The copy of that packet ends four bytes behind the buffer, and behind the packet. -/
theorem not_receivePacket_copy_wrapping : ¬ ∀ (process : PacketParser) (s t : Rtl8139)
    (reads : RxReads), receivePacketReads process s = some (t, reads) →
      s.currentPacketPtr % 4 = 0 → s.currentPacketPtr < rxBufferSize → packetLength s ≤ 1518 →
      ReadsInside s reads ∧ CopiesPacket s reads := by
  intro h
  obtain ⟨s, t, reads, hreturns, hptr, hlength⟩ := exists_wrappingRx
  have hinside := (h _ s t reads hreturns (by rw [hptr]) (hptr.trans_lt (by decide))
    (hlength.trans_le (by decide))).1
  rw [receivePacketReads_reads hreturns, frameLength_of_le (hlength.trans_le (by decide)),
    readsInside_iff (hptr.trans_lt (by decide)), hptr, hlength] at hinside
  revert hinside
  decide

end DonutOS.Kernel
