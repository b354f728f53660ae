import DonutOS.Kernel.PacketParse
import DonutOS.Kernel.RxPointer
import DonutOS.Libc.Calloc

set_option autoImplicit false

/-!
# Kernel: the frames on the heap (`kernel/src/rtl8139.c`)

`receive_packet` allocates a frame for every packet, and no code frees one: what
`removeFirstHeader` frees is a pointer into `ethHeaders`.  The heap meets the
requests as long as the frames received so far leave room and nothing has been
freed.
-/

namespace DonutOS.Kernel

open DonutOS.Foundation DonutOS.Libc

/-! ## Receiving -/

/-- The machine with other memory. -/
def NicState.withMem (m : Memory) (s : NicState) : NicState :=
  { s with nic := { s.nic with heap := { s.nic.heap with mem := m } } }

@[simp] theorem withMem_nHeaders (m : Memory) (s : NicState) :
    (s.withMem m).nic.nHeaders = s.nic.nHeaders := rfl

@[simp] theorem withMem_bytesReceived (m : Memory) (s : NicState) :
    (s.withMem m).nic.bytesReceived = s.nic.bytesReceived := rfl

/-- The device writes to the receive buffer only. -/
def DeviceWrites (rx : Nat) (m m' : Memory) : Prop :=
  ∀ a, m' a ≠ m a → rx ≤ a ∧ a < rx + rxTotalBufferSize

/-- The device writes a packet, of any length, and `receive_packet` takes it; the label is
the memory that it finds. -/
inductive FrameStep (process : PacketParser) : NicState → Memory → NicState → Prop
  | receive {s t : NicState} {m : Memory} (hdevice : DeviceWrites s.nic.rxBuffer s.nic.heap.mem m)
      (hreceive : nicReceive process (s.withMem m) = some t) : FrameStep process s m t

/-- `init_os`, as far as it concerns the heap: `heap_init`, `pci_scan_bus`, `rtl8139_init`,
`paging_init`. -/
def nicInitOs (devicesSize : Nat) (pages : PageState) : Option NicState :=
  (nicBoot devicesSize pages.mem).map fun s =>
    s.withMem (pagingInit { pages with mem := s.nic.heap.mem }).mem

/-! ## The property and the condition -/

/-- `frame_length` of a packet of 1518 bytes. -/
def maxFrameLength : Nat := 1518 + 4

/-- The used chunks are shorter than this when such a frame has room behind them. -/
def usedBound : Nat := heapMaxSize - (maxFrameLength + sizeofAllocHeader)

/-- A packet of at most 1518 bytes gets its frame, and the used chunks are bounded. -/
structure FramesMet (s : NicState) : Prop where
  met : ∀ length ≤ maxFrameLength, ∃ heap frame,
    malloc s.nic.heap length = some (heap, some frame)
  bounded : ∃ cs, WellFormed s.nic.heap.mem cs ∧ usedTotal cs < usedBound

/-- The packet finds a slot that no header was stored to, and behind the frames received
so far and its own one there is room for a frame of 1518 bytes. -/
def LeavesRoom (devicesSize : Nat) (s : NicState) (m : Memory) : Prop :=
  s.nic.nHeaders < ethHeadersSize ∧
    bootTop devicesSize + (s.nic.bytesReceived + (frameLength (s.withMem m).nic + 4)) +
      (maxFrameLength + sizeofAllocHeader) < (stackBasePtr : Int)

/-! ## The heap as long as nothing is evicted -/

/-- The heap was only allocated from, and `bytes_received` counts what the frames take. -/
structure FramesFit (devicesSize : Nat) (s : NicState) : Prop where
  heap : NicHeap s
  fresh : ∃ n : Nat, s.nic.bytesReceived = n ∧ FreshHeap (bootTop devicesSize + n) s.heapOf ∧
    bootTop devicesSize + n + (maxFrameLength + sizeofAllocHeader) < stackBasePtr

theorem FramesFit.framesMet {devicesSize : Nat} {s : NicState} (h : FramesFit devicesSize s) :
    FramesMet s := by
  obtain ⟨n, -, ⟨us, hused, htop, hinv⟩, hroom⟩ := h.fresh
  have hheap := heapPtr_add_heapMaxSize
  refine ⟨fun length hlength => ?_, _, hinv.wellFormed, ?_⟩
  · have hsized : length + sizeofAllocHeader < 2 ^ 32 := by
      have hstack : stackBasePtr < 2 ^ 32 := by decide
      omega
    obtain ⟨heap, hcall, -⟩ := malloc_spec hinv.wellFormed hsized
    rw [firstFit_append_free hused (by omega)] at hcall
    exact ⟨heap, _, hcall⟩
  · rw [usedTotal_append_free hused]
    unfold usedBound
    omega

/-- What the device writes leaves the chain alone. -/
theorem heapInv_deviceWrites {cs : List Chunk} {s : NicState} (h : HeapInv cs s.heapOf)
    (hrx : rxBufferBlock s.nic ∈ s.live) {m : Memory}
    (hdevice : DeviceWrites s.nic.rxBuffer s.nic.heap.mem m) : HeapInv cs (s.withMem m).heapOf :=
  h.writes fun a hne => Or.inr ⟨_, hrx, hdevice a hne⟩

theorem NicHeap.deviceWrites {s : NicState} (h : NicHeap s) {m : Memory}
    (hdevice : DeviceWrites s.nic.rxBuffer s.nic.heap.mem m) : NicHeap (s.withMem m) where
  heap := by
    obtain ⟨cs, hheap⟩ := h.heap
    exact ⟨cs, heapInv_deviceWrites hheap h.rx hdevice⟩
  rx := h.rx
  eth := h.eth
  first := h.first
  count := h.count

theorem FreshHeap.deviceWrites {top : Nat} {s : NicState} (h : FreshHeap top s.heapOf)
    (hrx : rxBufferBlock s.nic ∈ s.live) {m : Memory}
    (hdevice : DeviceWrites s.nic.rxBuffer s.nic.heap.mem m) :
    FreshHeap top (s.withMem m).heapOf := by
  obtain ⟨us, hused, htop, hinv⟩ := h
  exact ⟨us, hused, htop, heapInv_deviceWrites hinv hrx hdevice⟩

theorem FramesFit.deviceWrites {devicesSize : Nat} {s : NicState} (h : FramesFit devicesSize s)
    {m : Memory} (hdevice : DeviceWrites s.nic.rxBuffer s.nic.heap.mem m) :
    FramesFit devicesSize (s.withMem m) := by
  obtain ⟨n, hbytes, hfresh, hroom⟩ := h.fresh
  exact ⟨h.heap.deviceWrites hdevice, n, hbytes, hfresh.deviceWrites h.heap.rx hdevice, hroom⟩

theorem receivePacket_bytesReceived {process : PacketParser} {s t : NicState} {heap : Heap}
    {frame : Option Nat} {header : EthernetHeader} (h : Received process s t heap frame header) :
    t.nic.bytesReceived =
      Int.bmod (s.nic.bytesReceived + frameLength s.nic + 4) (2 ^ 32) := by
  rw [h.nic]
  change (makeSlot _).bytesReceived = _
  unfold makeSlot
  split
  · rfl
  · rfl

/-- A request that leaves room is met behind the frames. -/
theorem FramesFit.malloc {process : PacketParser} {devicesSize : Nat} {s t : NicState}
    (h : FramesFit devicesSize s)
    (hroom : bootTop devicesSize + (s.nic.bytesReceived + (frameLength s.nic + 4)) +
      sizeofAllocHeader < (stackBasePtr : Int)) (hreceive : nicReceive process s = some t) :
    ∃ heap ptr header, Received process s t heap (some ptr) header ∧
      FreshHeap (bootTop devicesSize + (s.nic.bytesReceived.toNat + (frameLength s.nic + 4)))
        ⟨heap, ⟨ptr, frameLength s.nic⟩ :: s.live⟩ := by
  obtain ⟨n, hbytes, hfresh, -⟩ := h.fresh
  obtain ⟨heap, frame, header, hreceived⟩ := nicReceive_received hreceive
  have hfits : bootTop devicesSize + n + (frameLength s.nic + sizeofAllocHeader) +
      sizeofAllocHeader < stackBasePtr := by
    simp only [sizeofAllocHeader] at hroom ⊢
    omega
  obtain ⟨heap', hcall, hgranted⟩ := hfresh.malloc hfits
  obtain ⟨rfl, rfl⟩ := Prod.mk.inj (Option.some.inj (hcall.symm.trans hreceived.call))
  refine ⟨_, _, header, hreceived, ?_⟩
  rw [hbytes, Int.toNat_natCast, ← Nat.add_assoc]
  exact hgranted

theorem FramesFit.bytesReceived {process : PacketParser} {devicesSize : Nat} {s t : NicState}
    (h : FramesFit devicesSize s)
    (hroom : bootTop devicesSize + (s.nic.bytesReceived + (frameLength s.nic + 4)) +
      sizeofAllocHeader < (stackBasePtr : Int)) (hreceive : nicReceive process s = some t) :
    t.nic.bytesReceived = s.nic.bytesReceived + (frameLength s.nic + 4) := by
  obtain ⟨n, hbytes, -, -⟩ := h.fresh
  obtain ⟨heap, frame, header, hreceived⟩ := nicReceive_received hreceive
  have hstack : stackBasePtr = 0xf00000 := rfl
  rw [receivePacket_bytesReceived hreceived, hbytes]
  refine (Int.bmod_eq_of_le ?_ ?_).trans ?_
  · omega
  · omega
  · omega

/-- A packet that finds a slot and leaves room. -/
theorem FramesFit.receive {process : PacketParser} {devicesSize : Nat} {s t : NicState} {m : Memory}
    (h : FramesFit devicesSize s) (hleaves : LeavesRoom devicesSize s m)
    (hstep : FrameStep process s m t) : FramesFit devicesSize t := by
  obtain ⟨hslot, hroom⟩ := hleaves
  cases hstep with
  | receive hdevice hreceive =>
      have h' := h.deviceWrites hdevice
      obtain ⟨n, hbytes, -, -⟩ := h'.fresh
      have hfits : bootTop devicesSize + ((s.withMem m).nic.bytesReceived +
          (frameLength (s.withMem m).nic + 4)) + sizeofAllocHeader < (stackBasePtr : Int) := by
        rw [withMem_bytesReceived]
        omega
      have hnext := h'.bytesReceived hfits hreceive
      obtain ⟨heap, ptr, header, hreceived, us, hused, htop, hinv⟩ := h'.malloc hfits hreceive
      rw [hbytes, Int.toNat_natCast] at htop hinv
      rw [withMem_bytesReceived] at hbytes
      refine ⟨h'.heap.packet hslot hreceive, n + (frameLength (s.withMem m).nic + 4), ?_,
        ⟨us, hused, htop, hreceived.heapInv hslot h'.heap.eth hinv⟩, ?_⟩
      · rw [hnext, withMem_bytesReceived]
        omega
      · omega

/-! ## Booting -/

/-- What `init_os` leaves. -/
structure FrameBooted (devicesSize : Nat) (s : NicState) : Prop where
  inv : FramesFit devicesSize s
  count : s.nic.nHeaders = 0
  ptr : s.nic.currentPacketPtr = 0
  bytes : s.nic.bytesReceived = 0

theorem nicInitOs_spec {devicesSize : Nat} (hboot : BootFits devicesSize) (pages : PageState) :
    ∃ s, nicInitOs devicesSize pages = some s ∧ FrameBooted devicesSize s := by
  have htop : heapPtr + requestTotal [sizeofPciDevice * devicesSize] +
      requestTotal [rxTotalBufferSize, sizeofEthHeaders] = bootTop devicesSize := by
    rw [Nat.add_assoc]
    rfl
  have htables : pageDirAddr + (maxFrameLength + sizeofAllocHeader) < stackBasePtr := by decide
  unfold BootFits at hboot
  obtain ⟨before, hmallocs, hbefore⟩ := mallocs_fresh [sizeofPciDevice * devicesSize]
    (freshHeap_heapStart pages.mem) (by omega)
  obtain ⟨s, hinit, hs, hbytes, hfresh⟩ := nicInit_fresh hbefore (by omega)
  rw [htop] at hfresh
  have hpaged : FreshHeap (bootTop devicesSize)
      (s.withMem (pagingInit { pages with mem := s.nic.heap.mem }).mem).heapOf :=
    hfresh.congr hboot (sameBelowTables_pagingInit { pages with mem := s.nic.heap.mem })
  have hheap := hs.heap
  refine ⟨s.withMem (pagingInit { pages with mem := s.nic.heap.mem }).mem, ?_,
    ⟨⟨?_, hheap.rx, hheap.eth, hheap.first, hheap.count⟩, 0, hbytes, ?_, ?_⟩,
    hs.count, hs.ptr, hbytes⟩
  · unfold nicInitOs nicBoot
    rw [hmallocs, Option.bind_some, hinit, Option.map_some]
  · obtain ⟨us, -, -, hinv⟩ := hpaged
    exact ⟨_, hinv⟩
  · rw [Nat.add_zero]
    exact hpaged
  · omega

/-! ## The first eviction -/

/-- After the first eviction the first free chunk is that of `ethHeaders`, and the driver
goes on writing to it. -/
structure Evicted (s : NicState) : Prop where
  chain : ∃ us n ds, HeapInv (us ++ ⟨true, n⟩ :: ds) s.heapOf ∧ (∀ c ∈ us, c.free = false) ∧
    heapPtr + total us + sizeofAllocHeader = s.nic.ethHeaders ∧
    sizeofEthHeaders + sizeofAllocHeader ≤ n
  rx : rxBufferBlock s.nic ∈ s.live
  apart : s.nic.rxBuffer + rxTotalBufferSize ≤ s.nic.ethHeaders ∨
    s.nic.ethHeaders + sizeofEthHeaders ≤ s.nic.rxBuffer
  first : s.nic.firstHeader = 1
  count : s.nic.nHeaders = ethHeadersSize
  ptr : s.nic.currentPacketPtr < rxBufferSize

/-- A chunk in use, in a chain whose last chunk is free, has only used chunks before it. -/
theorem used_before {us ds es : List Chunk} {c d : Chunk} (hused : ∀ e ∈ us, e.free = false)
    (hd : d.free = true) (hc : c.free = false) (heq : us ++ [d] = ds ++ c :: es) :
    ∀ e ∈ ds, e.free = false := by
  rcases List.append_eq_append_iff.mp heq with ⟨as, -, htail⟩ | ⟨as, rfl, -⟩
  · have hmem : c ∈ [d] := by
      rw [htail]
      exact List.mem_append_right _ List.mem_cons_self
    rw [List.mem_singleton.mp hmem, hd] at hc
    exact Bool.noConfusion hc
  · exact fun e he => hused e (List.mem_append_left _ he)

/-- The frame of a packet is copied, and the first header is removed. -/
theorem FramesFit.removeFirst {devicesSize top : Nat} {s : NicState} (h : FramesFit devicesSize s)
    {heap : Heap} {ptr : Nat} (hfresh : FreshHeap top
      ⟨heap, ⟨ptr, frameLength s.nic⟩ :: s.live⟩) :
    ∃ us n ds, HeapInv (us ++ ⟨true, n⟩ :: ds)
        ⟨free (copyFrame ptr (frameLength s.nic) (afterMalloc heap s.nic)).heap s.nic.ethHeaders,
          (⟨ptr, frameLength s.nic⟩ :: s.live).filter fun b => b.ptr ≠ s.nic.ethHeaders⟩ ∧
      (∀ c ∈ us, c.free = false) ∧
      heapPtr + total us + sizeofAllocHeader = s.nic.ethHeaders ∧
      sizeofEthHeaders + sizeofAllocHeader ≤ n := by
  obtain ⟨us, hused, -, hinv⟩ := hfresh
  have hcopied := hinv.writes
    (m := (copyFrame ptr (frameLength s.nic) (afterMalloc heap s.nic)).heap.mem) fun a hne =>
      Or.inr ⟨_, List.mem_cons_self, not_not.mp fun hout =>
        hne ((memcpy_writes _ _ _ _).frame a hout)⟩
  have heth : ethHeadersBlock s.nic ∈ (⟨ptr, frameLength s.nic⟩ :: s.live : List Block) :=
    List.mem_cons_of_mem _ h.heap.eth
  obtain ⟨c, hc, hcused, hsize⟩ := hcopied.liveUsed _ heth
  have hptr := hcopied.ptr_ge heth
  have hfreed := hcopied.free heth
  obtain ⟨ds, es, hsplit, hstart, hrelease⟩ :=
    release_of_mem hcopied.wellFormed.size_pos hc
  rw [hrelease] at hfreed
  refine ⟨ds, c.size, es, hfreed, used_before hused rfl hcused hsplit, ?_, hsize⟩
  change heapPtr + sizeofAllocHeader ≤ s.nic.ethHeaders at hptr
  change heapPtr + total ds = s.nic.ethHeaders - sizeofAllocHeader at hstart
  omega

/-- The header of a packet is stored inside `ethHeaders`. -/
theorem receiveFrame_of_outside {process : PacketParser} {s : Rtl8139} {frame length a : Nat}
    (hout : a < s.ethHeaders ∨ s.ethHeaders + sizeofEthHeaders ≤ a) :
    (receiveFrame process frame length s).heap.mem a =
      (makeSlot (copyFrame frame length s)).heap.mem a := by
  obtain ⟨hlo, hhi⟩ := rtl8139GetEthHeader_inside (makeSlot (copyFrame frame length s)).nHeaders
    (makeSlot (copyFrame frame length s))
  rw [makeSlot_ethHeaders] at hlo hhi
  change s.ethHeaders ≤ _ at hlo
  change _ ≤ s.ethHeaders + _ at hhi
  exact storeHeader_of_outside (by omega)

/-- What the driver stores behind an eviction lies in the chunk of `ethHeaders`. -/
theorem Received.evicted {process : PacketParser} {s t : NicState} {heap : Heap} {ptr : Nat}
    {header : EthernetHeader} {us ds : List Chunk} {n : Nat}
    (h : Received process s t heap (some ptr) header) (hfull : s.nic.nHeaders = ethHeadersSize)
    (hzero : s.nic.firstHeader = 0)
    (hinv : HeapInv (us ++ ⟨true, n⟩ :: ds)
        ⟨free (copyFrame ptr (frameLength s.nic) (afterMalloc heap s.nic)).heap s.nic.ethHeaders,
          (⟨ptr, frameLength s.nic⟩ :: s.live).filter fun b => b.ptr ≠ s.nic.ethHeaders⟩)
    (hstart : heapPtr + total us + sizeofAllocHeader = s.nic.ethHeaders)
    (hsize : sizeofEthHeaders + sizeofAllocHeader ≤ n) :
    HeapInv (us ++ ⟨true, n⟩ :: ds) t.heapOf := by
  have hfreed := freedHeader_zero hzero
  have hlive : t.live =
      (⟨ptr, frameLength s.nic⟩ :: s.live : List Block).filter
        fun b => b.ptr ≠ s.nic.ethHeaders := by
    rw [h.live, blocksAfter, if_pos hfull, hfreed]
    rfl
  have hslot : (makeSlot (copyFrame ptr (frameLength s.nic) (afterMalloc heap s.nic))).heap =
      free (copyFrame ptr (frameLength s.nic) (afterMalloc heap s.nic)).heap s.nic.ethHeaders := by
    rw [← hfreed]
    exact congrArg Rtl8139.heap (if_pos hfull)
  have hchunk : (heapPtr + total us, (⟨true, n⟩ : Chunk)) ∈
      spans heapPtr (us ++ ⟨true, n⟩ :: ds) := by
    rw [spans_append]
    exact List.mem_append_right _ List.mem_cons_self
  have hwf : WellFormed t.nic.heap.mem (us ++ ⟨true, n⟩ :: ds) := by
    refine hinv.wellFormed.of_payload hchunk fun a hne => ?_
    by_contra hout
    apply hne
    rw [← hslot, h.nic]
    refine receiveFrame_of_outside (s := afterMalloc heap s.nic) ?_
    change a < s.nic.ethHeaders ∨ s.nic.ethHeaders + sizeofEthHeaders ≤ a
    simp only [InPayload] at hout
    omega
  refine ⟨hwf, ?_, ?_, ?_⟩
  · rw [NicState.heapOf, hlive]
    exact hinv.liveUsed
  · rw [NicState.heapOf, hlive]
    exact hinv.usedLive
  · rw [NicState.heapOf, hlive]
    exact hinv.distinct

theorem nicReceive_ptr {process : PacketParser} {s t : NicState}
    (h : nicReceive process s = some t) : t.nic.currentPacketPtr < rxBufferSize := by
  have hreturns := (nicReceive_nic process s).symm.trans (congrArg (Option.map NicState.nic) h)
  rw [(receivePacket_ptr hreturns).1]
  exact Nat.mod_lt _ (by decide)

/-- A packet that finds the ring full for the first time. -/
theorem FramesFit.evict {process : PacketParser} {devicesSize : Nat} {s t : NicState} {m : Memory}
    (h : FramesFit devicesSize s) (hfull : s.nic.nHeaders = ethHeadersSize)
    (hroom : bootTop devicesSize + (s.nic.bytesReceived + (frameLength (s.withMem m).nic + 4)) +
      sizeofAllocHeader < (stackBasePtr : Int)) (hstep : FrameStep process s m t) : Evicted t := by
  cases hstep with
  | receive hdevice hreceive =>
      have h' := h.deviceWrites hdevice
      generalize hs : s.withMem m = s' at h' hroom hreceive
      replace hfull : s'.nic.nHeaders = ethHeadersSize := hs ▸ hfull
      obtain ⟨heap, ptr, header, hreceived, hgranted⟩ := h'.malloc (hs ▸ hroom) hreceive
      obtain ⟨us, c, ds, hinv, hused, hstart, hsize⟩ := h'.removeFirst hgranted
      obtain ⟨cs, hheap⟩ := h'.heap.heap
      have hapart : s'.nic.rxBuffer + rxTotalBufferSize ≤ s'.nic.ethHeaders ∨
          s'.nic.ethHeaders + sizeofEthHeaders ≤ s'.nic.rxBuffer := by
        rcases eq_or_apart_of_mem_live hheap h'.heap.rx h'.heap.eth with heq | hapart
        · exact absurd (congrArg Block.size heq)
            (by decide : rxTotalBufferSize ≠ sizeofEthHeaders)
        · exact hapart
      refine ⟨⟨us, c, ds,
        hreceived.evicted hfull h'.heap.first hinv hstart hsize, hused, ?_, hsize⟩,
        ?_, ?_, ?_, ?_, ?_⟩
      · rw [hreceived.ethHeaders]
        exact hstart
      · rw [hreceived.live, blocksAfter, if_pos hfull]
        refine List.mem_filter.mpr ⟨?_, ?_⟩
        · rw [rxBufferBlock, hreceived.rxBuffer]
          exact List.mem_cons_of_mem _ h'.heap.rx
        · rw [freedHeader_zero h'.heap.first, rxBufferBlock, hreceived.rxBuffer]
          refine decide_eq_true ?_
          change s'.nic.rxBuffer ≠ s'.nic.ethHeaders
          have hpos : 0 < rxTotalBufferSize ∧ 0 < sizeofEthHeaders := by decide
          omega
      · rw [hreceived.rxBuffer, hreceived.ethHeaders]
        exact hapart
      · rw [hreceived.firstHeader, makeSlot_firstHeader, if_pos hfull, h'.heap.first]
        rfl
      · rw [hreceived.nHeaders, makeSlot_nHeaders, if_pos hfull, hfull]
        rfl
      · exact nicReceive_ptr hreceive

/-! ## The packet behind the first eviction -/

/-- A frame as long as a header goes to the start of `ethHeaders`. -/
structure FrameInHole (s : NicState) (heap : Heap) (us : List Chunk) : Prop where
  call : malloc s.nic.heap sizeofEthernetHeader = some (heap, some s.nic.ethHeaders)
  used : ∀ c ∈ us, c.free = false
  tiles : Tiles (header heap.mem) heapPtr us (s.nic.ethHeaders + sizeofEthernetHeader)
  headers : ∀ x ∈ spans heapPtr us, x.1 + sizeofAllocHeader ≤ s.nic.ethHeaders
  inside : s.nic.ethHeaders + sizeofEthernetHeader < stackBasePtr
  length : us.length + 1 < loopFuel
  buffer : ∀ a, s.nic.rxBuffer ≤ a → a < s.nic.rxBuffer + rxTotalBufferSize →
    heap.mem a = s.nic.heap.mem a

/-- A call for a header takes the start of the free run behind used chunks. -/
theorem mallocChain_hole {us : List Chunk} {n : Nat} (ds : List Chunk)
    (hused : ∀ c ∈ us, c.free = false)
    (hroom : 92 + sizeofAllocHeader < n + total (freeRun ds)) :
    ∃ ds', mallocChain sizeofEthernetHeader (us ++ ⟨true, n⟩ :: ds) =
      (us ++ [⟨false, 92⟩]) ++ ds' := by
  have hheader : sizeofEthernetHeader + sizeofAllocHeader = 92 := rfl
  have hlong : sizeofEthernetHeader + sizeofAllocHeader <
      (⟨true, n⟩ : Chunk).size + total (freeRun ds) := by
    simp only
    omega
  have hsplit : sizeofAllocHeader < n + total (freeRun ds) - 92 := by omega
  refine ⟨⟨true, n + total (freeRun ds) - 92⟩ :: afterRun ds, ?_⟩
  rw [mallocChain, if_neg (by decide), allocate_append_used _ hused,
    allocate_cons_fit _ rfl hlong, place, placedSize, hheader, if_pos hsplit, if_pos hsplit,
    List.append_assoc]
  rfl

theorem Evicted.frameInHole {s : NicState} (h : Evicted s) :
    ∃ heap us, FrameInHole s heap us := by
  obtain ⟨us, n, ds, hinv, hused, hstart, hsize⟩ := h.chain
  have hheader : sizeofEthernetHeader + sizeofAllocHeader = 92 := rfl
  have hsmall : 92 + sizeofAllocHeader < sizeofEthHeaders := by decide
  have hlong : sizeofEthernetHeader + sizeofAllocHeader <
      (⟨true, n⟩ : Chunk).size + total (freeRun ds) := by
    simp only
    omega
  obtain ⟨heap, hcall, hwf, -⟩ := malloc_spec hinv.wellFormed
    (by decide : sizeofEthernetHeader + sizeofAllocHeader < 2 ^ 32)
  obtain ⟨hgranted, hwrites⟩ := hinv.malloc (by decide) hcall
  rw [firstFit_append_used _ hused, firstFit_cons_fit _ rfl hlong, Option.map_some, hstart] at hcall
  -- the chain starts with the used chunks and the frame's
  obtain ⟨ds', hplace⟩ := mallocChain_hole (n := n) ds hused (by omega)
  rw [hplace] at hwf hgranted
  have hend : heapPtr + total (us ++ [⟨false, 92⟩]) = s.nic.ethHeaders + sizeofEthernetHeader := by
    rw [total_append, total_cons, total_nil]
    simp only [sizeofAllocHeader, sizeofEthernetHeader] at hstart ⊢
    omega
  have hchain := hinv.wellFormed.tiles.end_eq
  rw [total_append, total_cons] at hchain
  refine ⟨heap, us ++ [⟨false, 92⟩], hcall, ?_, ?_, fun x hx => ?_, ?_, ?_, fun a hlo hhi => ?_⟩
  · intro c hc
    rcases List.mem_append.mp hc with hc | hc
    · exact hused c hc
    · rw [List.mem_singleton.mp hc]
  · rw [← hend]
    exact (tiles_append.mp hwf.tiles).1
  · have hlast : x.1 ≤ heapPtr + total us := by
      rw [spans_append, List.mem_append] at hx
      rcases hx with hx | hx
      · exact Nat.le_trans (Nat.le_add_right _ _) (mem_spans_bounds hx).2
      · rw [List.mem_singleton.mp hx]
    omega
  · simp only at hchain
    simp only [sizeofEthernetHeader, sizeofEthHeaders, ethHeadersSize] at hsize ⊢
    omega
  · have hfuel := hwf.tail.length_lt_loopFuel (Nat.le_refl heapPtr)
    rw [List.length_append] at hfuel
    omega
  · by_contra hne
    obtain ⟨x, hx, hinside⟩ := hwrites a hne
    rw [hplace] at hx
    have hout := hgranted.not_header (mem_grant h.rx) hlo hhi x hx
    omega

/-- After an eviction that frees its third slot, the driver stores the header in the second. -/
theorem Evicted.receiveFrame_mem {process : PacketParser} {s : NicState} (h : Evicted s)
    {heap : Heap} {frame length : Nat} :
    (receiveFrame process frame length (afterMalloc heap s.nic)).heap.mem =
      storeHeader (setIsFree (copyFrame frame length (afterMalloc heap s.nic)).heap.mem
          (s.nic.ethHeaders + 172) true)
        (s.nic.ethHeaders + sizeofEthernetHeader)
        (process (setIsFree (copyFrame frame length (afterMalloc heap s.nic)).heap.mem
          (s.nic.ethHeaders + 172) true) frame length) := by
  have hslot : makeSlot (copyFrame frame length (afterMalloc heap s.nic)) =
      removeFirstHeader (copyFrame frame length (afterMalloc heap s.nic)) := if_pos h.count
  have hfreed : freedHeader (copyFrame frame length (afterMalloc heap s.nic)) - sizeofAllocHeader =
      s.nic.ethHeaders + 172 := by
    change s.nic.ethHeaders + 88 * ((s.nic.firstHeader + s.nic.firstHeader) % 256) - 4 = _
    rw [h.first]
    rfl
  have hnext : rtl8139GetEthHeader
      (removeFirstHeader (copyFrame frame length (afterMalloc heap s.nic))).nHeaders
      (removeFirstHeader (copyFrame frame length (afterMalloc heap s.nic))) =
        s.nic.ethHeaders + sizeofEthernetHeader := by
    change s.nic.ethHeaders +
      88 * (((s.nic.firstHeader + 1) % 256 + (s.nic.nHeaders - 1)) % 256) = _
    rw [h.first, h.count]
    rfl
  have hmem : (removeFirstHeader (copyFrame frame length (afterMalloc heap s.nic))).heap.mem =
      setIsFree (copyFrame frame length (afterMalloc heap s.nic)).heap.mem
        (s.nic.ethHeaders + 172) true := by
    rw [← hfreed]
    rfl
  unfold receiveFrame
  rw [hslot, ← hmem, ← hnext]
  unfold parsedHeader
  rw [hslot]
  rfl

theorem Evicted.deviceWrites {s : NicState} (h : Evicted s) {m : Memory}
    (hdevice : DeviceWrites s.nic.rxBuffer s.nic.heap.mem m) : Evicted (s.withMem m) := by
  obtain ⟨us, n, ds, hinv, hrest⟩ := h.chain
  exact ⟨⟨us, n, ds, heapInv_deviceWrites hinv h.rx hdevice, hrest⟩, h.rx, h.apart, h.first,
    h.count, h.ptr⟩

/-- Where the driver finds the next frame. -/
def nextFrame (s : Rtl8139) : Nat := s.rxBuffer + s.currentPacketPtr + 4

theorem copyFrame_mem (frame length : Nat) (s : Rtl8139) : (copyFrame frame length s).heap.mem =
    (memcpy frame (nextFrame s) length ⟨s.heap.mem, []⟩).bytes := rfl

/-- The frame in the hole is that in the receive buffer. -/
theorem FrameInHole.copied {s : NicState} {heap : Heap} {us : List Chunk}
    (hole : FrameInHole s heap us) (h : Evicted s) {i : Nat} (hi : i < sizeofEthernetHeader) :
    setIsFree (copyFrame s.nic.ethHeaders sizeofEthernetHeader (afterMalloc heap s.nic)).heap.mem
        (s.nic.ethHeaders + 172) true (s.nic.ethHeaders + i) =
      s.nic.heap.mem (nextFrame s.nic + i) := by
  have hptr := h.ptr
  have hapart := h.apart
  have hheader : sizeofEthernetHeader = 88 := rfl
  simp only [rxBufferSize, rxTotalBufferSize, sizeofEthHeaders, ethHeadersSize] at hptr hapart
  have hdisjoint : s.nic.ethHeaders ≤ nextFrame s.nic ∨
      nextFrame s.nic + sizeofEthernetHeader ≤ s.nic.ethHeaders := by
    unfold nextFrame
    omega
  have hnext : nextFrame (afterMalloc heap s.nic) = nextFrame s.nic := rfl
  rw [setIsFree_of_outside (Or.inl (by omega)), copyFrame_mem, hnext,
    (memcpy_spec hdisjoint _).copied i hi]
  refine hole.buffer _ ?_ ?_
  · unfold nextFrame
    omega
  · unfold nextFrame rxTotalBufferSize
    omega

/-- A frame as long as a header, whose first bytes read as a used header that leads behind
the heap: `malloc` answers `NULL` from now on. -/
theorem Evicted.lost {stack : Memory} {s t : NicState} (h : Evicted s)
    (hreceive : nicReceive (stackParser stack) s = some t)
    (hlength : frameLength s.nic = sizeofEthernetHeader)
    (htype : etherType s.nic.heap.mem (nextFrame s.nic) = 0)
    (hused : readWord s.nic.heap.mem (nextFrame s.nic) % 2 = 0)
    (hlong : heapMaxSize ≤ readWord s.nic.heap.mem (nextFrame s.nic) / 2) (size : Nat) :
    malloc t.nic.heap size = some (t.nic.heap, none) := by
  obtain ⟨heap, us, hole⟩ := h.frameInHole
  obtain ⟨heap', frame, header, hreceived⟩ := nicReceive_received hreceive
  have hcall := hreceived.call
  rw [hlength] at hcall
  obtain ⟨rfl, rfl⟩ := Prod.mk.inj (Option.some.inj (hole.call.symm.trans hcall))
  have hmem := congrArg (fun nic => nic.heap.mem) hreceived.nic
  simp only [hlength, Option.getD_some] at hmem
  rw [h.receiveFrame_mem] at hmem
  have hcopied := fun i hi => hole.copied h (i := i) hi
  have hbelow : ∀ a < s.nic.ethHeaders, setIsFree (copyFrame s.nic.ethHeaders sizeofEthernetHeader
      (afterMalloc heap s.nic)).heap.mem (s.nic.ethHeaders + 172) true a = heap.mem a := by
    intro a ha
    rw [setIsFree_of_outside (Or.inl (Nat.lt_add_right _ ha)), copyFrame_mem]
    exact (memcpy_writes _ _ _ _).frame a fun hin => Nat.not_le.mpr ha hin.1
  generalize setIsFree (copyFrame s.nic.ethHeaders sizeofEthernetHeader
    (afterMalloc heap s.nic)).heap.mem (s.nic.ethHeaders + 172) true = M at hmem hcopied hbelow
  have htype' : etherType M s.nic.ethHeaders = 0 := by
    unfold etherType at htype ⊢
    rw [hcopied 12 (by decide), hcopied 13 (by decide), htype]
  -- the stored header starts with the destination of the frame
  have hstored : ∀ i < 4, t.nic.heap.mem (s.nic.ethHeaders + sizeofEthernetHeader + i) =
      s.nic.heap.mem (nextFrame s.nic + i) := by
    intro i hi
    have hslot : i < sizeofEthernetHeader := Nat.lt_trans hi (by decide)
    rw [hmem, storeHeader_self _ _ _ ⟨i, hslot⟩]
    refine (record_processReceivedPacket (Nat.lt_trans hi (by decide)) htype').trans ?_
    exact hcopied i hslot
  have hword : readWord t.nic.heap.mem (s.nic.ethHeaders + sizeofEthernetHeader) =
      readWord s.nic.heap.mem (nextFrame s.nic) := by
    have hzero := hstored 0 (by decide)
    rw [Nat.add_zero, Nat.add_zero] at hzero
    unfold readWord
    rw [hzero, hstored 1 (by decide), hstored 2 (by decide), hstored 3 (by decide)]
  have htiles : Tiles (DonutOS.Libc.header t.nic.heap.mem) heapPtr us
      (s.nic.ethHeaders + sizeofEthernetHeader) := by
    refine hole.tiles.congr fun x hx => header_congr fun b _ hhi => ?_
    have hx := hole.headers x hx
    simp only [sizeofAllocHeader] at hx
    rw [hmem, storeHeader_of_outside (Or.inl (by omega))]
    exact hbelow b (by omega)
  refine malloc_lost htiles hole.used hole.inside ?_ ?_ hole.length size
  · rw [allocIsFree, hword, hused]
    rfl
  · rw [allocSize, hword]
    have hend := hole.tiles.end_eq
    have hheap := heapPtr_add_heapMaxSize
    omega

/-! ## Packets that arrive where the driver expects them -/

/-- Memory when the device has placed a packet. -/
def arrival (packet : RxPacket) (s : NicState) : Memory :=
  dma (s.nic.rxBuffer + s.nic.currentPacketPtr) packet.image s.nic.heap.mem

/-- The device has placed a packet of at most 1518 bytes. -/
def Arrives (s : NicState) (m : Memory) : Prop :=
  ∃ packet : RxPacket, packet.frame.length ≤ 1518 ∧ m = arrival packet s

theorem arrival_deviceWrites {packet : RxPacket} {s : NicState}
    (hptr : s.nic.currentPacketPtr < rxBufferSize) (hshort : packet.frame.length ≤ 84) :
    DeviceWrites s.nic.rxBuffer s.nic.heap.mem (arrival packet s) := by
  intro a hne
  have hin : s.nic.rxBuffer + s.nic.currentPacketPtr ≤ a ∧
      a < s.nic.rxBuffer + s.nic.currentPacketPtr + packet.image.length := by
    by_contra hout
    exact hne (dma_outside _ (by omega))
  rw [packet.length_image] at hin
  simp only [rxBufferSize, rxTotalBufferSize] at hptr ⊢
  omega

theorem frameLength_arrival {packet : RxPacket} {s : NicState} (hshort : packet.frame.length ≤ 84) :
    frameLength (s.withMem (arrival packet s)).nic = packet.frame.length + 4 := by
  have hlength : readHalf (arrival packet s) (s.nic.rxBuffer + s.nic.currentPacketPtr + 2) =
      packet.frame.length := packet.readHalf_dma _ _
  unfold frameLength
  change (readHalf (arrival packet s) (s.nic.rxBuffer + s.nic.currentPacketPtr + 2) + 4) %
    2 ^ 16 = _
  rw [hlength]
  omega

theorem arrival_frame {packet : RxPacket} {s : NicState} {i : Nat} (hi : i < packet.frame.length) :
    arrival packet s (nextFrame s.nic + i) = packet.frame[i] := by
  have hlength := packet.length_image
  have hindex : 4 + i < packet.image.length := by omega
  have himage : packet.image[4 + i]? = some packet.frame[i] := by
    rw [← List.getElem?_eq_getElem hi]
    exact List.getElem?_append_right (Nat.le_add_right 4 i) |>.trans
      (congrArg (packet.frame[·]?) (Nat.add_sub_cancel_left 4 i))
  unfold arrival nextFrame
  rw [Nat.add_assoc _ 4 i, dma_inside _ hindex]
  exact Option.some.inj ((List.getElem?_eq_getElem hindex).symm.trans himage)

/-- Packets of 64 bytes have been received. -/
structure Filling (devicesSize : Nat) (n : Nat) (s : NicState) : Prop where
  fits : FramesFit devicesSize s
  count : s.nic.nHeaders = n
  bytes : s.nic.bytesReceived = 72 * n
  ptr : s.nic.currentPacketPtr < rxBufferSize

theorem FrameBooted.filling {devicesSize : Nat} {s : NicState} (h : FrameBooted devicesSize s) :
    Filling devicesSize 0 s where
  fits := h.inv
  count := h.count
  bytes := h.bytes
  ptr := Nat.lt_of_le_of_lt (Nat.le_of_eq h.ptr) (by decide)

theorem Filling.arrives {devicesSize n : Nat} {s : NicState} (h : Filling devicesSize n s)
    (process : PacketParser) :
    DeviceWrites s.nic.rxBuffer s.nic.heap.mem (arrival shortPacket s) ∧
      ∃ t, nicReceive process (s.withMem (arrival shortPacket s)) = some t := by
  have hdevice : DeviceWrites s.nic.rxBuffer s.nic.heap.mem (arrival shortPacket s) :=
    arrival_deviceWrites h.ptr (by decide)
  exact ⟨hdevice, (h.fits.deviceWrites hdevice).heap.receives process⟩

/-- They leave room for one another, and for one behind the last slot. -/
theorem Filling.room {devicesSize n : Nat} {s : NicState} (h : Filling devicesSize n s)
    (hboot : BootFits devicesSize) (hn : n ≤ ethHeadersSize) :
    bootTop devicesSize + (s.nic.bytesReceived +
        (frameLength (s.withMem (arrival shortPacket s)).nic + 4)) +
      (maxFrameLength + sizeofAllocHeader) < (stackBasePtr : Int) := by
  have hlength : frameLength (s.withMem (arrival shortPacket s)).nic = 68 :=
    frameLength_arrival (by decide)
  have htop : bootTop devicesSize + sizeofAllocHeader ≤ pageDirAddr := hboot
  have htables : pageDirAddr + (72 * 257 + maxFrameLength) < stackBasePtr := by decide
  have hsize : ethHeadersSize = 256 := rfl
  rw [hlength, h.bytes]
  omega

/-- One more of them. -/
theorem Filling.next {devicesSize n : Nat} {s : NicState} (h : Filling devicesSize n s)
    (hboot : BootFits devicesSize) (hn : n < ethHeadersSize) (process : PacketParser) :
    LeavesRoom devicesSize s (arrival shortPacket s) ∧
      ∃ t, FrameStep process s (arrival shortPacket s) t ∧ Filling devicesSize (n + 1) t := by
  obtain ⟨hdevice, t, hreceive⟩ := h.arrives process
  have hslot : s.nic.nHeaders < ethHeadersSize := h.count ▸ hn
  have hleaves : LeavesRoom devicesSize s (arrival shortPacket s) :=
    ⟨hslot, h.room hboot (Nat.le_of_lt hn)⟩
  have hstep : FrameStep process s (arrival shortPacket s) t := .receive hdevice hreceive
  have hlength : frameLength (s.withMem (arrival shortPacket s)).nic = 68 :=
    frameLength_arrival (by decide)
  obtain ⟨_, _, _, hreceived⟩ := nicReceive_received hreceive
  refine ⟨hleaves, t, hstep, h.fits.receive hleaves hstep, ?_, ?_, nicReceive_ptr hreceive⟩
  · rw [hreceived.nHeaders, makeSlot_nHeaders, withMem_nHeaders, if_neg (Nat.ne_of_lt hslot),
      h.count]
  · have hroom := hleaves.2
    rw [(h.fits.deviceWrites hdevice).bytesReceived ?_ hreceive, withMem_bytesReceived, hlength,
      h.bytes]
    · omega
    · rw [withMem_bytesReceived]
      omega

/-- A packet of 84 bytes for the address `52:54:00:12:34:56`. -/
def unicastPacket : RxPacket :=
  ⟨1, [0x52, 0x54, 0x00, 0x12, 0x34, 0x56] ++ List.replicate 78 0, by decide⟩

/-- The packet behind the first eviction. -/
theorem Evicted.unicast {s : NicState} (h : Evicted s) (stack : Memory) :
    ∃ t, FrameStep (stackParser stack) s (arrival unicastPacket s) t ∧
      ∀ size, malloc t.nic.heap size = some (t.nic.heap, none) := by
  have hdevice : DeviceWrites s.nic.rxBuffer s.nic.heap.mem (arrival unicastPacket s) :=
    arrival_deviceWrites h.ptr (by decide)
  have h' := h.deviceWrites hdevice
  obtain ⟨us, n, ds, hinv, -⟩ := h'.chain
  obtain ⟨t, hreceive⟩ := nicReceive_returns hinv (stackParser stack)
  have hframe : ∀ i (hi : i < unicastPacket.frame.length),
      arrival unicastPacket s (nextFrame s.nic + i) = unicastPacket.frame[i] :=
    fun i hi => arrival_frame hi
  have htype : etherType (arrival unicastPacket s) (nextFrame s.nic) = 0 := by
    unfold etherType
    rw [hframe 12 (by decide), hframe 13 (by decide)]
    rfl
  have hword : readWord (arrival unicastPacket s) (nextFrame s.nic) = 0x12005452 := by
    have hzero := hframe 0 (by decide)
    rw [Nat.add_zero] at hzero
    unfold readWord
    rw [hzero, hframe 1 (by decide), hframe 2 (by decide), hframe 3 (by decide)]
    rfl
  refine ⟨t, .receive hdevice hreceive, h'.lost hreceive ?_ htype ?_ ?_⟩
  · exact frameLength_arrival (by decide)
  · change readWord (arrival unicastPacket s) (nextFrame s.nic) % 2 = 0
    rw [hword]
  · change heapMaxSize ≤ readWord (arrival unicastPacket s) (nextFrame s.nic) / 2
    rw [hword]
    decide

/-- Packets until the ring is full, one that finds it full, and one more. -/
theorem Filling.lost {devicesSize n k : Nat} {s : NicState} (h : Filling devicesSize n s)
    (hboot : BootFits devicesSize) (hk : n + k = ethHeadersSize) (stack : Memory) :
    ∃ path, IsPath (FrameStep (stackParser stack)) s path ∧ StepsMeet Arrives s path ∧
      path.length = k + 2 ∧ ∀ size, malloc (endState s path).nic.heap size =
        some ((endState s path).nic.heap, none) := by
  have hshort : Arrives s (arrival shortPacket s) := ⟨shortPacket, by decide, rfl⟩
  induction k generalizing n s with
  | zero =>
      obtain ⟨hdevice, t, hreceive⟩ := h.arrives (stackParser stack)
      have hroom := h.room hboot (Nat.le_of_eq hk)
      have hstep : FrameStep (stackParser stack) s (arrival shortPacket s) t :=
        .receive hdevice hreceive
      have hevicted : Evicted t := h.fits.evict (h.count.trans hk) (by omega) hstep
      obtain ⟨u, hlast, hlost⟩ := hevicted.unicast stack
      have hunicast : Arrives t (arrival unicastPacket t) := ⟨unicastPacket, by decide, rfl⟩
      exact ⟨[(_, t), (_, u)], ⟨hstep, hlast, trivial⟩, ⟨hshort, hunicast, trivial⟩, rfl, hlost⟩
  | succ k ih =>
      obtain ⟨-, t, hstep, hnext⟩ := h.next hboot (by omega) (stackParser stack)
      obtain ⟨path, hrun, harrive, hlength, hlost⟩ :=
        ih hnext (by omega) ⟨shortPacket, by decide, rfl⟩
      exact ⟨(_, t) :: path, ⟨hstep, hrun⟩, ⟨hshort, harrive⟩, congrArg (· + 1) hlength, hlost⟩

/-! ## Runs -/

/-- After `init_os`, along every run of packets that all find a slot and leave room: a
packet of at most 1518 bytes gets its frame, and the used chunks stay below one bound. -/
theorem frameRuns_met {devicesSize : Nat} (hboot : BootFits devicesSize) (pages : PageState)
    (process : PacketParser) : ∃ s, nicInitOs devicesSize pages = some s ∧
      ∀ path, IsPath (FrameStep process) s path → StepsMeet (LeavesRoom devicesSize) s path →
        ∀ t ∈ visited s path, FramesMet t := by
  obtain ⟨s, hinit, hs⟩ := nicInitOs_spec hboot pages
  refine ⟨s, hinit, fun path hrun hmeet t ht => ?_⟩
  have hstep : ∀ s m t, FramesFit devicesSize s → LeavesRoom devicesSize s m →
      FrameStep process s m t → FramesFit devicesSize t :=
    fun _ _ _ hinv hroom hstep => hinv.receive hroom hstep
  exact (hrun.invariant_of_stepsMeet hstep hs.inv hmeet t ht).framesMet

/-- One packet on a machine with four devices. -/
theorem frameRuns_met_one : ∃ s path, nicInitOs 4 bootPages = some s ∧
    IsPath (FrameStep (stackParser fun _ => 0)) s path ∧ path.length = 1 ∧
    ∀ t ∈ visited s path, FramesMet t := by
  have hboot : BootFits 4 := by decide
  obtain ⟨s, hinit, hs⟩ := nicInitOs_spec hboot bootPages
  obtain ⟨s', hinit', hmet⟩ := frameRuns_met hboot bootPages (stackParser fun _ => 0)
  obtain rfl := Option.some.inj (hinit.symm.trans hinit')
  obtain ⟨hleaves, t, hstep, -⟩ := hs.filling.next hboot (by decide) (stackParser fun _ => 0)
  have hrun : IsPath (FrameStep (stackParser fun _ => 0)) s [(_, t)] := ⟨hstep, trivial⟩
  exact ⟨s, _, hinit, hrun, rfl, hmet _ hrun ⟨hleaves, trivial⟩⟩

/-- After 258 packets of at most 84 bytes on that machine, `malloc` answers `NULL`. -/
theorem frameRuns_lost : ∃ s path, nicInitOs 4 bootPages = some s ∧
    IsPath (FrameStep (stackParser fun _ => 0)) s path ∧ StepsMeet Arrives s path ∧
    path.length = 258 ∧
    malloc (endState s path).nic.heap 64 = some ((endState s path).nic.heap, none) ∧
    ¬ ∀ t ∈ visited s path, FramesMet t := by
  have hboot : BootFits 4 := by decide
  obtain ⟨s, hinit, hs⟩ := nicInitOs_spec hboot bootPages
  obtain ⟨path, hrun, harrive, hlength, hlost⟩ :=
    hs.filling.lost hboot (Nat.zero_add ethHeadersSize) fun _ => 0
  refine ⟨s, path, hinit, hrun, harrive, hlength, hlost 64, fun hmet => ?_⟩
  obtain ⟨heap, frame, hcall⟩ := (hmet _ (endState_mem_visited s path)).met 64 (by decide)
  exact nomatch (Prod.mk.inj (Option.some.inj (hcall.symm.trans (hlost 64)))).2

end DonutOS.Kernel
