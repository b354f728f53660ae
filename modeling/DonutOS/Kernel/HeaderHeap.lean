import DonutOS.Kernel.HeaderRing
import DonutOS.Kernel.PhysicalMemory
import DonutOS.Libc.StrSpec

set_option autoImplicit false

/-!
# Kernel: the ring of headers on the heap (`kernel/src/rtl8139.c`)

When the ring is full, `removeFirstHeader` frees a pointer into `ethHeaders`, at the
first time the array itself.
-/

namespace DonutOS.Kernel

open DonutOS.Foundation DonutOS.Libc

/-! ## The property -/

/-- The pointer that a packet frees is a block that `malloc` returned and that is not
freed yet, and none of the arrays that the driver goes on using. -/
def FreeOk (s : NicState) : Prop :=
  ∀ heap frame, malloc s.nic.heap (frameLength s.nic) = some (heap, frame) →
    s.nic.nHeaders = ethHeadersSize →
      (∃ b ∈ grant (frameLength s.nic) s.live frame, b.ptr = freedHeader s.nic) ∧
        freedHeader s.nic ≠ s.nic.ethHeaders ∧ freedHeader s.nic ≠ s.nic.rxBuffer

/-- `ethHeaders`, as a block. -/
def ethHeadersBlock (nic : Rtl8139) : Block := ⟨nic.ethHeaders, sizeofEthHeaders⟩

/-- `rx_buffer`, as a block. -/
def rxBufferBlock (nic : Rtl8139) : Block := ⟨nic.rxBuffer, rxTotalBufferSize⟩

/-- `ethHeaders` is allocated, and no other block overlaps it. -/
structure ArrayKept (s : NicState) : Prop where
  live : ethHeadersBlock s.nic ∈ s.live
  apart : ∀ b ∈ s.live, b = ethHeadersBlock s.nic ∨ b.ptr + b.size ≤ s.nic.ethHeaders ∨
    s.nic.ethHeaders + sizeofEthHeaders ≤ b.ptr

/-- The property of a step of a run. -/
def NicSafe : NicState → NicEvent → NicState → Prop
  | s, .packet, t => FreeOk s ∧ ArrayKept t
  | _, .other _, t => ArrayKept t

/-- A packet finds a slot that no header was stored to. -/
def FindsSlot : NicState → NicEvent → Prop
  | s, .packet => s.nic.nHeaders < ethHeadersSize
  | _, .other _ => True

/-! ## The heap as long as nothing is evicted -/

/-- The invariant. -/
structure NicHeap (s : NicState) : Prop where
  heap : ∃ cs, HeapInv cs s.heapOf
  rx : rxBufferBlock s.nic ∈ s.live
  eth : ethHeadersBlock s.nic ∈ s.live
  first : s.nic.firstHeader = 0
  count : s.nic.nHeaders ≤ ethHeadersSize

/-- Blocks of a sound heap do not overlap. -/
theorem eq_or_apart_of_mem_live {cs : List Chunk} {s : HeapState} (h : HeapInv cs s) {b b' : Block}
    (hb : b ∈ s.live) (hb' : b' ∈ s.live) :
    b = b' ∨ b.ptr + b.size ≤ b'.ptr ∨ b'.ptr + b'.size ≤ b.ptr := by
  have htiled := h.tiledHeap
  have hend : ∀ b ∈ s.live, b.ptr + b.size ≤ payloadEnd s.heap.mem b.ptr := by
    intro b hb
    have hptr := h.ptr_ge hb
    have hroom := (htiled.liveUsed b hb).2
    unfold payloadEnd
    omega
  have hendb := hend b hb
  have hendb' := hend b' hb'
  rcases eq_or_rel_of_pairwise htiled.disjoint hb hb' with heq | ⟨-, hapart⟩ | ⟨-, hapart⟩
  · exact Or.inl heq
  · omega
  · omega

theorem NicHeap.arrayKept {s : NicState} (h : NicHeap s) : ArrayKept s := by
  obtain ⟨cs, hheap⟩ := h.heap
  exact ⟨h.eth, fun b hb => eq_or_apart_of_mem_live hheap hb h.eth⟩

/-- The length of a frame is sixteen bits long. -/
theorem frameLength_lt (s : Rtl8139) : frameLength s < 2 ^ 16 := Nat.mod_lt _ (by decide)

theorem frameLength_sized (s : Rtl8139) : frameLength s + sizeofAllocHeader < 2 ^ 32 := by
  have hlt := frameLength_lt s
  simp only [sizeofAllocHeader]
  omega

/-- A header is stored inside the array. -/
theorem storeHeader_of_outside {m : Memory} {a : Nat} {header : EthernetHeader} {b : Nat}
    (h : b < a ∨ a + sizeofEthernetHeader ≤ b) : storeHeader m a header b = m b :=
  dif_neg (by omega)

theorem rtl8139GetEthHeader_inside (i : Nat) (s : Rtl8139) :
    s.ethHeaders ≤ rtl8139GetEthHeader i s ∧
      rtl8139GetEthHeader i s + sizeofEthernetHeader ≤ s.ethHeaders + sizeofEthHeaders := by
  have hindex : getHeaderIndex i s < ethHeadersSize := Nat.mod_lt _ (by decide)
  simp only [rtl8139GetEthHeader, sizeofEthHeaders, sizeofEthernetHeader, ethHeadersSize]
    at hindex ⊢
  omega

theorem mem_grant {size : Nat} {live : List Block} {answer : Option Nat} {b : Block}
    (h : b ∈ live) : b ∈ grant size live answer := by
  cases answer with
  | none => exact h
  | some ptr => exact List.mem_cons_of_mem _ h

/-- Where a packet writes when nothing is evicted: to its frame, or below the heap when
it has none, and to its slot. -/
theorem receiveFrame_writes {process : PacketParser} {s : Rtl8139} {live : List Block}
    {frame : Option Nat} {length a : Nat} (hslot : s.nHeaders < ethHeadersSize)
    (heth : ethHeadersBlock s ∈ live) (hlength : length < 2 ^ 16)
    (hne : (receiveFrame process (frame.getD 0) length s).heap.mem a ≠ s.heap.mem a) :
    a < heapPtr ∨ ∃ b ∈ grant length live frame, b.ptr ≤ a ∧ a < b.ptr + b.size := by
  have hmake : makeSlot (copyFrame (frame.getD 0) length s) = copyFrame (frame.getD 0) length s :=
    if_neg (Nat.ne_of_lt hslot)
  obtain ⟨hlo, hhi⟩ := rtl8139GetEthHeader_inside s.nHeaders s
  by_cases hstored : rtl8139GetEthHeader s.nHeaders s ≤ a ∧
      a < rtl8139GetEthHeader s.nHeaders s + sizeofEthernetHeader
  · refine Or.inr ⟨_, mem_grant heth, ?_, ?_⟩
    · exact Nat.le_trans hlo hstored.1
    · exact Nat.lt_of_lt_of_le hstored.2 hhi
  · have hcopied : (copyFrame (frame.getD 0) length s).heap.mem a ≠ s.heap.mem a := by
      intro hsame
      apply hne
      refine Eq.trans ?_ hsame
      unfold receiveFrame
      rw [hmake]
      exact storeHeader_of_outside (a := rtl8139GetEthHeader s.nHeaders s) (by omega)
    have hin : frame.getD 0 ≤ a ∧ a < frame.getD 0 + length :=
      not_not.mp fun hout => hcopied ((memcpy_writes _ _ _ _).frame a hout)
    cases frame with
    | none =>
        refine Or.inl ?_
        simp only [Option.getD_none] at hin
        simp only [heapPtr, heapAddress]
        omega
    | some ptr => exact Or.inr ⟨⟨ptr, length⟩, List.mem_cons_self, hin⟩

theorem receiveFrame_heap {process : PacketParser} {s : Rtl8139} {frame length : Nat}
    (hslot : s.nHeaders < ethHeadersSize) : (receiveFrame process frame length s).heap =
      { s.heap with mem := (receiveFrame process frame length s).heap.mem } := by
  have hmake : makeSlot (copyFrame frame length s) = copyFrame frame length s :=
    if_neg (Nat.ne_of_lt hslot)
  unfold receiveFrame
  rw [hmake]
  rfl

/-- What `receive_packet` writes after `malloc`, when nothing is evicted, leaves the chain
alone. -/
theorem Received.heapInv {process : PacketParser} {s t : NicState} {heap : Heap}
    {frame : Option Nat} {header : EthernetHeader} {cs : List Chunk}
    (h : Received process s t heap frame header) (hslot : s.nic.nHeaders < ethHeadersSize)
    (heth : ethHeadersBlock s.nic ∈ s.live)
    (hgranted : HeapInv cs ⟨heap, grant (frameLength s.nic) s.live frame⟩) :
    HeapInv cs t.heapOf := by
  have hwrites : ∀ a, (receiveFrame process (frame.getD 0) (frameLength s.nic)
      (afterMalloc heap s.nic)).heap.mem a ≠ (afterMalloc heap s.nic).heap.mem a →
      a < heapPtr ∨ ∃ b ∈ grant (frameLength s.nic) s.live frame, b.ptr ≤ a ∧ a < b.ptr + b.size :=
    fun a hne => receiveFrame_writes (s := afterMalloc heap s.nic) hslot heth
      (frameLength_lt s.nic) hne
  have hkept := hgranted.writes hwrites
  have hlive : t.live = grant (frameLength s.nic) s.live frame :=
    h.live.trans (if_neg (Nat.ne_of_lt hslot))
  unfold NicState.heapOf
  rw [hlive, h.nic, receiveFrame_heap (s := afterMalloc heap s.nic) hslot]
  exact hkept

/-- A packet that finds a slot. -/
theorem NicHeap.packet {process : PacketParser} {s t : NicState} (h : NicHeap s)
    (hslot : s.nic.nHeaders < ethHeadersSize) (hreceive : nicReceive process s = some t) :
    NicHeap t := by
  obtain ⟨cs, hheap⟩ := h.heap
  obtain ⟨heap, frame, header, hreceived⟩ := nicReceive_received hreceive
  have hroom : ¬ s.nic.nHeaders = ethHeadersSize := Nat.ne_of_lt hslot
  have hfirst := hreceived.firstHeader
  have hcount := hreceived.nHeaders
  have hlive : t.live = grant (frameLength s.nic) s.live frame :=
    hreceived.live.trans (if_neg hroom)
  rw [makeSlot_firstHeader, if_neg hroom, h.first] at hfirst
  rw [makeSlot_nHeaders, if_neg hroom] at hcount
  obtain ⟨hgranted, -⟩ := hheap.malloc (frameLength_sized s.nic) hreceived.call
  refine ⟨⟨_, hreceived.heapInv hslot h.eth hgranted⟩, ?_, ?_, hfirst, ?_⟩
  · unfold rxBufferBlock
    rw [hlive, hreceived.rxBuffer]
    exact mem_grant h.rx
  · unfold ethHeadersBlock
    rw [hlive, hreceived.ethHeaders]
    exact mem_grant h.eth
  · rw [hcount]
    exact hslot

/-- A block that nobody frees stays. -/
theorem HeapStep.keeps {s t : HeapState} {call : HeapCall} (hstep : HeapStep s call t) {b : Block}
    (hb : b ∈ s.live) (hfree : call ≠ .free b.ptr) : b ∈ t.live := by
  cases hstep with
  | malloc _ _ => exact mem_grant hb
  | @free b' _ =>
      refine List.mem_filter.mpr ⟨hb, ?_⟩
      exact decide_eq_true fun heq => hfree (congrArg HeapCall.free heq.symm)
  | store _ _ _ => exact hb

theorem NicHeap.other {s : NicState} (h : NicHeap s) {call : HeapCall} {heap : HeapState}
    (hstep : SizedStep s.heapOf call heap) (hrx : call ≠ .free s.nic.rxBuffer)
    (heth : call ≠ .free s.nic.ethHeaders) :
    NicHeap { s with nic := { s.nic with heap := heap.heap }, live := heap.live } where
  heap := heapInv_step h.heap hstep
  rx := HeapStep.keeps hstep.1 h.rx hrx
  eth := HeapStep.keeps hstep.1 h.eth heth
  first := h.first
  count := h.count

theorem freedHeader_zero {s : Rtl8139} (h : s.firstHeader = 0) :
    freedHeader s = s.ethHeaders := by
  unfold freedHeader rtl8139GetEthHeader getHeaderIndex
  rw [h]
  rfl

/-- The first eviction frees the array. -/
theorem NicHeap.not_freeOk {process : PacketParser} {s t : NicState} (h : NicHeap s)
    (hfull : s.nic.nHeaders = ethHeadersSize) (hreceive : nicReceive process s = some t) :
    ¬ FreeOk s := by
  intro hok
  obtain ⟨heap, frame, header, hreceived⟩ := nicReceive_received hreceive
  obtain ⟨-, heth, -⟩ := hok heap frame hreceived.call hfull
  exact heth (freedHeader_zero h.first)

theorem NicStep.safe_iff {process : PacketParser} {s t : NicState} {event : NicEvent}
    (h : NicHeap s) (hstep : NicStep process s event t) :
    (NicSafe s event t ↔ FindsSlot s event) ∧ (FindsSlot s event → NicHeap t) := by
  cases hstep with
  | packet hreceive =>
      refine ⟨⟨fun hsafe => ?_, fun hslot => ?_⟩, fun hslot => h.packet hslot hreceive⟩
      · refine Nat.lt_of_le_of_ne h.count fun hfull => ?_
        exact h.not_freeOk hfull hreceive hsafe.1
      · refine ⟨fun _ _ _ hfull => ?_, (h.packet hslot hreceive).arrayKept⟩
        exact absurd hfull (Nat.ne_of_lt hslot)
  | other hstep hrx heth =>
      have hkept := h.other hstep hrx heth
      exact ⟨iff_of_true hkept.arrayKept trivial, fun _ => hkept⟩

/-! ## Runs -/

/-- All packets of a run find a slot when there are not more packets than slots. -/
theorem findsSlot_iff {process : PacketParser} {s : NicState}
    (hcount : s.nic.nHeaders ≤ ethHeadersSize)
    {path : List (NicEvent × NicState)} (hrun : IsPath (NicStep process) s path) :
    StepsMeet FindsSlot s path ↔ s.nic.nHeaders + packets path ≤ ethHeadersSize := by
  induction path generalizing s with
  | nil => exact iff_of_true trivial hcount
  | cons head path ih =>
      obtain ⟨event, t⟩ := head
      obtain ⟨hstep, hrest⟩ := hrun
      rw [stepsMeet_cons]
      cases hstep with
      | packet hreceive =>
          obtain ⟨_, _, _, hreceived⟩ := nicReceive_received hreceive
          have hnext := hreceived.nHeaders
          rw [makeSlot_nHeaders] at hnext
          change s.nic.nHeaders < ethHeadersSize ∧ _ ↔ s.nic.nHeaders + (packets path + 1) ≤ _
          by_cases hslot : s.nic.nHeaders < ethHeadersSize
          · rw [if_neg (Nat.ne_of_lt hslot)] at hnext
            rw [and_iff_right hslot, ih (by omega) hrest, hnext]
            omega
          · exact iff_of_false (fun hmeet => hslot hmeet.1) (by omega)
      | other _ _ _ =>
          refine (and_iff_right trivial).trans ?_
          exact ih hcount hrest

theorem nicRuns_safe_iff {process : PacketParser} {s : NicState} (h : NicHeap s)
    {path : List (NicEvent × NicState)} (hrun : IsPath (NicStep process) s path) :
    IsPath NicSafe s path ↔ s.nic.nHeaders + packets path ≤ ethHeadersSize :=
  (hrun.steps_iff_of_ok (fun _ _ _ hinv hstep => hstep.safe_iff hinv) h).trans
    (findsSlot_iff h.count hrun)

/-- On a sound heap a packet is always received. -/
theorem nicReceive_returns {cs : List Chunk} {s : NicState} (h : HeapInv cs s.heapOf)
    (process : PacketParser) : ∃ t, nicReceive process s = some t := by
  obtain ⟨heap, hcall, -⟩ := malloc_spec h.wellFormed (frameLength_sized s.nic)
  unfold nicReceive
  rw [show malloc s.nic.heap _ = _ from hcall, receivePacket_eq process hcall]
  exact ⟨_, rfl⟩

theorem NicHeap.receives {s : NicState} (h : NicHeap s) (process : PacketParser) :
    ∃ t, nicReceive process s = some t := by
  obtain ⟨cs, hheap⟩ := h.heap
  exact nicReceive_returns hheap process

/-- Any number of packets up to the first eviction. -/
theorem NicHeap.exists_run {s : NicState} (h : NicHeap s) (process : PacketParser) {n : Nat}
    (hn : s.nic.nHeaders + n ≤ ethHeadersSize + 1) :
    ∃ path, IsPath (NicStep process) s path ∧ packets path = n := by
  induction n generalizing s with
  | zero => exact ⟨[], trivial, rfl⟩
  | succ n ih =>
      obtain ⟨t, hreceive⟩ := h.receives process
      by_cases hslot : s.nic.nHeaders < ethHeadersSize
      · obtain ⟨_, _, _, hreceived⟩ := nicReceive_received hreceive
        have hnext := hreceived.nHeaders
        rw [makeSlot_nHeaders, if_neg (Nat.ne_of_lt hslot)] at hnext
        obtain ⟨path, hrun, hpackets⟩ := ih (h.packet hslot hreceive) (by omega)
        exact ⟨(.packet, t) :: path, ⟨.packet hreceive, hrun⟩, congrArg (· + 1) hpackets⟩
      · obtain rfl : n = 0 := by omega
        exact ⟨[(.packet, t)], ⟨.packet hreceive, trivial⟩, rfl⟩

/-! ## Booting -/

/-- The buses, slots and functions that `pci_scan_bus` asks for. -/
def pciFunctions : Nat := 256 * 32 * 8

/-- `heap_init`, `pci_scan_bus` and `rtl8139_init`, as far as they concern the heap. -/
def nicBoot (devicesSize : Nat) (m : Memory) : Option NicState :=
  (mallocs [sizeofPciDevice * devicesSize] (heapStart m)).bind nicInit

theorem nicInit_eq {before : HeapState} {nic : Rtl8139}
    (hinit : rtl8139Init (rtl8139AtBoot before.heap) = some nic) (heth : nic.ethHeaders ≠ 0)
    (hrx : nic.rxBuffer ≠ 0) : nicInit before = some
      { nic := nic, live := ethHeadersBlock nic :: rxBufferBlock nic :: before.live
        received := [], assigned := fun _ => none } := by
  have hblocks : initBlocks nic = [ethHeadersBlock nic, rxBufferBlock nic] :=
    List.filter_eq_self.mpr (by simp [heth, hrx])
  rw [nicInit, hinit, Option.map_some, hblocks]
  rfl

/-- After boot: the two arrays lie one behind the other from `top` on, in a heap that was
only allocated from. -/
structure NicBooted (top : Nat) (s : NicState) : Prop where
  heap : NicHeap s
  count : s.nic.nHeaders = 0
  ptr : s.nic.currentPacketPtr = 0
  rx : s.nic.rxBuffer = top + sizeofAllocHeader
  eth : s.nic.ethHeaders = top + (rxTotalBufferSize + sizeofAllocHeader) + sizeofAllocHeader
  room : top + (rxTotalBufferSize + sizeofAllocHeader) < stackBasePtr
  before : ∃ mid, FreshHeap (top + (rxTotalBufferSize + sizeofAllocHeader)) mid ∧
    rxBufferBlock s.nic ∈ mid.live ∧
    malloc mid.heap sizeofEthHeaders = some (s.nic.heap, some s.nic.ethHeaders)

theorem nicInit_fresh {top : Nat} {before : HeapState} (h : FreshHeap top before)
    (hroom : top + requestTotal [rxTotalBufferSize, sizeofEthHeaders] + sizeofAllocHeader <
      stackBasePtr) :
    ∃ s, nicInit before = some s ∧ NicBooted top s ∧ s.nic.bytesReceived = 0 ∧
      FreshHeap (top + requestTotal [rxTotalBufferSize, sizeofEthHeaders]) s.heapOf := by
  simp only [requestTotal] at hroom ⊢
  have hrxRoom : top + (rxTotalBufferSize + sizeofAllocHeader) + sizeofAllocHeader <
      stackBasePtr := by omega
  have hethRoom : top + (rxTotalBufferSize + sizeofAllocHeader) +
      (sizeofEthHeaders + sizeofAllocHeader) + sizeofAllocHeader < stackBasePtr := by omega
  obtain ⟨heap, hrx, hfresh⟩ := h.malloc hrxRoom
  obtain ⟨heap', heth, hlast⟩ := hfresh.malloc hethRoom
  have hinit : rtl8139Init (rtl8139AtBoot before.heap) =
      some { rtl8139AtBoot before.heap with
        rxBuffer := top + sizeofAllocHeader
        ethHeaders := top + (rxTotalBufferSize + sizeofAllocHeader) + sizeofAllocHeader
        heap := heap' } := by
    have heth' : malloc heap (ethHeadersSize * sizeofEthernetHeader) = _ := heth
    simp only [rtl8139Init, rtl8139AtBoot, hrx, heth', Option.getD_some]
  refine ⟨_, nicInit_eq hinit (Nat.succ_ne_zero _) (Nat.succ_ne_zero _),
    ⟨⟨?_, ?_, ?_, rfl, Nat.zero_le _⟩, rfl, rfl, rfl, rfl, by omega,
      _, hfresh, List.mem_cons_self, heth⟩, rfl, ?_⟩
  · obtain ⟨us, -, -, hinv⟩ := hlast
    exact ⟨_, hinv⟩
  · exact List.mem_cons_of_mem _ List.mem_cons_self
  · exact List.mem_cons_self
  · rw [← Nat.add_assoc]
    exact hlast

theorem nicBoot_spec {devicesSize : Nat} (hdevices : devicesSize ≤ pciFunctions) (m : Memory) :
    ∃ top s, nicBoot devicesSize m = some s ∧ NicBooted top s := by
  have hroom : heapPtr + (sizeofPciDevice * pciFunctions + sizeofAllocHeader) +
      requestTotal [rxTotalBufferSize, sizeofEthHeaders] + sizeofAllocHeader < stackBasePtr := by
    decide
  have hsize : sizeofPciDevice * devicesSize ≤ sizeofPciDevice * pciFunctions :=
    Nat.mul_le_mul_left _ hdevices
  have hscan : heapPtr + requestTotal [sizeofPciDevice * devicesSize] =
      heapPtr + (sizeofPciDevice * devicesSize + sizeofAllocHeader) := rfl
  obtain ⟨before, hmallocs, hfresh⟩ := mallocs_fresh [sizeofPciDevice * devicesSize]
    (freshHeap_heapStart m) (by omega)
  obtain ⟨s, hinit, hs, -⟩ := nicInit_fresh hfresh (by omega)
  refine ⟨_, s, ?_, hs⟩
  rw [nicBoot, hmallocs]
  exact hinit

/-- After boot, with at most one device for each function of the buses: everything that a
run of packets frees may be freed, and `ethHeaders` stays allocated and apart from all
other blocks, exactly when there are not more packets than slots. -/
theorem nicRuns_safe_iff_packets {devicesSize : Nat} (hdevices : devicesSize ≤ pciFunctions)
    (m : Memory) (process : PacketParser) :
    ∃ s, nicBoot devicesSize m = some s ∧ ∀ path, IsPath (NicStep process) s path →
      (IsPath NicSafe s path ↔ packets path ≤ ethHeadersSize) := by
  obtain ⟨_, s, hboot, hs⟩ := nicBoot_spec hdevices m
  refine ⟨s, hboot, fun path hrun => ?_⟩
  rw [nicRuns_safe_iff hs.heap hrun, hs.count, Nat.zero_add]

/-- The first packet on a machine with one device. -/
theorem nicRuns_safe_iff_packets_one : ∃ s path, nicBoot 1 (fun _ => 0) = some s ∧
    IsPath (NicStep frontParser) s path ∧ packets path = 1 ∧ IsPath NicSafe s path := by
  obtain ⟨_, s, hboot, hs⟩ := nicBoot_spec (by decide : 1 ≤ pciFunctions) fun _ => 0
  obtain ⟨s', hboot', hsafe⟩ :=
    nicRuns_safe_iff_packets (by decide : 1 ≤ pciFunctions) (fun _ => 0) frontParser
  obtain rfl := Option.some.inj (hboot.symm.trans hboot')
  have hroom : s.nic.nHeaders + 1 ≤ ethHeadersSize + 1 := by
    rw [hs.count]
    decide
  obtain ⟨path, hrun, hpackets⟩ := hs.heap.exists_run frontParser hroom
  refine ⟨s, path, hboot, hrun, hpackets, (hsafe path hrun).mpr ?_⟩
  rw [hpackets]
  decide

/-- The packet number 257 on that machine. -/
theorem nicRuns_evict : ∃ s path, nicBoot 1 (fun _ => 0) = some s ∧
    IsPath (NicStep frontParser) s path ∧ packets path = ethHeadersSize + 1 ∧
    ¬ IsPath NicSafe s path := by
  obtain ⟨_, s, hboot, hs⟩ := nicBoot_spec (by decide : 1 ≤ pciFunctions) fun _ => 0
  obtain ⟨path, hrun, hpackets⟩ := hs.heap.exists_run frontParser
    (by rw [hs.count, Nat.zero_add] : s.nic.nHeaders + (ethHeadersSize + 1) ≤ ethHeadersSize + 1)
  refine ⟨s, path, hboot, hrun, hpackets, fun hsafe => ?_⟩
  have hle := (nicRuns_safe_iff hs.heap hrun).mp hsafe
  rw [hs.count, hpackets, Nat.zero_add] at hle
  exact Nat.not_succ_le_self _ hle

end DonutOS.Kernel
