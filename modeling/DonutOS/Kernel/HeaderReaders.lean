import DonutOS.Kernel.HeaderHeap
import DonutOS.Kernel.HeaderRing

set_option autoImplicit false

/-!
# Kernel: the readers of the ring of headers (`kernel/src/rtl8139.c`, `kernel/src/tty.c`)

The list of packets goes through `rtl8139_get_ethHeader`, the details of one through
`rtl_printFrame`, and `rtl_print_buffer` shows the last.  Each finds the slot in its own
way.
-/

namespace DonutOS.Kernel

open DonutOS.Foundation DonutOS.Libc

/-- The address of `ethHeaders[i]`, which `rtl_printFrame(i)` reads. -/
def rtlPrintFrameSlot (i : Nat) (s : Rtl8139) : Nat := s.ethHeaders + sizeofEthernetHeader * i

/-- `getHeaderIndex(nHeaders - 1)`, which `rtl_print_buffer` reads at: the operands are
`int`, and `%` rounds towards zero. -/
def rtlPrintBufferIndex (s : Rtl8139) : Int :=
  ((s.firstHeader : Int) + ((s.nHeaders : Int) - 1)).tmod ethHeadersSize

/-- The three readers agree, inside the ring. -/
structure ReadersAgree (s : NicState) : Prop where
  rows : ∀ i < s.nic.nHeaders, rtlPrintFrameSlot i s.nic = rtl8139GetEthHeader i s.nic
  rowsInside : ∀ i < s.nic.nHeaders, getHeaderIndex i s.nic < ethHeadersSize
  newestInside : 0 ≤ rtlPrintBufferIndex s.nic ∧ rtlPrintBufferIndex s.nic < ethHeadersSize
  newest : ∀ header ∈ s.received.head?,
    s.assigned (s.nic.ethHeaders + sizeofEthernetHeader * (rtlPrintBufferIndex s.nic).toNat) =
      some header

/-! ## Where the ring starts -/

/-- The oldest header is in the slot that its packet's number gives. -/
structure RingPlaced (s : NicState) : Prop where
  kept : RingKept s
  first : s.nic.firstHeader = (s.received.length - s.nic.nHeaders) % ethHeadersSize

theorem nicInit_placed {before : HeapState} {s : NicState} (h : nicInit before = some s) :
    RingPlaced s := by
  refine ⟨(nicInit_ring h).1, ?_⟩
  rw [(nicInit_ring h).2]
  obtain ⟨nic, hinit, rfl⟩ := Option.map_eq_some_iff.mp h
  obtain ⟨_, _, _, rfl⟩ := rtl8139Init_some hinit
  rfl

theorem NicStep.placed {process : PacketParser} {s t : NicState} {event : NicEvent}
    (hs : RingPlaced s) (hstep : NicStep process s event t) : RingPlaced t := by
  refine ⟨hstep.ringKept hs.kept, ?_⟩
  cases hstep with
  | packet hreceive =>
      obtain ⟨_, _, _, hreceived⟩ := nicReceive_received hreceive
      have hfirst := hs.first
      have hcount := hs.kept.count
      rw [hreceived.firstHeader, hreceived.nHeaders, hreceived.received, makeSlot_firstHeader,
        makeSlot_nHeaders, List.length_cons]
      by_cases hfull : s.nic.nHeaders = ethHeadersSize
      · rw [if_pos hfull, if_pos hfull]
        simp only [ethHeadersSize] at hfirst hcount hfull ⊢
        omega
      · rw [if_neg hfull, if_neg hfull]
        simp only [ethHeadersSize] at hfirst hcount hfull ⊢
        omega
  | other _ _ _ => exact hs.first

/-! ## What the readers read -/

section Readers

variable {s : NicState}

theorem rows_iff (hs : RingPlaced s) :
    (∀ i < s.nic.nHeaders, rtlPrintFrameSlot i s.nic = rtl8139GetEthHeader i s.nic) ↔
      s.received.length ≤ ethHeadersSize ∨ s.received.length % ethHeadersSize = 0 := by
  have hfirst := hs.first
  have hcount := hs.kept.count
  unfold rtlPrintFrameSlot rtl8139GetEthHeader getHeaderIndex
  simp only [ethHeadersSize, sizeofEthernetHeader] at hfirst hcount ⊢
  constructor
  · intro h
    by_cases hshort : s.received.length ≤ 256
    · exact Or.inl hshort
    · have hrow := h 0 (by omega)
      omega
  · intro h i hi
    have hzero : s.nic.firstHeader = 0 := by omega
    rw [hzero, Nat.zero_add, Nat.mod_eq_of_lt (by omega)]

theorem rtlPrintBufferIndex_of_pos (hpos : 0 < s.nic.nHeaders) :
    rtlPrintBufferIndex s.nic = (getHeaderIndex (s.nic.nHeaders - 1) s.nic : Nat) := by
  unfold rtlPrintBufferIndex getHeaderIndex
  have hsum : (s.nic.firstHeader : Int) + ((s.nic.nHeaders : Int) - 1) =
      ((s.nic.firstHeader + (s.nic.nHeaders - 1) : Nat) : Int) := by omega
  rw [hsum]
  exact (Int.ofNat_tmod _ _).symm

theorem newest_of_pos (hs : RingPlaced s) (hpos : 0 < s.nic.nHeaders) :
    (0 ≤ rtlPrintBufferIndex s.nic ∧ rtlPrintBufferIndex s.nic < ethHeadersSize) ∧
      ∀ header ∈ s.received.head?,
        s.assigned (s.nic.ethHeaders + sizeofEthernetHeader * (rtlPrintBufferIndex s.nic).toNat) =
          some header := by
  have hcount := hs.kept.count
  rw [rtlPrintBufferIndex_of_pos hpos]
  refine ⟨⟨Int.natCast_nonneg _, ?_⟩, ?_⟩
  · exact Int.ofNat_lt.mpr (Nat.mod_lt _ (by decide))
  · intro header hheader
    obtain ⟨found, hnumber, hassigned⟩ :=
      hs.kept.lastHeaders.slots (s.nic.nHeaders - 1) (Nat.sub_one_lt (Nat.ne_of_gt hpos))
    have hindex : s.received.length - s.nic.nHeaders + (s.nic.nHeaders - 1) + 1 - 1 =
        s.received.length - 1 := by omega
    unfold headerOfPacket at hnumber
    rw [hindex, List.getElem?_reverse (by omega)] at hnumber
    have hzero : s.received.length - 1 - (s.received.length - 1) = 0 := Nat.sub_self _
    rw [hzero, ← List.head?_eq_getElem?, hheader] at hnumber
    rw [Option.some.inj hnumber]
    exact hassigned

/-- Before the first packet the index is -1. -/
theorem rtlPrintBufferIndex_empty (hs : RingPlaced s) (hempty : s.received.length = 0) :
    rtlPrintBufferIndex s.nic = -1 := by
  have hcount := hs.kept.count
  have hfirst := hs.first
  rw [hempty, Nat.zero_min] at hcount
  rw [hempty, Nat.zero_sub, Nat.zero_mod] at hfirst
  unfold rtlPrintBufferIndex
  rw [hcount, hfirst]
  rfl

theorem readersAgree_iff (hs : RingPlaced s) : ReadersAgree s ↔
    0 < s.received.length ∧
      (s.received.length ≤ ethHeadersSize ∨ s.received.length % ethHeadersSize = 0) := by
  have hcount := hs.kept.count
  constructor
  · intro h
    refine ⟨Nat.pos_of_ne_zero fun hempty => ?_, (rows_iff hs).mp h.rows⟩
    have hinside := h.newestInside.1
    rw [rtlPrintBufferIndex_empty hs hempty] at hinside
    exact absurd hinside (by decide)
  · rintro ⟨hpos, hplace⟩
    have hheaders : 0 < s.nic.nHeaders := by
      rw [hcount]
      exact lt_min hpos (by decide)
    obtain ⟨hinside, hnewest⟩ := newest_of_pos hs hheaders
    exact ⟨(rows_iff hs).mpr hplace, fun _ _ => Nat.mod_lt _ (by decide), hinside, hnewest⟩

end Readers

theorem nicRuns_placed {process : PacketParser} {before : HeapState} {s : NicState}
    (hinit : nicInit before = some s) {path : List (NicEvent × NicState)}
    (hrun : IsPath (NicStep process) s path) :
    RingPlaced (endState s path) ∧ (endState s path).received.length = packets path := by
  have hplaced := hrun.invariant (fun _ _ _ hinv hstep => hstep.placed hinv) (nicInit_placed hinit)
  have hcount := length_received hrun
  rw [(nicInit_ring hinit).2, List.length_nil, Nat.zero_add] at hcount
  exact ⟨hplaced _ (endState_mem_visited _ _), hcount⟩

/-- After `rtl8139_init` and any number of packets: the readers agree exactly when a packet
was received and the ring starts at its first slot. -/
theorem nicRuns_readersAgree_iff {process : PacketParser} {before : HeapState} {s : NicState}
    (hinit : nicInit before = some s) {path : List (NicEvent × NicState)}
    (hrun : IsPath (NicStep process) s path) :
    ReadersAgree (endState s path) ↔
      0 < packets path ∧ (packets path ≤ ethHeadersSize ∨ packets path % ethHeadersSize = 0) := by
  obtain ⟨hplaced, hcount⟩ := nicRuns_placed hinit hrun
  rw [readersAgree_iff hplaced, hcount]

/-- On a machine whose memory is zero, any number of packets up to the first eviction. -/
theorem exists_packets : ∃ s, nicInit (heapStart fun _ => 0) = some s ∧
    ∀ n ≤ ethHeadersSize + 1, ∃ path, IsPath (NicStep frontParser) s path ∧ packets path = n := by
  obtain ⟨s, hinit, hs, -⟩ := nicInit_fresh (freshHeap_heapStart fun _ => 0) (by decide)
  refine ⟨s, hinit, fun n hn => hs.heap.exists_run frontParser ?_⟩
  rw [hs.count, Nat.zero_add]
  exact hn

/-- The ring is just full, and then it has rotated by one. -/
theorem nicRuns_readersAgree_iff_full : ∃ s path path', nicInit (heapStart fun _ => 0) = some s ∧
    IsPath (NicStep frontParser) s path ∧ packets path = 256 ∧ ReadersAgree (endState s path) ∧
    IsPath (NicStep frontParser) s path' ∧ packets path' = 257 ∧
      ¬ ReadersAgree (endState s path') := by
  obtain ⟨s, hinit, hruns⟩ := exists_packets
  obtain ⟨path, hrun, hpackets⟩ := hruns 256 (by decide)
  obtain ⟨path', hrun', hpackets'⟩ := hruns 257 (by decide)
  refine ⟨s, path, path', hinit, hrun, hpackets, ?_, hrun', hpackets', ?_⟩
  · rw [nicRuns_readersAgree_iff hinit hrun, hpackets]
    decide
  · rw [nicRuns_readersAgree_iff hinit hrun', hpackets']
    decide

/-- Before the first packet `rtl_print_buffer` reads in front of the ring, and after 257
packets `rtl_printFrame` shows another packet than the list. -/
theorem nicRuns_not_readersAgree : ∃ s path path', nicInit (heapStart fun _ => 0) = some s ∧
    IsPath (NicStep frontParser) s path ∧ packets path = 0 ∧
      ¬ ReadersAgree (endState s path) ∧
    IsPath (NicStep frontParser) s path' ∧ packets path' = 257 ∧
      ¬ ReadersAgree (endState s path') := by
  obtain ⟨s, hinit, hruns⟩ := exists_packets
  obtain ⟨path, hrun, hpackets⟩ := hruns 0 (Nat.zero_le _)
  obtain ⟨path', hrun', hpackets'⟩ := hruns 257 (by decide)
  obtain ⟨hplaced, hcount⟩ := nicRuns_placed hinit hrun
  obtain ⟨hplaced', hcount'⟩ := nicRuns_placed hinit hrun'
  refine ⟨s, path, path', hinit, hrun, hpackets, ?_, hrun', hpackets', ?_⟩
  · rw [readersAgree_iff hplaced, hcount, hpackets]
    decide
  · rw [readersAgree_iff hplaced', hcount', hpackets']
    decide

end DonutOS.Kernel
