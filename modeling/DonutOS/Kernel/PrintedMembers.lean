import DonutOS.Kernel.PacketPrint

set_option autoImplicit false

/-!
# Kernel: shown and parsed (`rtl_printFrame`, `process_received_packet`)

The printer and the parser are two dispatch trees over the same four fields.  Whatever
the bytes of a frame, the members of the unions that the one reads are compared with those
that the other has filled.
-/

namespace DonutOS.Kernel

open DonutOS.Foundation

/-! ## The members that the parser fills -/

/-- `parseIPv6HopByHop`, with the members filled. -/
def parseIPv6HopByHopMembers (frame : Frame) (h : Nat) (p : Parse) : Parse × List Member :=
  let p := parseHopFields frame h p
  let nextHeader := p.byte h
  if nextHeader = 0x06 then (parseTCPHeader (frame.skip 8) (h + 12) p, [.hopTcp])
  else if nextHeader = 0x11 then (parseUDPHeader (frame.skip 8) (h + 12) p, [.hopUdp])
  else if nextHeader = 0x3a then (parseICMPHeader (frame.skip 8) (h + 12) p, [.hopIcmp])
  else (p, [])

/-- `process_received_packet`, with the members filled. -/
def processReceivedPacketMembers (frame : Frame) (p : Parse) : Parse × List Member :=
  let p := parseEthernetHeader frame p
  if p.half 12 = 0x0806 then (parseARPHeader (frame.skip 14) protocolOffset p, [.arpHeader])
  else if p.half 12 = 0x0800 then
    let p := parseIPv4Header (frame.skip 14) protocolOffset p
    let protocol := p.byte (protocolOffset + 9)
    if protocol = 0x06 then
      (parseTCPHeader (frame.skip (14 + 20)) (protocolOffset + 20) p, [.ipv4Header, .ipv4Tcp])
    else if protocol = 0x11 then
      (parseUDPHeader (frame.skip (14 + 20)) (protocolOffset + 20) p, [.ipv4Header, .ipv4Udp])
    else (p, [.ipv4Header])
  else if p.half 12 = 0x86dd then
    let p := parseIPv6Header (frame.skip 14) protocolOffset p
    let nextHeader := p.byte (protocolOffset + 6)
    if nextHeader = 0x06 then
      (parseTCPHeader (frame.skip (14 + 40)) (protocolOffset + 40) p, [.ipv6Header, .ipv6Tcp])
    else if nextHeader = 0x11 then
      (parseUDPHeader (frame.skip (14 + 40)) (protocolOffset + 40) p, [.ipv6Header, .ipv6Udp])
    else if nextHeader = 0x3a then
      (parseICMPHeader (frame.skip (14 + 40)) (protocolOffset + 40) p, [.ipv6Header, .ipv6Icmp])
    else if nextHeader = 0 then
      let hop := parseIPv6HopByHopMembers (frame.skip (14 + 40)) (protocolOffset + 40) p
      (hop.1, [.ipv6Header, .ipv6HopByHop] ++ hop.2)
    else (p, [.ipv6Header])
  else (p, [])

theorem parseIPv6HopByHopMembers_fst (frame : Frame) (h : Nat) (p : Parse) :
    (parseIPv6HopByHopMembers frame h p).1 = parseIPv6HopByHop frame h p := by
  rw [parseIPv6HopByHop_eq]
  unfold parseIPv6HopByHopMembers parseHopTransport
  simp only [apply_ite Prod.fst]

theorem processReceivedPacketMembers_fst (frame : Frame) (p : Parse) :
    (processReceivedPacketMembers frame p).1 = processReceivedPacket frame p := by
  unfold processReceivedPacketMembers processReceivedPacket
  simp only [apply_ite Prod.fst, parseIPv6HopByHopMembers_fst]

/-- Everything that is shown of the frame at `a` was parsed from it. -/
def ShowsParsed (m : Memory) (a : Nat) (p : Parse) : Prop :=
  let parsed := processReceivedPacketMembers (frameAt m a) p
  ∀ member ∈ membersRead (rtlPrintFrame parsed.1.record), member ∈ parsed.2

/-! ## What is read, by the fields of the record -/

section Read

variable {e : Memory} {members : List Member}

theorem membersRead_ite_subset_iff {c : Prop} [Decidable c] {ys zs : List Printed} :
    membersRead (if c then ys else zs) ⊆ members ↔
      (c → membersRead ys ⊆ members) ∧ (¬c → membersRead zs ⊆ members) := by
  split
  · next hc => exact ⟨fun h => ⟨fun _ => h, fun hn => absurd hc hn⟩, fun h => h.1 hc⟩
  · next hc => exact ⟨fun h => ⟨fun hp => absurd hp hc, fun _ => h⟩, fun h => h.2 hc⟩

/-- A text, and then a struct. -/
theorem membersRead_section_subset_iff {member : Member} {title xs : List Shown} (hxs : xs ≠ []) :
    membersRead (plain title ++ member.prints xs) ⊆ members ↔ member ∈ members := by
  rw [membersRead_append, membersRead_plain, List.nil_append, membersRead_prints_subset_iff hxs]

theorem membersRead_plain_subset (title : List Shown) :
    membersRead (plain title) ⊆ members := by
  rw [membersRead_plain]
  exact List.nil_subset _

theorem printTCP_ne_nil (x : TCPHeader) : printTCP x ≠ [] := List.cons_ne_nil _ _

theorem printUDP_ne_nil (x : UDPHeader) : printUDP x ≠ [] := List.cons_ne_nil _ _

theorem printICMP_ne_nil (x : ICMPHeader) : printICMP x ≠ [] := List.cons_ne_nil _ _

theorem printHopOptions_ne_nil (x : IPV6HopByHopHeader) : printHopOptions x ≠ [] :=
  List.cons_ne_nil _ _

theorem printIPv4_ne_nil (x : IPv4Header) : printIPv4 x ≠ [] := List.cons_ne_nil _ _

theorem printIPv6_ne_nil (x : IPv6Header) : printIPv6 x ≠ [] := List.cons_ne_nil _ _

theorem printARP_ne_nil (x : ARPHeader) : printARP x ≠ [] := List.cons_ne_nil _ _

theorem printFrameIPv4_subset_iff : membersRead (printFrameIPv4 e) ⊆ members ↔
    Member.ipv4Header ∈ members ∧
      ((ipv4HeaderAt e 16).protocol = 0x06 → Member.ipv4Tcp ∈ members) ∧
      ((ipv4HeaderAt e 16).protocol = 0x11 → Member.ipv4Udp ∈ members) ∧
      ((ipv4HeaderAt e 16).protocol = 0x01 → Member.ipv4Icmp ∈ members) := by
  unfold printFrameIPv4 protocolOffset
  rw [membersRead_append, membersRead_append, membersRead_plain, List.append_nil,
    List.append_subset, membersRead_section_subset_iff (printIPv4_ne_nil _)]
  refine and_congr Iff.rfl ?_
  simp only [membersRead_ite_subset_iff, membersRead_plain_subset,
    membersRead_section_subset_iff (printTCP_ne_nil _),
    membersRead_section_subset_iff (printUDP_ne_nil _),
    membersRead_section_subset_iff (printICMP_ne_nil _)]
  grind

theorem printFrameHop_subset_iff : membersRead (printFrameHop e) ⊆ members ↔
    ((hopByHopHeaderAt e 56).nextHeader = 0x06 →
        Member.hopTcp ∈ members ∧ Member.hopUdp ∈ members) ∧
      ((hopByHopHeaderAt e 56).nextHeader = 0x11 → Member.hopUdp ∈ members) ∧
      ((hopByHopHeaderAt e 56).nextHeader = 0x3a → Member.hopIcmp ∈ members) := by
  have hnone : membersRead [] ⊆ members := List.nil_subset _
  -- the case for TCP runs on into the one for UDP
  have htcp : ∀ xs title ys, xs ≠ [] →
      (membersRead (plain title ++ Member.hopTcp.prints xs ++ ys) ⊆ members ↔
        Member.hopTcp ∈ members ∧ membersRead ys ⊆ members) := by
    intro xs title ys hxs
    rw [membersRead_append, List.append_subset, membersRead_section_subset_iff hxs]
  unfold printFrameHop protocolOffset
  simp only [membersRead_ite_subset_iff, htcp _ _ _ (printTCP_ne_nil _),
    membersRead_section_subset_iff (printUDP_ne_nil _),
    membersRead_section_subset_iff (printICMP_ne_nil _)]
  grind

theorem printFrameIPv6_subset_iff : membersRead (printFrameIPv6 e) ⊆ members ↔
    Member.ipv6Header ∈ members ∧
      ((ipv6HeaderAt e 16).nextHeader = 0x06 → Member.ipv6Tcp ∈ members) ∧
      ((ipv6HeaderAt e 16).nextHeader = 0x11 → Member.ipv6Udp ∈ members) ∧
      ((ipv6HeaderAt e 16).nextHeader = 0 →
        Member.ipv6HopByHop ∈ members ∧ membersRead (printFrameHop e) ⊆ members) ∧
      ((ipv6HeaderAt e 16).nextHeader = 0x3a → Member.ipv6Icmp ∈ members) := by
  unfold printFrameIPv6 protocolOffset
  rw [membersRead_append, membersRead_append, membersRead_plain, List.append_nil,
    List.append_subset, membersRead_section_subset_iff (printIPv6_ne_nil _)]
  refine and_congr Iff.rfl ?_
  have hhop : ∀ xs title ys, xs ≠ [] → (membersRead (plain title ++ Member.ipv6HopByHop.prints xs ++
      plain [.text "NEXT HEADER: "] ++ ys) ⊆ members ↔
      Member.ipv6HopByHop ∈ members ∧ membersRead ys ⊆ members) := by
    intro xs title ys hxs
    rw [membersRead_append, membersRead_append, membersRead_plain, List.append_nil,
      List.append_subset, membersRead_section_subset_iff hxs]
  simp only [membersRead_ite_subset_iff, membersRead_plain_subset,
    hhop _ _ _ (printHopOptions_ne_nil _),
    membersRead_section_subset_iff (List.cons_ne_nil _ _),
    membersRead_section_subset_iff (printICMP_ne_nil _)]
  grind

theorem rtlPrintFrame_subset_iff : membersRead (rtlPrintFrame e) ⊆ members ↔
    ((ethernetFieldsAt e 0).etherType = 0x0800 → membersRead (printFrameIPv4 e) ⊆ members) ∧
      ((ethernetFieldsAt e 0).etherType = 0x86dd → membersRead (printFrameIPv6 e) ⊆ members) ∧
      ((ethernetFieldsAt e 0).etherType = 0x0806 → Member.arpHeader ∈ members) := by
  unfold rtlPrintFrame
  rw [membersRead_append, membersRead_plain, List.nil_append]
  simp only [membersRead_ite_subset_iff, membersRead_plain_subset,
    membersRead_section_subset_iff (printARP_ne_nil _)]
  grind

end Read

/-! ## What is filled, by the bytes of the frame -/

section Filled

variable {m : Memory} {a : Nat} {p : Parse}

theorem filled_arp (htype : etherType m a = 0x0806) :
    (processReceivedPacketMembers (frameAt m a) p).2 = [.arpHeader] := by
  have hhalf : (parseEthernetHeader (frameAt m a) p).half 12 = 0x0806 :=
    half_parseEthernetHeader.trans htype
  unfold processReceivedPacketMembers
  simp only [hhalf, if_true]

theorem filled_ipv4 (htype : etherType m a = 0x0800) :
    (processReceivedPacketMembers (frameAt m a) p).2 =
      if (m (a + 23)).toNat = 0x06 then [.ipv4Header, .ipv4Tcp]
      else if (m (a + 23)).toNat = 0x11 then [.ipv4Header, .ipv4Udp]
      else [.ipv4Header] := by
  have hhalf : (parseEthernetHeader (frameAt m a) p).half 12 = 0x0800 :=
    half_parseEthernetHeader.trans htype
  have hbyte : (parseIPv4Header ((frameAt m a).skip 14) protocolOffset
      (parseEthernetHeader (frameAt m a) p)).byte (protocolOffset + 9) = (m (a + 23)).toNat :=
    byte_parseIPv4Header
  unfold processReceivedPacketMembers
  simp only [hhalf, hbyte, Nat.reduceEqDiff, if_false, if_true, apply_ite Prod.snd]

theorem filled_hop {k h : Nat} :
    (parseIPv6HopByHopMembers ((frameAt m a).skip k) h p).2 =
      if (m (a + k)).toNat = 0x06 then [.hopTcp]
      else if (m (a + k)).toNat = 0x11 then [.hopUdp]
      else if (m (a + k)).toNat = 0x3a then [.hopIcmp]
      else [] := by
  unfold parseIPv6HopByHopMembers
  simp only [byte_parseHopFields, apply_ite Prod.snd]

theorem filled_ipv6 (htype : etherType m a = 0x86dd) :
    (processReceivedPacketMembers (frameAt m a) p).2 =
      if (m (a + 20)).toNat = 0x06 then [.ipv6Header, .ipv6Tcp]
      else if (m (a + 20)).toNat = 0x11 then [.ipv6Header, .ipv6Udp]
      else if (m (a + 20)).toNat = 0x3a then [.ipv6Header, .ipv6Icmp]
      else if (m (a + 20)).toNat = 0 then [.ipv6Header, .ipv6HopByHop] ++
        if (m (a + 54)).toNat = 0x06 then [.hopTcp]
        else if (m (a + 54)).toNat = 0x11 then [.hopUdp]
        else if (m (a + 54)).toNat = 0x3a then [.hopIcmp]
        else []
      else [.ipv6Header] := by
  have hhalf : (parseEthernetHeader (frameAt m a) p).half 12 = 0x86dd :=
    half_parseEthernetHeader.trans htype
  have hbyte : (parseIPv6Header ((frameAt m a).skip 14) protocolOffset
      (parseEthernetHeader (frameAt m a) p)).byte (protocolOffset + 6) = (m (a + 20)).toNat :=
    byte_parseIPv6Header
  unfold processReceivedPacketMembers
  simp only [hhalf, hbyte, Nat.reduceEqDiff, if_false, if_true, apply_ite Prod.snd, filled_hop]

end Filled

/-! ## Shown and parsed -/

section Agree

variable {m : Memory} {a : Nat} {p : Parse}

theorem showsParsed_iff_subset : ShowsParsed m a p ↔
    membersRead (rtlPrintFrame (processReceivedPacket (frameAt m a) p).record) ⊆
      (processReceivedPacketMembers (frameAt m a) p).2 := by
  rw [← processReceivedPacketMembers_fst]
  exact Iff.rfl

theorem etherType_parsed_eq {t : BitVec 16} (htype : etherType m a = t.toNat) :
    (ethernetParsed m a).etherType = t := BitVec.eq_of_toNat_eq (etherType_parsed.trans htype)

theorem showsParsed_ipv4_iff (htype : etherType m a = 0x0800) :
    ShowsParsed m a p ↔ (m (a + 23)).toNat ≠ 0x01 := by
  have hfield : (ipv4Parsed m (a + 14)).protocol = m (a + 23) := rfl
  rw [showsParsed_iff_subset, rtlPrintFrame_subset_iff, ethernet_processed,
    printFrameIPv4_subset_iff, ipv4_processed htype, filled_ipv4 htype,
    etherType_parsed_eq (t := 0x0800) htype, hfield]
  simp only [← BitVec.toNat_inj]
  grind

theorem hopByHop_processed (htype : etherType m a = 0x86dd) (hnext : (m (a + 20)).toNat = 0) :
    hopByHopHeaderAt (processReceivedPacket (frameAt m a) p).record 56 =
      hopByHopParsed m (a + 54) := by
  rw [processReceivedPacket_ipv6 htype, parseIPv6Transport_ipv6Layer, hnext, if_neg (by decide),
    if_neg (by decide), if_neg (by decide), if_pos rfl, hopByHopHeaderAt_parseIPv6HopByHop]

theorem showsParsed_ipv6_iff (htype : etherType m a = 0x86dd) :
    ShowsParsed m a p ↔ ¬((m (a + 20)).toNat = 0 ∧ (m (a + 54)).toNat = 0x06) := by
  have hfield : (ipv6Parsed m (a + 14)).nextHeader = m (a + 20) := rfl
  have hhop : (m (a + 20)).toNat = 0 → (hopByHopHeaderAt
      (processReceivedPacket (frameAt m a) p).record 56).nextHeader = m (a + 54) := fun hnext =>
    congrArg IPV6HopByHopHeader.nextHeader (hopByHop_processed htype hnext)
  rw [showsParsed_iff_subset, rtlPrintFrame_subset_iff, ethernet_processed,
    printFrameIPv6_subset_iff, printFrameHop_subset_iff, ipv6_processed htype, filled_ipv6 htype,
    etherType_parsed_eq (t := 0x86dd) htype, hfield]
  simp only [← BitVec.toNat_inj]
  grind

theorem showsParsed_arp (htype : etherType m a = 0x0806) : ShowsParsed m a p := by
  rw [showsParsed_iff_subset, rtlPrintFrame_subset_iff, ethernet_processed, filled_arp htype,
    etherType_parsed_eq (t := 0x0806) htype]
  exact ⟨fun h => absurd h (by decide), fun h => absurd h (by decide),
    fun _ => List.mem_singleton_self _⟩

theorem showsParsed_other (harp : etherType m a ≠ 0x0806) (hipv4 : etherType m a ≠ 0x0800)
    (hipv6 : etherType m a ≠ 0x86dd) : ShowsParsed m a p := by
  have hne : ∀ t : BitVec 16, etherType m a ≠ t.toNat → (ethernetParsed m a).etherType ≠ t := by
    intro t ht heq
    exact ht (by rw [← heq, etherType_parsed])
  rw [showsParsed_iff_subset, rtlPrintFrame_subset_iff, ethernet_processed]
  exact ⟨fun h => absurd h (hne _ hipv4), fun h => absurd h (hne _ hipv6),
    fun h => absurd h (hne _ harp)⟩

/-- Whatever the bytes of a frame, all that is shown of it was parsed from it, except for
ICMP in an IPv4 packet, and UDP in an IPv6 packet with TCP behind a hop-by-hop header. -/
theorem showsParsed_iff (m : Memory) (a : Nat) (p : Parse) : ShowsParsed m a p ↔
    ¬(etherType m a = 0x0800 ∧ (m (a + 23)).toNat = 0x01) ∧
      ¬(etherType m a = 0x86dd ∧ (m (a + 20)).toNat = 0 ∧ (m (a + 54)).toNat = 0x06) := by
  by_cases hipv4 : etherType m a = 0x0800
  · rw [showsParsed_ipv4_iff hipv4, hipv4]
    simp
  · by_cases hipv6 : etherType m a = 0x86dd
    · rw [showsParsed_ipv6_iff hipv6, hipv6]
      simp
    · refine iff_of_true ?_ ⟨fun h => hipv4 h.1, fun h => hipv6 h.1⟩
      by_cases harp : etherType m a = 0x0806
      · exact showsParsed_arp harp
      · exact showsParsed_other harp hipv4 hipv6

end Agree

/-- An IPv4 packet with an ICMP message. -/
def pingFrame : Memory := fun b =>
  if b = 12 then 0x08 else if b = 14 then 0x45 else if b = 23 then 0x01 else 0

/-- The ICMP header that is shown of it was on the stack. -/
theorem not_showsParsed_ping : ¬ ∀ (m : Memory) (a : Nat) (p : Parse), ShowsParsed m a p := by
  intro h
  have hping := showsParsed_ipv4_iff (p := unparsed fun _ => 0) (m := pingFrame) (a := 0)
    (by decide)
  exact hping.mp (h _ _ _) (by decide)

end DonutOS.Kernel
