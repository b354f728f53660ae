import DonutOS.Kernel.HeaderParse

set_option autoImplicit false

/-!
# Kernel: a whole frame (`process_received_packet`)

The layers of `process_received_packet`: each writes behind the structs of the layers
before it, so these are in the record at the end as they were parsed.
-/

namespace DonutOS.Kernel

open DonutOS.Foundation

/-! ## The layers -/

/-- `process_received_packet` behind the IPv4 header. -/
def parseIPv4Transport (frame : Frame) (p : Parse) : Parse :=
  let protocol := p.byte (protocolOffset + 9)
  if protocol = 0x06 then parseTCPHeader (frame.skip (14 + 20)) (protocolOffset + 20) p
  else if protocol = 0x11 then parseUDPHeader (frame.skip (14 + 20)) (protocolOffset + 20) p
  else p

/-- `process_received_packet` behind the IPv6 header. -/
def parseIPv6Transport (frame : Frame) (p : Parse) : Parse :=
  let nextHeader := p.byte (protocolOffset + 6)
  if nextHeader = 0x06 then parseTCPHeader (frame.skip (14 + 40)) (protocolOffset + 40) p
  else if nextHeader = 0x11 then parseUDPHeader (frame.skip (14 + 40)) (protocolOffset + 40) p
  else if nextHeader = 0x3a then parseICMPHeader (frame.skip (14 + 40)) (protocolOffset + 40) p
  else if nextHeader = 0 then parseIPv6HopByHop (frame.skip (14 + 40)) (protocolOffset + 40) p
  else p

/-- `process_received_packet` behind the Ethernet header. -/
def parseNetwork (frame : Frame) (p : Parse) : Parse :=
  if p.half 12 = 0x0806 then parseARPHeader (frame.skip 14) protocolOffset p
  else if p.half 12 = 0x0800 then
    parseIPv4Transport frame (parseIPv4Header (frame.skip 14) protocolOffset p)
  else if p.half 12 = 0x86dd then
    parseIPv6Transport frame (parseIPv6Header (frame.skip 14) protocolOffset p)
  else p

theorem processReceivedPacket_eq (frame : Frame) (p : Parse) :
    processReceivedPacket frame p = parseNetwork frame (parseEthernetHeader frame p) := rfl

section Writes

variable (frame : Frame)

theorem writes_parseIPv4Transport : Parse.Writes 36 56 (parseIPv4Transport frame) := by
  intro p b hb
  unfold parseIPv4Transport
  simp only
  split
  · exact writes_parseTCPHeader _ _ p b hb
  · split
    · exact (writes_parseUDPHeader _ _).mono (Nat.le_refl _) (by decide) p b hb
    · rfl

theorem writes_parseIPv6Transport : Parse.Writes 56 88 (parseIPv6Transport frame) := by
  intro p b hb
  unfold parseIPv6Transport
  simp only
  split
  · exact (writes_parseTCPHeader _ _).mono (Nat.le_refl _) (by decide) p b hb
  · split
    · exact (writes_parseUDPHeader _ _).mono (Nat.le_refl _) (by decide) p b hb
    · split
      · exact (writes_parseICMPHeader _ _).mono (Nat.le_refl _) (by decide) p b hb
      · split
        · exact writes_parseIPv6HopByHop _ _ p b hb
        · rfl

theorem writes_parseNetwork : Parse.Writes 16 88 (parseNetwork frame) := by
  intro p b hb
  unfold parseNetwork protocolOffset
  split
  · exact writes_parseARPHeader _ _ p b (by omega)
  · split
    · rw [writes_parseIPv4Transport _ _ b (by omega), writes_parseIPv4Header _ _ _ b (by omega)]
    · split
      · rw [writes_parseIPv6Transport _ _ b (by omega), writes_parseIPv6Header _ _ _ b (by omega)]
      · rfl

end Writes

/-! ## What is in the record at the end -/

section Processed

variable {m : Memory} {a : Nat} {p : Parse}

theorem ethernet_processed :
    ethernetFieldsAt (processReceivedPacket (frameAt m a) p).record 0 = ethernetParsed m a := by
  rw [processReceivedPacket_eq, ethernetFieldsAt_of_writes (writes_parseNetwork _) _ (by decide),
    ethernetFieldsAt_parseEthernetHeader]

/-- The EtherType of the parsed struct is the one of the dispatch. -/
theorem etherType_parsed : (ethernetParsed m a).etherType.toNat = etherType m a := by
  have hlt : networkNumber m (a + 12) 2 < 2 ^ 16 := networkNumber_lt m (a + 12) 2
  change (networkField 16 m (a + 12) 2).toNat = _
  unfold networkField
  rw [BitVec.toNat_ofNat, Nat.mod_eq_of_lt hlt]
  simp only [networkNumber, etherType, Nat.zero_mul, Nat.zero_add, Nat.add_zero, Nat.add_assoc]

/-- The record when the Ethernet and the IPv4 header are parsed. -/
def ipv4Layer (m : Memory) (a : Nat) (p : Parse) : Parse :=
  parseIPv4Header ((frameAt m a).skip 14) 16 (parseEthernetHeader (frameAt m a) p)

/-- The record when the Ethernet and the IPv6 header are parsed. -/
def ipv6Layer (m : Memory) (a : Nat) (p : Parse) : Parse :=
  parseIPv6Header ((frameAt m a).skip 14) 16 (parseEthernetHeader (frameAt m a) p)

theorem processReceivedPacket_arp (htype : etherType m a = 0x0806) :
    processReceivedPacket (frameAt m a) p =
      parseARPHeader ((frameAt m a).skip 14) 16 (parseEthernetHeader (frameAt m a) p) := by
  rw [processReceivedPacket_eq]
  unfold parseNetwork
  rw [half_parseEthernetHeader]
  exact if_pos htype

theorem processReceivedPacket_ipv4 (htype : etherType m a = 0x0800) :
    processReceivedPacket (frameAt m a) p =
      parseIPv4Transport (frameAt m a) (ipv4Layer m a p) := by
  have hhalf : (parseEthernetHeader (frameAt m a) p).half 12 = 0x0800 :=
    half_parseEthernetHeader.trans htype
  rw [processReceivedPacket_eq]
  unfold parseNetwork
  rw [hhalf, if_neg (by decide), if_pos rfl]
  rfl

theorem processReceivedPacket_ipv6 (htype : etherType m a = 0x86dd) :
    processReceivedPacket (frameAt m a) p =
      parseIPv6Transport (frameAt m a) (ipv6Layer m a p) := by
  have hhalf : (parseEthernetHeader (frameAt m a) p).half 12 = 0x86dd :=
    half_parseEthernetHeader.trans htype
  rw [processReceivedPacket_eq]
  unfold parseNetwork
  rw [hhalf, if_neg (by decide), if_neg (by decide), if_pos rfl]
  rfl

theorem arp_processed (htype : etherType m a = 0x0806) :
    arpHeaderAt (processReceivedPacket (frameAt m a) p).record 16 = arpParsed m (a + 14) := by
  rw [processReceivedPacket_arp htype, arpHeaderAt_parseARPHeader]

theorem ipv4_processed (htype : etherType m a = 0x0800) :
    ipv4HeaderAt (processReceivedPacket (frameAt m a) p).record 16 = ipv4Parsed m (a + 14) := by
  rw [processReceivedPacket_ipv4 htype,
    ipv4HeaderAt_of_writes (writes_parseIPv4Transport _) _ (by decide), ipv4Layer,
    ipv4HeaderAt_parseIPv4Header]

theorem ipv6_processed (htype : etherType m a = 0x86dd) :
    ipv6HeaderAt (processReceivedPacket (frameAt m a) p).record 16 = ipv6Parsed m (a + 14) := by
  rw [processReceivedPacket_ipv6 htype,
    ipv6HeaderAt_of_writes (writes_parseIPv6Transport _) _ (by decide), ipv6Layer,
    ipv6HeaderAt_parseIPv6Header]

/-- The dispatch behind an IPv4 header, by the protocol that the packet carries. -/
theorem parseIPv4Transport_ipv4Layer :
    parseIPv4Transport (frameAt m a) (ipv4Layer m a p) =
      if (m (a + 23)).toNat = 0x06 then parseTCPHeader ((frameAt m a).skip 34) 36 (ipv4Layer m a p)
      else if (m (a + 23)).toNat = 0x11 then
        parseUDPHeader ((frameAt m a).skip 34) 36 (ipv4Layer m a p)
      else ipv4Layer m a p := by
  have hbyte : (ipv4Layer m a p).byte (protocolOffset + 9) = (m (a + 23)).toNat :=
    byte_parseIPv4Header
  unfold parseIPv4Transport
  rw [hbyte]
  rfl

/-- The dispatch behind an IPv6 header, by the next header that the packet carries. -/
theorem parseIPv6Transport_ipv6Layer :
    parseIPv6Transport (frameAt m a) (ipv6Layer m a p) =
      if (m (a + 20)).toNat = 0x06 then parseTCPHeader ((frameAt m a).skip 54) 56 (ipv6Layer m a p)
      else if (m (a + 20)).toNat = 0x11 then
        parseUDPHeader ((frameAt m a).skip 54) 56 (ipv6Layer m a p)
      else if (m (a + 20)).toNat = 0x3a then
        parseICMPHeader ((frameAt m a).skip 54) 56 (ipv6Layer m a p)
      else if (m (a + 20)).toNat = 0 then
        parseIPv6HopByHop ((frameAt m a).skip 54) 56 (ipv6Layer m a p)
      else ipv6Layer m a p := by
  have hbyte : (ipv6Layer m a p).byte (protocolOffset + 6) = (m (a + 20)).toNat :=
    byte_parseIPv6Header
  unfold parseIPv6Transport
  rw [hbyte]
  rfl

/-- The dispatch behind the hop-by-hop header. -/
theorem parseIPv6HopByHop_frame {k h : Nat} :
    parseIPv6HopByHop ((frameAt m a).skip k) h p =
      let q := parseHopFields ((frameAt m a).skip k) h p
      if (m (a + k)).toNat = 0x06 then parseTCPHeader ((frameAt m a).skip (k + 8)) (h + 12) q
      else if (m (a + k)).toNat = 0x11 then parseUDPHeader ((frameAt m a).skip (k + 8)) (h + 12) q
      else if (m (a + k)).toNat = 0x3a then
        parseICMPHeader ((frameAt m a).skip (k + 8)) (h + 12) q
      else q := by
  rw [parseIPv6HopByHop_eq]
  unfold parseHopTransport
  rw [byte_parseHopFields, skip_skip]

end Processed

end DonutOS.Kernel
