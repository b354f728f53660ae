import DonutOS.Kernel.FrameParse

set_option autoImplicit false

/-!
# Kernel: UDP and ICMPv6 frames there and back (`process_received_packet`)

For every header but two a parser gives back what was encoded; the exceptions are
`struct TCPHeader`, and the integers that are copied as they are in the packet.
-/

namespace DonutOS.Kernel

open DonutOS.Foundation

/-! ## One header -/

section Headers

variable {m : Memory} {b : Nat}

theorem udpParsed_of_textAt {x : UDPHeader} (h : TextAt m b x.bytes) : udpParsed m b = x := by
  simp only [UDPHeader.bytes, TextAt.append_iff, length_networkBytes, Nat.add_assoc,
    Nat.reduceAdd] at h
  obtain ⟨hsource, hdest, hlength, hchecksum⟩ := h
  exact UDPHeader.ext (networkField_of_textAt hsource rfl) (networkField_of_textAt hdest rfl)
    (networkField_of_textAt hlength rfl) (networkField_of_textAt hchecksum rfl)

theorem icmpParsed_of_textAt {x : ICMPHeader} (h : TextAt m b x.bytes) : icmpParsed m b = x := by
  simp only [ICMPHeader.bytes, TextAt.append_iff, TextAt.singleton_iff, length_networkBytes,
    List.length_singleton, Nat.add_assoc, Nat.reduceAdd] at h
  obtain ⟨htype, hcode, hchecksum, hrest⟩ := h
  exact ICMPHeader.ext htype hcode (networkField_of_textAt hchecksum rfl)
    (networkField_of_textAt hrest rfl)

theorem ethernetParsed_of_textAt {x : EthernetFields} (h : TextAt m b x.bytes) :
    ethernetParsed m b = x := by
  simp only [EthernetFields.bytes, TextAt.append_iff, List.length_ofFn, Nat.add_assoc,
    Nat.reduceAdd] at h
  obtain ⟨hdest, hsource, htype⟩ := h
  exact EthernetFields.ext (bytesAt_of_textAt hdest) (bytesAt_of_textAt hsource)
    (networkField_of_textAt htype rfl)

/-- The two halves of a byte. -/
theorem nibbles {c : Byte} {high low : BitVec 4} (h : c = high ++ low) :
    BitVec.ofNat 4 (c.toNat >>> 4 &&& 0xf) = high ∧ BitVec.ofNat 4 (c.toNat &&& 0xf) = low := by
  have hhigh := high.isLt
  have hlow := low.isLt
  have hvalue : c.toNat = high.toNat * 0x10 + low.toNat := h ▸ toNat_append_eq high low
  have hmask : ∀ x : Nat, (x &&& 0xf) = x % 0x10 := fun x => Nat.and_two_pow_sub_one_eq_mod x 4
  constructor
  · refine BitVec.eq_of_toNat_eq ?_
    rw [BitVec.toNat_ofNat, hmask, hvalue, Nat.shiftRight_eq_div_pow]
    omega
  · refine BitVec.eq_of_toNat_eq ?_
    rw [BitVec.toNat_ofNat, hmask, hvalue]
    omega

theorem ipv4Parsed_of_textAt {x : IPv4Header} (h : TextAt m b x.bytes) : ipv4Parsed m b = x := by
  simp only [IPv4Header.bytes, TextAt.append_iff, TextAt.singleton_iff, length_networkBytes,
    List.length_singleton, List.length_ofFn, Nat.add_assoc, Nat.reduceAdd] at h
  obtain ⟨hfirst, hservice, htotal, hident, hflags, httl, hprotocol, hchecksum, hsource,
    hdest⟩ := h
  obtain ⟨hversion, hlength⟩ := nibbles hfirst
  exact IPv4Header.ext hversion hlength hservice (networkField_of_textAt htotal rfl)
    (networkField_of_textAt hident rfl) (networkField_of_textAt hflags rfl) httl hprotocol
    (networkField_of_textAt hchecksum rfl) (bytesAt_of_textAt hsource) (bytesAt_of_textAt hdest)

/-- The fields of two IPv6 headers agree, but for the integers in front of `nextHeader`. -/
structure SameRoute (x y : IPv6Header) : Prop where
  nextHeader : x.nextHeader = y.nextHeader
  hopLimit : x.hopLimit = y.hopLimit
  sourceIP : x.sourceIP = y.sourceIP
  destIP : x.destIP = y.destIP

theorem ipv6Parsed_of_textAt {x : IPv6Header} (h : TextAt m b x.bytes) :
    SameRoute (ipv6Parsed m b) x := by
  simp only [IPv6Header.bytes, TextAt.append_iff, TextAt.singleton_iff, length_networkBytes,
    List.length_singleton, List.length_ofFn, Nat.add_assoc, Nat.reduceAdd] at h
  obtain ⟨-, -, hnext, hlimit, hsource, hdest⟩ := h
  exact ⟨hnext, hlimit, bytesAt_of_textAt hsource, bytesAt_of_textAt hdest⟩

end Headers

/-! ## A frame -/

/-- The datagram of a frame; the fields that lead to its parser have the values for it. -/
inductive Datagram
  | ipv4Udp (ip : IPv4Header) (udp : UDPHeader) (hlength : ip.headerLength = 5)
      (hprotocol : ip.protocol = 0x11)
  | ipv6Udp (ip : IPv6Header) (udp : UDPHeader) (hnext : ip.nextHeader = 0x11)
  | ipv6Icmp (ip : IPv6Header) (icmp : ICMPHeader) (hnext : ip.nextHeader = 0x3a)

namespace Datagram

def etherType : Datagram → BitVec 16
  | .ipv4Udp .. => 0x0800
  | .ipv6Udp .. => 0x86dd
  | .ipv6Icmp .. => 0x86dd

def bytes : Datagram → List Byte
  | .ipv4Udp ip udp _ _ => ip.bytes ++ udp.bytes
  | .ipv6Udp ip udp _ => ip.bytes ++ udp.bytes
  | .ipv6Icmp ip icmp _ => ip.bytes ++ icmp.bytes

/-- The structs of a datagram are in the record of a frame. -/
def Recovered (e : Memory) : Datagram → Prop
  | .ipv4Udp ip udp _ _ => ipv4HeaderAt e 16 = ip ∧ udpHeaderAt e 36 = udp
  | .ipv6Udp ip udp _ => SameRoute (ipv6HeaderAt e 16) ip ∧ udpHeaderAt e 56 = udp
  | .ipv6Icmp ip icmp _ => SameRoute (ipv6HeaderAt e 16) ip ∧ icmpHeaderAt e 56 = icmp

end Datagram

/-- A frame that carries UDP or ICMPv6. -/
structure EthernetFrame where
  destMAC : Fin 6 → Byte
  sourceMAC : Fin 6 → Byte
  datagram : Datagram

namespace EthernetFrame

def header (x : EthernetFrame) : EthernetFields := ⟨x.destMAC, x.sourceMAC, x.datagram.etherType⟩

def bytes (x : EthernetFrame) : List Byte := x.header.bytes ++ x.datagram.bytes

/-- The structs of a frame are in its record. -/
def Recovered (x : EthernetFrame) (e : Memory) : Prop :=
  ethernetFieldsAt e 0 = x.header ∧ x.datagram.Recovered e

end EthernetFrame

/-- `process_received_packet` recovers the headers of every frame that carries UDP over
IPv4 without options or over IPv6, or ICMPv6, from any bytes behind them and any stack. -/
theorem frameRoundTrip {m stack : Memory} {a : Nat} {x : EthernetFrame} (h : TextAt m a x.bytes) :
    x.Recovered (processReceivedPacket (frameAt m a) (unparsed stack)).record := by
  obtain ⟨hheader, hdatagram⟩ := TextAt.append_iff.mp h
  rw [length_ethernetFields] at hdatagram
  have hparsed := ethernetParsed_of_textAt hheader
  have htype : etherType m a = x.header.etherType.toNat := by rw [← hparsed, etherType_parsed]
  refine ⟨ethernet_processed.trans hparsed, ?_⟩
  obtain ⟨destMAC, sourceMAC, datagram⟩ := x
  cases datagram with
  | ipv4Udp ip udp hlength hprotocol =>
      obtain ⟨hip, hudp⟩ := TextAt.append_iff.mp hdatagram
      rw [length_ipv4Header] at hudp
      have hipParsed := ipv4Parsed_of_textAt hip
      have hbyte : (m (a + 23)).toNat = 0x11 := by
        have hfield := congrArg IPv4Header.protocol hipParsed
        exact congrArg BitVec.toNat (hfield.trans hprotocol)
      refine ⟨(ipv4_processed htype).trans hipParsed, ?_⟩
      rw [processReceivedPacket_ipv4 htype, parseIPv4Transport_ipv4Layer, if_neg (by omega),
        if_pos hbyte, udpHeaderAt_parseUDPHeader]
      exact udpParsed_of_textAt hudp
  | ipv6Udp ip udp hnext =>
      obtain ⟨hip, hudp⟩ := TextAt.append_iff.mp hdatagram
      rw [length_ipv6Header] at hudp
      have hroute := ipv6Parsed_of_textAt hip
      have hbyte : (m (a + 20)).toNat = 0x11 :=
        congrArg BitVec.toNat (hroute.nextHeader.trans hnext)
      refine ⟨(ipv6_processed htype).symm ▸ hroute, ?_⟩
      rw [processReceivedPacket_ipv6 htype, parseIPv6Transport_ipv6Layer, if_neg (by omega),
        if_pos hbyte, udpHeaderAt_parseUDPHeader]
      exact udpParsed_of_textAt hudp
  | ipv6Icmp ip icmp hnext =>
      obtain ⟨hip, hicmp⟩ := TextAt.append_iff.mp hdatagram
      rw [length_ipv6Header] at hicmp
      have hroute := ipv6Parsed_of_textAt hip
      have hbyte : (m (a + 20)).toNat = 0x3a :=
        congrArg BitVec.toNat (hroute.nextHeader.trans hnext)
      refine ⟨(ipv6_processed htype).symm ▸ hroute, ?_⟩
      rw [processReceivedPacket_ipv6 htype, parseIPv6Transport_ipv6Layer, if_neg (by omega),
        if_neg (by omega), if_pos hbyte, icmpHeaderAt_parseICMPHeader]
      exact icmpParsed_of_textAt hicmp

/-- A DNS query from 10.0.2.15 to 10.0.2.3. -/
def dnsQuery : EthernetFrame where
  destMAC := fun _ => 0x52
  sourceMAC := fun i => BitVec.ofNat 8 i
  datagram := .ipv4Udp
    { version := 4, headerLength := 5, typeOfService := 0, totalLength := 60, identification := 7
      flagsFragmentOffset := 0x4000, ttl := 64, protocol := 0x11, headerChecksum := 0
      sourceIP := fun i => [10, 0, 2, 15].getD i 0, destIP := fun i => [10, 0, 2, 3].getD i 0 }
    { sourcePort := 49152, destPort := 53, length := 40, checksum := 0 } rfl rfl

theorem frameRoundTrip_dnsQuery :
    dnsQuery.Recovered (processReceivedPacket (frameAt (memoryOf dnsQuery.bytes) 0)
      (unparsed fun _ => 0)).record :=
  frameRoundTrip (textAt_memoryOf _)

end DonutOS.Kernel
