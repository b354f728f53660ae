import DonutOS.Kernel.FrameParse

set_option autoImplicit false

/-!
# Kernel: where a transport header starts (`process_received_packet`)

An IPv4 header says how long it is, and so does a hop-by-hop header.  The dispatch uses
a fixed offset on each of its paths.
-/

namespace DonutOS.Kernel

open DonutOS.Foundation

/-! ## What a packet says -/

inductive Transport
  | tcp
  | udp
  | icmp
  deriving DecidableEq

namespace Transport

/-- The protocol numbers of the three. -/
def number : Transport → Nat
  | tcp => 0x06
  | udp => 0x11
  | icmp => 0x3a

/-- The parser of a transport header. -/
def parse : Transport → Frame → Nat → Parse → Parse
  | tcp => parseTCPHeader
  | udp => parseUDPHeader
  | icmp => parseICMPHeader

/-- How many bytes it reads. -/
def reach : Transport → Nat
  | tcp => 21
  | udp => 8
  | icmp => 8

end Transport

/-- The length field of the IPv4 header at `b`, in words. -/
def ihl (m : Memory) (b : Nat) : Nat := (m b).toNat % 0x10

/-- The length field of the hop-by-hop header at `b`. -/
def headerExtLength (m : Memory) (b : Nat) : Nat := (m (b + 1)).toNat

/-- The frame at `a` carries an IPv4 packet with TCP or UDP. -/
structure CarriesIPv4 (m : Memory) (a : Nat) (t : Transport) : Prop where
  type : etherType m a = 0x0800
  length : 5 ≤ ihl m (a + 14)
  protocol : (m (a + 23)).toNat = t.number
  transport : t ≠ .icmp

/-- The frame at `a` carries an IPv6 packet with a hop-by-hop header in front of the
transport header. -/
structure CarriesHopByHop (m : Memory) (a : Nat) (t : Transport) : Prop where
  type : etherType m a = 0x86dd
  nextHeader : (m (a + 20)).toNat = 0
  protocol : (m (a + 54)).toNat = t.number

/-- Where in a frame its transport header starts, by the lengths that it carries. -/
def transportStart (m : Memory) (a : Nat) : Nat :=
  if etherType m a = 0x0800 then 14 + 4 * ihl m (a + 14)
  else 14 + 40 + 8 * (headerExtLength m (a + 54) + 1)

/-- The offset of `transpProtocol` in `struct EthernetHeader`. -/
def transportOffset (m : Memory) (a : Nat) : Nat :=
  if etherType m a = 0x0800 then protocolOffset + 20 else protocolOffset + 40 + 12

/-- The record when all headers in front of the transport header are parsed. -/
def headersParsed (m : Memory) (a : Nat) (p : Parse) : Parse :=
  if etherType m a = 0x0800 then ipv4Layer m a p
  else parseHopFields ((frameAt m a).skip 54) 56 (ipv6Layer m a p)

/-- The transport header is decoded from where it starts, and the ports are those of the
packet. -/
structure DecodedAtStart (m : Memory) (a : Nat) (t : Transport) (p : Parse) : Prop where
  decoded : processReceivedPacket (frameAt m a) p =
    t.parse ((frameAt m a).skip (transportStart m a)) (transportOffset m a) (headersParsed m a p)
  sourcePort : t ≠ .icmp →
    BitVec.ofNat 16 (readHalf (processReceivedPacket (frameAt m a) p).record
      (transportOffset m a)) = networkField 16 m (a + transportStart m a) 2
  destPort : t ≠ .icmp →
    BitVec.ofNat 16 (readHalf (processReceivedPacket (frameAt m a) p).record
      (transportOffset m a + 2)) = networkField 16 m (a + transportStart m a + 2) 2

/-! ## What the dispatch does -/

section Dispatch

variable {m : Memory} {a k h : Nat} {t : Transport} {p : Parse}

theorem Transport.extent_parse :
    extent (t.parse ((frameAt m a).skip k) h p).reads = max (extent p.reads) (k + t.reach) := by
  cases t with
  | tcp => exact extent_parseTCPHeader
  | udp => exact extent_parseUDPHeader
  | icmp => exact extent_parseICMPHeader

/-- TCP and UDP have their ports at the same place. -/
theorem Transport.ports_parse (ht : t ≠ .icmp) :
    BitVec.ofNat 16 (readHalf (t.parse ((frameAt m a).skip k) h p).record h) =
        networkField 16 m (a + k) 2 ∧
      BitVec.ofNat 16 (readHalf (t.parse ((frameAt m a).skip k) h p).record (h + 2)) =
        networkField 16 m (a + k + 2) 2 := by
  cases t with
  | tcp =>
      have hstored := tcpHeaderAt_parseTCPHeader (m := m) (a := a) (k := k) (h := h) (p := p)
      exact ⟨congrArg TCPHeader.sourcePort hstored, congrArg TCPHeader.destPort hstored⟩
  | udp =>
      have hstored := udpHeaderAt_parseUDPHeader (m := m) (a := a) (k := k) (h := h) (p := p)
      exact ⟨congrArg UDPHeader.sourcePort hstored, congrArg UDPHeader.destPort hstored⟩
  | icmp => exact absurd rfl ht

theorem CarriesIPv4.processed (hc : CarriesIPv4 m a t) :
    processReceivedPacket (frameAt m a) p =
      t.parse ((frameAt m a).skip 34) 36 (ipv4Layer m a p) := by
  have hprotocol := hc.protocol
  rw [processReceivedPacket_ipv4 hc.type, parseIPv4Transport_ipv4Layer]
  cases t with
  | tcp => exact if_pos hprotocol
  | udp =>
      rw [hprotocol]
      rfl
  | icmp => exact absurd rfl hc.transport

theorem CarriesHopByHop.processed (hc : CarriesHopByHop m a t) :
    processReceivedPacket (frameAt m a) p = t.parse ((frameAt m a).skip 62) 68
      (parseHopFields ((frameAt m a).skip 54) 56 (ipv6Layer m a p)) := by
  have hprotocol := hc.protocol
  rw [processReceivedPacket_ipv6 hc.type, parseIPv6Transport_ipv6Layer, hc.nextHeader,
    if_neg (by decide), if_neg (by decide), if_neg (by decide), if_pos rfl,
    parseIPv6HopByHop_frame, hprotocol]
  cases t with
  | tcp => rfl
  | udp => rfl
  | icmp => rfl

/-- A dispatch that uses the offset `k` is right when the transport header is there. -/
theorem decodedAtStart_iff_of_processed {o : Nat} {q : Parse}
    (hprocessed : processReceivedPacket (frameAt m a) p = t.parse ((frameAt m a).skip k) o q)
    (hoffset : transportOffset m a = o) (hheaders : headersParsed m a p = q)
    (hreads : extent q.reads ≤ k + t.reach) (hle : k ≤ transportStart m a) :
    DecodedAtStart m a t p ↔ transportStart m a = k := by
  constructor
  · intro h
    have hdecoded := h.decoded
    rw [hprocessed, hoffset, hheaders] at hdecoded
    -- the two runs of the parser read different bytes
    have hextent := congrArg (fun p : Parse => extent p.reads) hdecoded
    simp only [Transport.extent_parse] at hextent
    omega
  · intro h
    refine ⟨?_, ?_, ?_⟩
    · rw [h, hoffset, hheaders, hprocessed]
    · intro ht
      rw [h, hoffset, hprocessed]
      exact (Transport.ports_parse ht).1
    · intro ht
      rw [h, hoffset, hprocessed]
      exact (Transport.ports_parse ht).2

end Dispatch

/-! ## When it is right -/

section Right

variable {m : Memory} {a : Nat} {t : Transport} {stack : Memory}

theorem extent_ipv4Layer : extent (ipv4Layer m a (unparsed stack)).reads = 34 := by
  unfold ipv4Layer
  rw [extent_parseIPv4Header, extent_parseEthernetHeader]
  rfl

theorem extent_hopLayer : extent (parseHopFields ((frameAt m a).skip 54) 56
    (ipv6Layer m a (unparsed stack))).reads = 64 := by
  unfold ipv6Layer parseHopFields
  simp only [skip_skip, Parse.reads_setByte, reads_skip_frameAt, extent_append, extent_singleton,
    Parse.extent_copy, Nat.zero_lt_succ, extent_parseIPv6Header, extent_parseEthernetHeader]
  rfl

theorem CarriesIPv4.atStart_iff (hc : CarriesIPv4 m a t) :
    DecodedAtStart m a t (unparsed stack) ↔ ihl m (a + 14) = 5 := by
  have hlength := hc.length
  have hstart : transportStart m a = 14 + 4 * ihl m (a + 14) := if_pos hc.type
  rw [decodedAtStart_iff_of_processed hc.processed (if_pos hc.type) (if_pos hc.type)
    (by rw [extent_ipv4Layer]; exact Nat.le_add_right _ _) (by omega), hstart]
  omega

theorem CarriesHopByHop.atStart_iff (hc : CarriesHopByHop m a t) :
    DecodedAtStart m a t (unparsed stack) ↔ headerExtLength m (a + 54) = 0 := by
  have htype : etherType m a ≠ 0x0800 := by
    rw [hc.type]
    decide
  have hstart : transportStart m a = 14 + 40 + 8 * (headerExtLength m (a + 54) + 1) :=
    if_neg htype
  have hreach : 8 ≤ t.reach := by
    cases t with
    | tcp => decide
    | udp => exact Nat.le_refl _
    | icmp => exact Nat.le_refl _
  rw [decodedAtStart_iff_of_processed hc.processed (if_neg htype) (if_neg htype)
    (by rw [extent_hopLayer]; omega) (by omega), hstart]
  omega

/-- A frame with one of the paths of variable length: its transport header is decoded from
where it starts exactly when the header in front of it has the least length. -/
theorem decodedAtStart_iff (hc : CarriesIPv4 m a t ∨ CarriesHopByHop m a t) :
    DecodedAtStart m a t (unparsed stack) ↔
      (etherType m a = 0x0800 → ihl m (a + 14) = 5) ∧
        (etherType m a = 0x86dd → headerExtLength m (a + 54) = 0) := by
  rcases hc with hc | hc
  · have htype : etherType m a ≠ 0x86dd := by
      rw [hc.type]
      decide
    rw [hc.atStart_iff]
    exact ⟨fun h => ⟨fun _ => h, fun h' => absurd h' htype⟩, fun h => h.1 hc.type⟩
  · have htype : etherType m a ≠ 0x0800 := by
      rw [hc.type]
      decide
    rw [hc.atStart_iff]
    exact ⟨fun h => ⟨fun h' => absurd h' htype, fun _ => h⟩, fun h => h.2 hc.type⟩

end Right

/-- The bytes that matter of an IPv4 packet with UDP to port 53, after `words` words of
header. -/
def udpAfter (words : Nat) : Memory := fun b =>
  if b = 12 then 0x08 else if b = 14 then BitVec.ofNat 8 (0x40 + words)
  else if b = 23 then 0x11 else if b = 14 + 4 * words + 3 then 53 else 0

theorem decodedAtStart_iff_udp :
    DecodedAtStart (udpAfter 5) 0 .udp (unparsed fun _ => 0) ↔
      (etherType (udpAfter 5) 0 = 0x0800 → ihl (udpAfter 5) (0 + 14) = 5) ∧
        (etherType (udpAfter 5) 0 = 0x86dd → headerExtLength (udpAfter 5) (0 + 54) = 0) :=
  decodedAtStart_iff (.inl ⟨by decide, by decide, by decide, by decide⟩)

/-- Behind one word of options the destination port 53 is not found. -/
theorem not_decodedAtStart_options : ¬ ∀ (m stack : Memory) (a : Nat) (t : Transport),
    CarriesIPv4 m a t ∨ CarriesHopByHop m a t → DecodedAtStart m a t (unparsed stack) := by
  intro h
  have hport := (h (udpAfter 6) (fun _ => 0) 0 .udp
    (.inl ⟨by decide, by decide, by decide, by decide⟩)).destPort (by decide)
  revert hport
  decide

end DonutOS.Kernel
