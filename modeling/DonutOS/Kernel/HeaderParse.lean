import DonutOS.Kernel.NetHeaders

set_option autoImplicit false

/-!
# Kernel: what the parsers store (`kernel/src/rtl8139.c`)

For each parser the bytes of the record that it writes, and the struct that is in the
record afterwards, as a function of the bytes of the packet.
-/

namespace DonutOS.Kernel

open DonutOS.Foundation

theorem ofNat_mod_two_pow (w x : Nat) : BitVec.ofNat w (x % 2 ^ w) = BitVec.ofNat w x := by
  refine BitVec.eq_of_toNat_eq ?_
  rw [BitVec.toNat_ofNat, BitVec.toNat_ofNat, Nat.mod_mod]

/-! ## What each parser makes of the bytes at `b` -/

section Parsed

variable (m : Memory) (b : Nat)

def icmpParsed : ICMPHeader where
  type := m b
  code := m (b + 1)
  checksum := networkField 16 m (b + 2) 2
  restOfHeader := networkField 32 m (b + 4) 4

/-- The fields from the flags on are taken from one byte further on than a TCP header
has them, the last of them from behind the header. -/
def tcpParsed : TCPHeader where
  sourcePort := networkField 16 m b 2
  destPort := networkField 16 m (b + 2) 2
  sequenceNumber := networkField 32 m (b + 4) 4
  acknowledgmentNumber := networkField 32 m (b + 8) 4
  dataOffset := .ofNat 4 ((m (b + 12)).toNat >>> 4 &&& 0xf)
  reserved := .ofNat 3 ((m (b + 12)).toNat &&& 0xf ||| (m (b + 13)).toNat >>> 6 &&& 0x3)
  flags := .ofNat 9 (((m (b + 13)).toNat &&& 0x3f) <<< 8 ||| (m (b + 14)).toNat)
  windowSize := networkField 16 m (b + 15) 2
  checksum := networkField 16 m (b + 17) 2
  urgentPointer := networkField 16 m (b + 19) 2

def udpParsed : UDPHeader where
  sourcePort := networkField 16 m b 2
  destPort := networkField 16 m (b + 2) 2
  length := networkField 16 m (b + 4) 2
  checksum := networkField 16 m (b + 6) 2

def hopByHopParsed : IPV6HopByHopHeader where
  nextHeader := m b
  headerExtLength := m (b + 1)
  options := bytesAt m (b + 2) 6
  padding := bytesAt m (b + 8) 2

def ethernetParsed : EthernetFields where
  destMAC := bytesAt m b 6
  sourceMAC := bytesAt m (b + 6) 6
  etherType := networkField 16 m (b + 12) 2

/-- `memcpy` into an integer: the first byte becomes the least significant one. -/
def arpParsed : ARPHeader where
  hardwareType := .ofNat 16 (readHalf m b)
  protocolType := .ofNat 16 (readHalf m (b + 2))
  hardwareAddrLen := m (b + 4)
  protocolAddrLen := m (b + 5)
  opcode := .ofNat 16 (readHalf m (b + 6))
  senderMAC := bytesAt m (b + 8) 6
  senderIP := bytesAt m (b + 14) 4
  targetMAC := bytesAt m (b + 18) 6
  targetIP := bytesAt m (b + 24) 4

def ipv4Parsed : IPv4Header where
  version := .ofNat 4 ((m b).toNat >>> 4 &&& 0xf)
  headerLength := .ofNat 4 ((m b).toNat &&& 0xf)
  typeOfService := m (b + 1)
  totalLength := networkField 16 m (b + 2) 2
  identification := networkField 16 m (b + 4) 2
  flagsFragmentOffset := networkField 16 m (b + 6) 2
  ttl := m (b + 8)
  protocol := m (b + 9)
  headerChecksum := networkField 16 m (b + 10) 2
  sourceIP := bytesAt m (b + 12) 4
  destIP := bytesAt m (b + 16) 4

/-- The two integers before `nextHeader` are copied like those of `struct ARPHeader`. -/
def ipv6Parsed : IPv6Header where
  versionClassFlow := .ofNat 32 (readWord m b)
  payloadLength := .ofNat 16 (readHalf m (b + 4))
  nextHeader := m (b + 6)
  hopLimit := m (b + 7)
  sourceIP := bytesAt m (b + 8) 16
  destIP := bytesAt m (b + 24) 16

end Parsed

/-! ## The hop-by-hop header -/

/-- `parseIPv6HopByHop` before its dispatch. -/
def parseHopFields (frame : Frame) (h : Nat) (p : Parse) : Parse :=
  p.setByte h (frame 0)
    |>.setByte (h + 1) (frame 1)
    |>.copy (h + 2) (frame.skip 2) 6
    |>.copy (h + 8) (frame.skip 8) 2

/-- `parseIPv6HopByHop` behind its fields. -/
def parseHopTransport (frame : Frame) (h : Nat) (p : Parse) : Parse :=
  let nextHeader := p.byte h
  if nextHeader = 0x06 then parseTCPHeader (frame.skip 8) (h + 12) p
  else if nextHeader = 0x11 then parseUDPHeader (frame.skip 8) (h + 12) p
  else if nextHeader = 0x3a then parseICMPHeader (frame.skip 8) (h + 12) p
  else p

theorem parseIPv6HopByHop_eq (frame : Frame) (h : Nat) (p : Parse) :
    parseIPv6HopByHop frame h p = parseHopTransport frame h (parseHopFields frame h p) := rfl

/-! ## What each parser writes -/

section Writes

variable (frame : Frame) (h : Nat)

theorem writes_parseICMPHeader : Parse.Writes h (h + 8) (parseICMPHeader frame h) := by
  intro p b hb
  unfold parseICMPHeader
  simp (disch := omega) only [Parse.writes_setWord _ _ _ b, Parse.writes_setHalf _ _ _ b,
    Parse.writes_setByte _ _ _ b]

theorem writes_parseTCPHeader : Parse.Writes h (h + 20) (parseTCPHeader frame h) := by
  intro p b hb
  unfold parseTCPHeader
  simp (disch := omega) only [Parse.writes_setHalf _ _ _ b, Parse.writes_setBits _ _ _ _ _ b,
    Parse.writes_setWord _ _ _ b]

theorem writes_parseUDPHeader : Parse.Writes h (h + 8) (parseUDPHeader frame h) := by
  intro p b hb
  unfold parseUDPHeader
  simp (disch := omega) only [Parse.writes_setHalf _ _ _ b]

theorem writes_parseHopFields : Parse.Writes h (h + 10) (parseHopFields frame h) := by
  intro p b hb
  unfold parseHopFields
  simp (disch := omega) only [Parse.writes_copy _ _ _ _ b, Parse.writes_setByte _ _ _ b]

theorem writes_parseHopTransport :
    Parse.Writes (h + 12) (h + 32) (parseHopTransport frame h) := by
  intro p b hb
  unfold parseHopTransport
  simp only
  split
  · exact writes_parseTCPHeader _ _ p b (by omega)
  · split
    · exact writes_parseUDPHeader _ _ p b (by omega)
    · split
      · exact writes_parseICMPHeader _ _ p b (by omega)
      · rfl

theorem writes_parseIPv6HopByHop : Parse.Writes h (h + 32) (parseIPv6HopByHop frame h) :=
  ((writes_parseHopFields frame h).comp (writes_parseHopTransport frame h)).mono (by omega)
    (by omega)

theorem writes_parseARPHeader : Parse.Writes h (h + 32) (parseARPHeader frame h) := by
  intro p b hb
  unfold parseARPHeader
  simp (disch := omega) only [Parse.writes_copy _ _ _ _ b, Parse.writes_setByte _ _ _ b]

theorem writes_parseIPv4Header : Parse.Writes h (h + 20) (parseIPv4Header frame h) := by
  intro p b hb
  unfold parseIPv4Header
  simp (disch := omega) only [Parse.writes_copy _ _ _ _ b, Parse.writes_setByte _ _ _ b,
    Parse.writes_setHalf _ _ _ b, Parse.writes_setBits _ _ _ _ _ b]

theorem writes_parseIPv6Header : Parse.Writes h (h + 40) (parseIPv6Header frame h) := by
  intro p b hb
  unfold parseIPv6Header
  simp (disch := omega) only [Parse.writes_copy _ _ _ _ b, Parse.writes_setByte _ _ _ b]

end Writes

/-! ## Structs that are not written -/

section Kept

variable {lo hi o : Nat} {f : Parse → Parse}

theorem bytesAt_of_writes {offset n : Nat} (hf : Parse.Writes lo hi f)
    (p : Parse) (hout : offset + n ≤ lo ∨ hi ≤ offset) :
    bytesAt (f p).record offset n = bytesAt p.record offset n :=
  funext fun i => hf p _ (by have := i.isLt; omega)

theorem ethernetFieldsAt_of_writes (hf : Parse.Writes lo hi f) (p : Parse) (hout : o + 14 ≤ lo) :
    ethernetFieldsAt (f p).record o = ethernetFieldsAt p.record o := by
  unfold ethernetFieldsAt
  simp (disch := omega) only [bytesAt_of_writes hf, hf.half]

theorem ipv4HeaderAt_of_writes (hf : Parse.Writes lo hi f) (p : Parse) (hout : o + 20 ≤ lo) :
    ipv4HeaderAt (f p).record o = ipv4HeaderAt p.record o := by
  unfold ipv4HeaderAt
  simp (disch := omega) only [bytesAt_of_writes hf, hf.half, hf.bits, hf p]

theorem ipv6HeaderAt_of_writes (hf : Parse.Writes lo hi f) (p : Parse) (hout : o + 40 ≤ lo) :
    ipv6HeaderAt (f p).record o = ipv6HeaderAt p.record o := by
  unfold ipv6HeaderAt
  simp (disch := omega) only [bytesAt_of_writes hf, hf.half, hf.word, hf p]

theorem hopByHopHeaderAt_of_writes (hf : Parse.Writes lo hi f) (p : Parse) (hout : o + 10 ≤ lo) :
    hopByHopHeaderAt (f p).record o = hopByHopHeaderAt p.record o := by
  unfold hopByHopHeaderAt
  simp (disch := omega) only [bytesAt_of_writes hf, hf p]

end Kept

/-! ## What each parser leaves in the record -/

section Stored

variable {m : Memory} {a k h : Nat} {p : Parse}

theorem bytesAt_copy {offset n : Nat} :
    bytesAt (p.copy offset ((frameAt m a).skip k) n).record offset n = bytesAt m (a + k) n := by
  funext i
  unfold bytesAt
  rw [Parse.record_copy p i.isLt, Nat.add_assoc]

/-- A byte of the frame stored in a field of one byte. -/
theorem record_setByte_skip (offset i : Nat) (p : Parse) :
    (p.setByte offset ((frameAt m a).skip k i)).record offset = m (a + (k + i)) := by
  rw [Parse.record_setByte, value_skip_frameAt, BitVec.ofNat_toNat, BitVec.setWidth_eq]

theorem udpHeaderAt_parseUDPHeader :
    udpHeaderAt (parseUDPHeader ((frameAt m a).skip k) h p).record h = udpParsed m (a + k) := by
  unfold udpHeaderAt parseUDPHeader udpParsed networkField
  simp (disch := omega) only [(Parse.writes_setHalf _ _).half, Parse.readHalf_setHalf, value_half,
    ofNat_mod_two_pow, Nat.add_zero, Nat.add_assoc]

theorem icmpHeaderAt_parseICMPHeader :
    icmpHeaderAt (parseICMPHeader ((frameAt m a).skip k) h p).record h =
      icmpParsed m (a + k) := by
  unfold icmpHeaderAt parseICMPHeader icmpParsed networkField
  simp (disch := omega) only [Parse.writes_setWord _ _ _ _, Parse.writes_setHalf _ _ _ _,
    Parse.writes_setByte _ _ _ _, (Parse.writes_setWord _ _).half, record_setByte_skip,
    Parse.readHalf_setHalf, Parse.readWord_setWord, value_half, value_word,
    ofNat_mod_two_pow, Nat.add_zero, Nat.add_assoc]

theorem tcpHeaderAt_parseTCPHeader :
    tcpHeaderAt (parseTCPHeader ((frameAt m a).skip k) h p).record h = tcpParsed m (a + k) := by
  unfold tcpHeaderAt parseTCPHeader tcpParsed networkField
  simp (disch := omega) only [(Parse.writes_setHalf _ _).half, (Parse.writes_setHalf _ _).word,
    (Parse.writes_setHalf _ _).bits, (Parse.writes_setBits _ _ _ _).half,
    (Parse.writes_setBits _ _ _ _).word, (Parse.writes_setWord _ _).half,
    (Parse.writes_setWord _ _).word, Parse.readHalf_setHalf, Parse.readWord_setWord,
    Parse.readBits_setBits, Parse.readBits_setBits_of_disjoint, value_half, value_word,
    ofNat_mod_two_pow, Nat.add_zero, Nat.add_assoc]
  rfl

theorem ethernetFieldsAt_parseEthernetHeader :
    ethernetFieldsAt (parseEthernetHeader (frameAt m a) p).record 0 = ethernetParsed m a := by
  rw [← skip_zero (frameAt m a)]
  unfold ethernetFieldsAt parseEthernetHeader ethernetParsed networkField
  simp (disch := omega) only [skip_skip, bytesAt_of_writes (Parse.writes_setHalf _ _),
    bytesAt_of_writes (Parse.writes_copy _ _ _), bytesAt_copy, Parse.readHalf_setHalf, value_half,
    ofNat_mod_two_pow, Nat.zero_add, Nat.add_zero]

theorem arpHeaderAt_parseARPHeader :
    arpHeaderAt (parseARPHeader ((frameAt m a).skip k) h p).record h = arpParsed m (a + k) := by
  unfold arpHeaderAt parseARPHeader arpParsed
  simp (disch := omega) only [skip_skip, bytesAt_of_writes (Parse.writes_copy _ _ _), bytesAt_copy,
    Parse.writes_copy _ _ _ _, Parse.writes_setByte _ _ _ _, (Parse.writes_copy _ _ _).half,
    (Parse.writes_setByte _ _).half, record_setByte_skip, Parse.readHalf_copy, Nat.add_zero,
    Nat.add_assoc]

theorem ipv4HeaderAt_parseIPv4Header :
    ipv4HeaderAt (parseIPv4Header ((frameAt m a).skip k) h p).record h =
      ipv4Parsed m (a + k) := by
  unfold ipv4HeaderAt parseIPv4Header ipv4Parsed networkField
  simp (disch := omega) only [skip_skip, bytesAt_of_writes (Parse.writes_copy _ _ _), bytesAt_copy,
    Parse.writes_copy _ _ _ _, Parse.writes_setByte _ _ _ _, Parse.writes_setHalf _ _ _ _,
    (Parse.writes_copy _ _ _).half, (Parse.writes_setByte _ _).half,
    (Parse.writes_setHalf _ _).half, (Parse.writes_copy _ _ _).lowBits,
    (Parse.writes_setByte _ _).lowBits, (Parse.writes_setHalf _ _).lowBits,
    record_setByte_skip, Parse.readHalf_setHalf, Parse.readBits_setBits,
    Parse.readBits_setBits_of_disjoint, value_half, ofNat_mod_two_pow, Nat.add_assoc]
  rfl

theorem ipv6HeaderAt_parseIPv6Header :
    ipv6HeaderAt (parseIPv6Header ((frameAt m a).skip k) h p).record h =
      ipv6Parsed m (a + k) := by
  unfold ipv6HeaderAt parseIPv6Header ipv6Parsed
  simp (disch := omega) only [skip_skip, bytesAt_of_writes (Parse.writes_copy _ _ _), bytesAt_copy,
    Parse.writes_copy _ _ _ _, Parse.writes_setByte _ _ _ _, (Parse.writes_copy _ _ _).half,
    (Parse.writes_copy _ _ _).word, (Parse.writes_setByte _ _).half,
    (Parse.writes_setByte _ _).word, record_setByte_skip, Parse.readHalf_copy, Parse.readWord_copy,
    Nat.add_zero, Nat.add_assoc]

theorem hopByHopHeaderAt_parseHopFields :
    hopByHopHeaderAt (parseHopFields ((frameAt m a).skip k) h p).record h =
      hopByHopParsed m (a + k) := by
  unfold hopByHopHeaderAt parseHopFields hopByHopParsed
  simp (disch := omega) only [skip_skip, bytesAt_of_writes (Parse.writes_copy _ _ _),
    bytesAt_copy, Parse.writes_copy _ _ _ _, Parse.writes_setByte _ _ _ _, record_setByte_skip,
    Nat.add_zero, Nat.add_assoc]

theorem hopByHopHeaderAt_parseIPv6HopByHop :
    hopByHopHeaderAt (parseIPv6HopByHop ((frameAt m a).skip k) h p).record h =
      hopByHopParsed m (a + k) := by
  rw [parseIPv6HopByHop_eq, hopByHopHeaderAt_of_writes (writes_parseHopTransport _ _) _ (by omega),
    hopByHopHeaderAt_parseHopFields]

theorem byte_parseHopFields :
    (parseHopFields ((frameAt m a).skip k) h p).byte h = (m (a + k)).toNat :=
  congrArg (fun x : IPV6HopByHopHeader => x.nextHeader.toNat) hopByHopHeaderAt_parseHopFields

end Stored

end DonutOS.Kernel
