import DonutOS.Foundation.Parse
import DonutOS.Kernel.Rtl8139

set_option autoImplicit false

/-!
# Kernel: the protocol stack (`kernel/src/rtl8139.c`, `libc/include/net.h`)

`process_received_packet` and its parsers, with the structs of `net.h` as their
bytes: the protocol headers are unions inside one another, and what no parser
assigns keeps what the stack held.  A parser takes the offset of its struct.
-/

namespace DonutOS.Kernel

open DonutOS.Foundation

/-! ## The parsers -/

/-- `parseICMPHeader`. -/
def parseICMPHeader (frame : Frame) (icmpHeader : Nat) (p : Parse) : Parse :=
  p.setByte icmpHeader (frame 0)
    |>.setByte (icmpHeader + 1) (frame 1)
    |>.setHalf (icmpHeader + 2) (frame 2 <<< 8 ||| frame 3)
    |>.setWord (icmpHeader + 4) (frame 4 <<< 24 ||| frame 5 <<< 16 ||| frame 6 <<< 8 ||| frame 7)

/-- `parseTCPHeader`. -/
def parseTCPHeader (frame : Frame) (tcpHeader : Nat) (p : Parse) : Parse :=
  p.setHalf tcpHeader (frame 0 <<< 8 ||| frame 1)
    |>.setHalf (tcpHeader + 2) (frame 2 <<< 8 ||| frame 3)
    |>.setWord (tcpHeader + 4) (frame 4 <<< 24 ||| frame 5 <<< 16 ||| frame 6 <<< 8 ||| frame 7)
    |>.setWord (tcpHeader + 8) (frame 8 <<< 24 ||| frame 9 <<< 16 ||| frame 10 <<< 8 ||| frame 11)
    |>.setBits (tcpHeader + 12) 0 4 ((frame 12 >>> 4).mask 0xf)
    |>.setBits (tcpHeader + 12) 4 3 ((frame 12).mask 0xf ||| (frame 13 >>> 6).mask 0x3)
    |>.setBits (tcpHeader + 12) 7 9 ((frame 13).mask 0x3f <<< 8 ||| frame 14)
    |>.setHalf (tcpHeader + 14) (frame 15 <<< 8 ||| frame 16)
    |>.setHalf (tcpHeader + 16) (frame 17 <<< 8 ||| frame 18)
    |>.setHalf (tcpHeader + 18) (frame 19 <<< 8 ||| frame 20)

/-- `parseUDPHeader`. -/
def parseUDPHeader (frame : Frame) (udpHeader : Nat) (p : Parse) : Parse :=
  p.setHalf udpHeader (frame 0 <<< 8 ||| frame 1)
    |>.setHalf (udpHeader + 2) (frame 2 <<< 8 ||| frame 3)
    |>.setHalf (udpHeader + 4) (frame 4 <<< 8 ||| frame 5)
    |>.setHalf (udpHeader + 6) (frame 6 <<< 8 ||| frame 7)

/-- `parseIPv6HopByHop`; the transport header is at offset 12 of the struct. -/
def parseIPv6HopByHop (frame : Frame) (ipv6HopByHopHeader : Nat) (p : Parse) : Parse :=
  let p := p.setByte ipv6HopByHopHeader (frame 0)
    |>.setByte (ipv6HopByHopHeader + 1) (frame 1)
    |>.copy (ipv6HopByHopHeader + 2) (frame.skip 2) 6
    |>.copy (ipv6HopByHopHeader + 8) (frame.skip 8) 2
  let nextHeader := p.byte ipv6HopByHopHeader
  if nextHeader = 0x06 then parseTCPHeader (frame.skip 8) (ipv6HopByHopHeader + 12) p
  else if nextHeader = 0x11 then parseUDPHeader (frame.skip 8) (ipv6HopByHopHeader + 12) p
  else if nextHeader = 0x3a then parseICMPHeader (frame.skip 8) (ipv6HopByHopHeader + 12) p
  else p

/-- `parseEthernetHeader`. -/
def parseEthernetHeader (frame : Frame) (p : Parse) : Parse :=
  p.copy 0 (frame.skip 0) 6
    |>.copy 6 (frame.skip 6) 6
    |>.setHalf 12 (frame 12 <<< 8 ||| frame 13)

/-- `parseARPHeader`. -/
def parseARPHeader (frame : Frame) (arpHeader : Nat) (p : Parse) : Parse :=
  p.copy arpHeader (frame.skip 0) 2
    |>.copy (arpHeader + 2) (frame.skip 2) 2
    |>.setByte (arpHeader + 4) (frame 4)
    |>.setByte (arpHeader + 5) (frame 5)
    |>.copy (arpHeader + 6) (frame.skip 6) 2
    |>.copy (arpHeader + 8) (frame.skip 8) 6
    |>.copy (arpHeader + 16) (frame.skip 14) 4
    |>.copy (arpHeader + 20) (frame.skip 18) 6
    |>.copy (arpHeader + 28) (frame.skip 24) 4

/-- `parseIPv4Header`. -/
def parseIPv4Header (frame : Frame) (ipv4Header : Nat) (p : Parse) : Parse :=
  p.setBits ipv4Header 0 4 ((frame 0 >>> 4).mask 0xf)
    |>.setBits ipv4Header 4 4 ((frame 0).mask 0xf)
    |>.setByte (ipv4Header + 1) (frame 1)
    |>.setHalf (ipv4Header + 2) (frame 2 <<< 8 ||| frame 3)
    |>.setHalf (ipv4Header + 4) (frame 4 <<< 8 ||| frame 5)
    |>.setHalf (ipv4Header + 6) (frame 6 <<< 8 ||| frame 7)
    |>.setByte (ipv4Header + 8) (frame 8)
    |>.setByte (ipv4Header + 9) (frame 9)
    |>.setHalf (ipv4Header + 10) (frame 10 <<< 8 ||| frame 11)
    |>.copy (ipv4Header + 12) (frame.skip 12) 4
    |>.copy (ipv4Header + 16) (frame.skip 16) 4

/-- `parseIPv6Header`. -/
def parseIPv6Header (frame : Frame) (ipv6Header : Nat) (p : Parse) : Parse :=
  p.copy ipv6Header (frame.skip 0) 4
    |>.copy (ipv6Header + 4) (frame.skip 4) 2
    |>.setByte (ipv6Header + 6) (frame 6)
    |>.setByte (ipv6Header + 7) (frame 7)
    |>.copy (ipv6Header + 8) (frame.skip 8) 16
    |>.copy (ipv6Header + 24) (frame.skip 24) 16

/-- The offset of `protocol` in `struct EthernetHeader`. -/
def protocolOffset : Nat := 16

/-- `process_received_packet`.  `frame_length` is not used. -/
def processReceivedPacket (frame : Frame) (p : Parse) : Parse :=
  let p := parseEthernetHeader frame p
  if p.half 12 = 0x0806 then parseARPHeader (frame.skip 14) protocolOffset p
  else if p.half 12 = 0x0800 then
    let p := parseIPv4Header (frame.skip 14) protocolOffset p
    let protocol := p.byte (protocolOffset + 9)
    if protocol = 0x06 then parseTCPHeader (frame.skip (14 + 20)) (protocolOffset + 20) p
    else if protocol = 0x11 then parseUDPHeader (frame.skip (14 + 20)) (protocolOffset + 20) p
    else p
  else if p.half 12 = 0x86dd then
    let p := parseIPv6Header (frame.skip 14) protocolOffset p
    let nextHeader := p.byte (protocolOffset + 6)
    if nextHeader = 0x06 then parseTCPHeader (frame.skip (14 + 40)) (protocolOffset + 40) p
    else if nextHeader = 0x11 then
      parseUDPHeader (frame.skip (14 + 40)) (protocolOffset + 40) p
    else if nextHeader = 0x3a then
      parseICMPHeader (frame.skip (14 + 40)) (protocolOffset + 40) p
    else if nextHeader = 0 then
      parseIPv6HopByHop (frame.skip (14 + 40)) (protocolOffset + 40) p
    else p
  else p

/-- The struct on the stack before anything is parsed. -/
def unparsed (stack : Memory) : Parse := ⟨stack, []⟩

/-- `process_received_packet` as `receive_packet` calls it, when its stack holds
`stack`. -/
def stackParser (stack : Memory) : PacketParser := fun m frame _ i =>
  (processReceivedPacket (frameAt m frame) (unparsed stack)).record i

/-! ## How far each parser reads -/

variable {k a h : Nat} {m : Memory} {p : Parse}

theorem extent_parseICMPHeader :
    extent (parseICMPHeader ((frameAt m a).skip k) h p).reads =
      max (extent p.reads) (k + 8) := by
  simp only [parseICMPHeader, Parse.reads_setByte, Parse.reads_setHalf, Parse.reads_setWord,
    reads_or, reads_shiftLeft, reads_skip_frameAt, extent_append, extent_singleton,
    Nat.max_assoc, Nat.add_assoc, Nat.add_max_add_left, Nat.reduceAdd]
  rfl

theorem extent_parseTCPHeader :
    extent (parseTCPHeader ((frameAt m a).skip k) h p).reads =
      max (extent p.reads) (k + 21) := by
  simp only [parseTCPHeader, Parse.reads_setHalf, Parse.reads_setWord, Parse.reads_setBits,
    reads_or, reads_shiftLeft, reads_shiftRight, reads_mask, reads_skip_frameAt, extent_append,
    extent_singleton, Nat.max_assoc, Nat.add_assoc, Nat.add_max_add_left, Nat.reduceAdd]
  rfl

theorem extent_parseUDPHeader :
    extent (parseUDPHeader ((frameAt m a).skip k) h p).reads =
      max (extent p.reads) (k + 8) := by
  simp only [parseUDPHeader, Parse.reads_setHalf, reads_or, reads_shiftLeft,
    reads_skip_frameAt, extent_append, extent_singleton,
    Nat.max_assoc, Nat.add_assoc, Nat.add_max_add_left, Nat.reduceAdd]
  rfl

theorem extent_parseARPHeader :
    extent (parseARPHeader ((frameAt m a).skip k) h p).reads =
      max (extent p.reads) (k + 28) := by
  simp only [parseARPHeader, skip_skip, Parse.reads_setByte, reads_skip_frameAt, extent_append,
    extent_singleton, Parse.extent_copy, Nat.zero_lt_succ,
    Nat.max_assoc, Nat.add_assoc, Nat.add_max_add_left, Nat.reduceAdd]
  rfl

theorem extent_parseIPv4Header :
    extent (parseIPv4Header ((frameAt m a).skip k) h p).reads =
      max (extent p.reads) (k + 20) := by
  simp only [parseIPv4Header, skip_skip, Parse.reads_setByte, Parse.reads_setHalf,
    Parse.reads_setBits, reads_or, reads_shiftLeft, reads_shiftRight, reads_mask,
    reads_skip_frameAt, extent_append, extent_singleton, Parse.extent_copy, Nat.zero_lt_succ,
    Nat.max_assoc, Nat.add_assoc, Nat.add_max_add_left, Nat.reduceAdd]
  rfl

theorem extent_parseIPv6Header :
    extent (parseIPv6Header ((frameAt m a).skip k) h p).reads =
      max (extent p.reads) (k + 40) := by
  simp only [parseIPv6Header, skip_skip, Parse.reads_setByte, reads_skip_frameAt, extent_append,
    extent_singleton, Parse.extent_copy, Nat.zero_lt_succ,
    Nat.max_assoc, Nat.add_assoc, Nat.add_max_add_left, Nat.reduceAdd]
  rfl

theorem extent_parseEthernetHeader :
    extent (parseEthernetHeader (frameAt m a) p).reads = max (extent p.reads) 14 := by
  rw [← skip_zero (frameAt m a)]
  simp only [parseEthernetHeader, skip_skip, Parse.reads_setHalf, reads_or, reads_shiftLeft,
    reads_skip_frameAt, extent_append, extent_singleton, Parse.extent_copy, Nat.zero_lt_succ,
    Nat.max_assoc, Nat.reduceAdd]
  rfl

/-! ## The fields that the dispatch reads back -/

theorem byte_parseIPv4Header :
    (parseIPv4Header ((frameAt m a).skip k) h p).byte (h + 9) = (m (a + (k + 9))).toNat := by
  unfold parseIPv4Header
  rw [Parse.byte_copy_of_outside _ _ (by omega), Parse.byte_copy_of_outside _ _ (by omega),
    Parse.byte_setHalf_of_outside _ _ (by omega), Parse.byte_setByte_skip]

theorem byte_parseIPv6Header :
    (parseIPv6Header ((frameAt m a).skip k) h p).byte (h + 6) = (m (a + (k + 6))).toNat := by
  unfold parseIPv6Header
  rw [Parse.byte_copy_of_outside _ _ (by omega), Parse.byte_copy_of_outside _ _ (by omega),
    Parse.byte_setByte_of_ne _ _ (by omega), Parse.byte_setByte_skip]

theorem half_parseEthernetHeader :
    (parseEthernetHeader (frameAt m a) p).half 12 =
      (m (a + 12)).toNat * 0x100 + (m (a + 13)).toNat := by
  have hhalf := Parse.half_setHalf 12 m a 0 12 13
    ((p.copy 0 ((frameAt m a).skip 0) 6).copy 6 ((frameAt m a).skip 6) 6)
  simp only [Nat.zero_add, skip_zero] at hhalf
  exact hhalf

/-- How far `parseIPv6HopByHop` reads from offset `k` on. -/
def hopByHopExtent (m : Memory) (a k : Nat) : Nat :=
  let nextHeader := (m (a + k)).toNat
  if nextHeader = 0x06 then k + 29
  else if nextHeader = 0x11 then k + 16
  else if nextHeader = 0x3a then k + 16
  else k + 10

theorem le_hopByHopExtent (m : Memory) (a k : Nat) : k ≤ hopByHopExtent m a k := by
  unfold hopByHopExtent
  simp only
  split
  · exact Nat.le_add_right _ _
  · split
    · exact Nat.le_add_right _ _
    · split
      · exact Nat.le_add_right _ _
      · exact Nat.le_add_right _ _

theorem extent_parseIPv6HopByHop :
    extent (parseIPv6HopByHop ((frameAt m a).skip k) h p).reads =
      max (extent p.reads) (hopByHopExtent m a k) := by
  unfold parseIPv6HopByHop hopByHopExtent
  simp only [skip_skip]
  generalize hq : (((p.setByte h ((frameAt m a).skip k 0)).setByte (h + 1)
    ((frameAt m a).skip k 1)).copy (h + 2) ((frameAt m a).skip (k + 2)) 6).copy (h + 8)
    ((frameAt m a).skip (k + 8)) 2 = q
  have hbyte : q.byte h = (m (a + k)).toNat := by
    rw [← hq, Parse.byte_copy_of_outside _ _ (by omega),
      Parse.byte_copy_of_outside _ _ (by omega), Parse.byte_setByte_of_ne _ _ (by omega),
      Parse.byte_setByte_skip, Nat.add_zero]
  have hextent : extent q.reads = max (extent p.reads) (k + 10) := by
    rw [← hq]
    simp only [Parse.reads_setByte, reads_skip_frameAt, extent_append, extent_singleton,
      Parse.extent_copy, Nat.zero_lt_succ, Nat.max_assoc, Nat.add_assoc, Nat.add_max_add_left,
      Nat.reduceAdd]
    rfl
  rw [hbyte]
  split
  · rw [extent_parseTCPHeader, hextent]
    omega
  · split
    · rw [extent_parseUDPHeader, hextent]
      omega
    · split
      · rw [extent_parseICMPHeader, hextent]
        omega
      · exact hextent

/-! ## How far a frame is read -/

/-- The `etherType` of the frame at `a`. -/
def etherType (m : Memory) (a : Nat) : Nat := (m (a + 12)).toNat * 0x100 + (m (a + 13)).toNat

/-- The destination of a frame of none of the three types. -/
theorem record_processReceivedPacket {i : Nat} (hi : i < 6) (htype : etherType m a = 0) :
    (processReceivedPacket (frameAt m a) p).record i = m (a + i) := by
  have hcopy : (p.copy 0 ((frameAt m a).skip 0) 6).record (0 + i) = m (a + (0 + i)) :=
    Parse.record_copy p hi
  rw [Nat.zero_add] at hcopy
  unfold etherType at htype
  unfold processReceivedPacket
  simp only
  rw [half_parseEthernetHeader, htype, if_neg (by decide), if_neg (by decide),
    if_neg (by decide), parseEthernetHeader,
    Parse.record_setHalf_of_outside _ _ (Or.inl (by omega)),
    Parse.record_copy_of_outside _ _ (Or.inl hi)]
  exact hcopy

/-- How far the IPv4 branch reads. -/
def ipv4Extent (m : Memory) (a : Nat) : Nat :=
  let protocol := (m (a + 23)).toNat
  if protocol = 0x06 then 55 else if protocol = 0x11 then 42 else 34

/-- How far the IPv6 branch reads. -/
def ipv6Extent (m : Memory) (a : Nat) : Nat :=
  let nextHeader := (m (a + 20)).toNat
  if nextHeader = 0x06 then 75
  else if nextHeader = 0x11 then 62
  else if nextHeader = 0x3a then 62
  else if nextHeader = 0 then hopByHopExtent m a 54
  else 54

/-- How far `process_received_packet` reads, along the path that the fields of the
frame select. -/
def frameExtent (m : Memory) (a : Nat) : Nat :=
  if etherType m a = 0x0806 then 42
  else if etherType m a = 0x0800 then ipv4Extent m a
  else if etherType m a = 0x86dd then ipv6Extent m a
  else 14

theorem extent_processReceivedPacket (stack m : Memory) (a : Nat) :
    extent (processReceivedPacket (frameAt m a) (unparsed stack)).reads = frameExtent m a := by
  unfold processReceivedPacket frameExtent
  simp only
  generalize hq : parseEthernetHeader (frameAt m a) (unparsed stack) = q
  have htype : q.half 12 = etherType m a := hq ▸ half_parseEthernetHeader
  have hread : extent q.reads = 14 := by
    rw [← hq, extent_parseEthernetHeader]
    rfl
  rw [htype]
  split
  · rw [extent_parseARPHeader, hread]
    rfl
  · split
    · unfold ipv4Extent
      rw [byte_parseIPv4Header]
      simp only [Nat.reduceAdd]
      split
      · rw [extent_parseTCPHeader, extent_parseIPv4Header, hread]
        rfl
      · split
        · rw [extent_parseUDPHeader, extent_parseIPv4Header, hread]
          rfl
        · rw [extent_parseIPv4Header, hread]
          rfl
    · split
      · unfold ipv6Extent
        rw [byte_parseIPv6Header]
        simp only [Nat.reduceAdd]
        split
        · rw [extent_parseTCPHeader, extent_parseIPv6Header, hread]
          rfl
        · split
          · rw [extent_parseUDPHeader, extent_parseIPv6Header, hread]
            rfl
          · split
            · rw [extent_parseICMPHeader, extent_parseIPv6Header, hread]
              rfl
            · split
              · have hlong := le_hopByHopExtent m a 54
                rw [extent_parseIPv6HopByHop, extent_parseIPv6Header, hread]
                omega
              · rw [extent_parseIPv6Header, hread]
                rfl
      · exact hread

/-- The frame is long enough for the transport header that its fields announce:
only behind an IPv6 header, or a hop-by-hop header, can it be too short. -/
def FrameRoom (m : Memory) (a n : Nat) : Prop :=
  etherType m a = 0x86dd →
    ((m (a + 20)).toNat = 0x06 → 75 ≤ n) ∧
    ((m (a + 20)).toNat = 0 →
      ((m (a + 54)).toNat = 0x06 → 83 ≤ n) ∧
      ((m (a + 54)).toNat = 0x11 ∨ (m (a + 54)).toNat = 0x3a → 70 ≤ n))

theorem frameExtent_le_iff {m : Memory} {a n : Nat} (hmin : 64 ≤ n) :
    frameExtent m a ≤ n ↔ FrameRoom m a n := by
  unfold frameExtent FrameRoom ipv4Extent ipv6Extent hopByHopExtent
  simp only
  grind

/-- Of a frame of at least 64 bytes, `process_received_packet` reads nothing behind the
given length exactly when the announced transport header fits. -/
theorem processReceivedPacket_inside_iff (stack m : Memory) (a : Nat) {frameLength : Nat}
    (hmin : 64 ≤ frameLength) :
    (∀ i ∈ (processReceivedPacket (frameAt m a) (unparsed stack)).reads, i < frameLength) ↔
      FrameRoom m a frameLength := by
  rw [← extent_le_iff, extent_processReceivedPacket]
  exact frameExtent_le_iff hmin

/-- A frame whose IPv6 header announces TCP; its other bytes are zero. -/
def shortTcpFrame : Memory := fun b =>
  if b = 12 then 0x86 else if b = 13 then 0xdd else if b = 20 then 0x06 else 0

theorem processReceivedPacket_inside_iff_short :
    (∀ i ∈ (processReceivedPacket (frameAt shortTcpFrame 0) (unparsed fun _ => 0)).reads,
      i < 64 + 4) ↔ FrameRoom shortTcpFrame 0 (64 + 4) :=
  processReceivedPacket_inside_iff _ _ 0 (by decide)

/-- Of 64 bytes of that frame, and the four that `receive_packet` adds, the TCP parser
reads up to index 74. -/
theorem processReceivedPacket_outside :
    ¬ ∀ i ∈ (processReceivedPacket (frameAt shortTcpFrame 0) (unparsed fun _ => 0)).reads,
      i < 64 + 4 := by
  rw [← extent_le_iff, extent_processReceivedPacket]
  decide

end DonutOS.Kernel
