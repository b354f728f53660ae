import DonutOS.Kernel.HeaderParse

set_option autoImplicit false

/-!
# Kernel: a TCP header there and back (`parseTCPHeader`)

From the flags on the parser takes every field from one byte further on than RFC 793 and
RFC 3540 place it.  A header survives that only when its bytes make up for the drift.
-/

namespace DonutOS.Kernel

open DonutOS.Foundation

/-- The reserved bits that survive when the byte `c` is behind the header: the parser puts
bits of two bytes together that do not belong to the field. -/
def reservedOf (c : Byte) : BitVec 3 :=
  if c.getLsbD 0 || c.getLsbD 6 then 7 else if c.getLsbD 7 then 6 else 0

/-- The last six bytes of the header and the low byte of the flags all are the byte
behind the header, and the reserved bits and the high bit of the flags are those that
this byte makes of them. -/
structure SurvivesDrift (x : TCPHeader) (behind : Byte) : Prop where
  reserved : x.reserved = reservedOf behind
  flags : x.flags = behind.setWidth 1 ++ behind
  windowSize : x.windowSize = behind ++ behind
  checksum : x.checksum = behind ++ behind
  urgentPointer : x.urgentPointer = behind ++ behind

/-- The bytes of a TCP header with one byte behind it. -/
structure TcpBytes (m : Memory) (b : Nat) (x : TCPHeader) (behind : Byte) : Prop where
  sourcePort : networkField 16 m b 2 = x.sourcePort
  destPort : networkField 16 m (b + 2) 2 = x.destPort
  sequenceNumber : networkField 32 m (b + 4) 4 = x.sequenceNumber
  acknowledgmentNumber : networkField 32 m (b + 8) 4 = x.acknowledgmentNumber
  bits : (m (b + 12)).toNat * 0x100 + (m (b + 13)).toNat =
    x.dataOffset.toNat * 0x1000 + x.reserved.toNat * 0x200 + x.flags.toNat
  windowSize : (m (b + 14)).toNat * 0x100 + (m (b + 15)).toNat = x.windowSize.toNat
  checksum : (m (b + 16)).toNat * 0x100 + (m (b + 17)).toNat = x.checksum.toNat
  urgentPointer : (m (b + 18)).toNat * 0x100 + (m (b + 19)).toNat = x.urgentPointer.toNat
  behind : m (b + 20) = behind

theorem tcpBytes_of_textAt {m : Memory} {b : Nat} {x : TCPHeader} {behind : Byte}
    (h : TextAt m b (x.bytes ++ [behind])) : TcpBytes m b x behind := by
  unfold TCPHeader.bytes at h
  simp only [TextAt.append_iff, TextAt.singleton_iff, length_networkBytes, List.length_append,
    Nat.add_assoc, Nat.reduceAdd] at h
  obtain ⟨⟨hsource, hdest, hseq, hack, hbits, hwindow, hchecksum, hurgent⟩, hbehind⟩ := h
  refine ⟨networkField_of_textAt hsource rfl, networkField_of_textAt hdest rfl,
    networkField_of_textAt hseq rfl, networkField_of_textAt hack rfl, ?_, two_bytes hwindow,
    two_bytes hchecksum, two_bytes hurgent, hbehind⟩
  rw [two_bytes hbits, toNat_append_eq, toNat_append_eq]
  omega

/-- The parser's mask and shift. -/
theorem reserved_or (n : Nat) (t : Byte) :
    (n &&& 0xf ||| t.toNat >>> 6 &&& 0x3) = n % 16 ||| t.toNat / 64 := by
  have ht := t.isLt
  rw [show (0xf : Nat) = 2 ^ 4 - 1 from rfl, show (0x3 : Nat) = 2 ^ 2 - 1 from rfl,
    Nat.and_two_pow_sub_one_eq_mod, Nat.and_two_pow_sub_one_eq_mod, Nat.shiftRight_eq_div_pow]
  congr 1
  omega

theorem reservedOf_iff : ∀ (r : Fin 8) (c : Fin 256),
    ((2 * r.val + c.val % 2) ||| c.val / 64) % 8 = r.val ↔
      r.val = (reservedOf (BitVec.ofFin c)).toNat := by decide +kernel

theorem toNat_networkField_two (m : Memory) (b : Nat) :
    (networkField 16 m b 2).toNat = (m b).toNat * 0x100 + (m (b + 1)).toNat := by
  have hlt : networkNumber m b 2 < 2 ^ 16 := networkNumber_lt m b 2
  unfold networkField
  rw [BitVec.toNat_ofNat, Nat.mod_eq_of_lt hlt]
  simp only [networkNumber, Nat.zero_mul, Nat.zero_add, Nat.add_zero]

section Drift

variable (m : Memory) (b : Nat)

theorem toNat_dataOffset : (tcpParsed m b).dataOffset.toNat = (m (b + 12)).toNat / 0x10 := by
  have hlt := (m (b + 12)).isLt
  change ((m (b + 12)).toNat >>> 4 &&& 2 ^ 4 - 1) % 2 ^ 4 = _
  rw [Nat.and_two_pow_sub_one_eq_mod, Nat.shiftRight_eq_div_pow]
  omega

theorem toNat_reserved : (tcpParsed m b).reserved.toNat =
    ((m (b + 12)).toNat % 0x10 ||| (m (b + 13)).toNat / 0x40) % 8 :=
  congrArg (· % 8) (reserved_or _ _)

theorem toNat_flags : (tcpParsed m b).flags.toNat =
    (m (b + 13)).toNat % 2 * 0x100 + (m (b + 14)).toNat := by
  have hlt := (m (b + 14)).isLt
  change (((m (b + 13)).toNat &&& 2 ^ 6 - 1) <<< 8 ||| (m (b + 14)).toNat) % 2 ^ 9 = _
  rw [Nat.and_two_pow_sub_one_eq_mod, shiftLeft_or_toNat]
  omega

end Drift

/-- The two bytes of the bit fields. -/
theorem TcpBytes.split {m : Memory} {b : Nat} {x : TCPHeader} {c : Byte} (h : TcpBytes m b x c) :
    (m (b + 12)).toNat = x.dataOffset.toNat * 0x10 + x.reserved.toNat * 2 + x.flags.toNat / 0x100 ∧
      (m (b + 13)).toNat = x.flags.toNat % 0x100 := by
  have hbits := h.bits
  have hlt := (m (b + 13)).isLt
  omega

theorem doubled {c : Nat} (hc : c < 0x100) :
    (c % 2 * 0x100 + c) / 0x100 = c % 2 ∧ (c % 2 * 0x100 + c) % 0x100 = c := by omega

theorem byte_pair {c d c' d' : Byte}
    (h : c.toNat * 0x100 + d.toNat = c'.toNat * 0x100 + d'.toNat) : c = c' ∧ d = d' := by
  have hd := d.isLt
  have hd' := d'.isLt
  exact ⟨BitVec.eq_of_toNat_eq (by omega), BitVec.eq_of_toNat_eq (by omega)⟩

theorem byte_pair_iff {x : BitVec 16} {c d c' d' : Byte}
    (h : c.toNat * 0x100 + d.toNat = x.toNat) : x = c' ++ d' ↔ c = c' ∧ d = d' := by
  have happend : (c' ++ d').toNat = c'.toNat * 0x100 + d'.toNat := toNat_append_eq c' d'
  rw [← BitVec.toNat_inj, ← h, happend]
  refine ⟨byte_pair, ?_⟩
  rintro ⟨rfl, rfl⟩
  rfl

/-- The flags that survive. -/
theorem toNat_driftedFlags (c : Byte) :
    (c.setWidth 1 ++ c).toNat = c.toNat % 2 * 0x100 + c.toNat :=
  (toNat_append_eq _ _).trans (congrArg (· * 0x100 + c.toNat) (BitVec.toNat_setWidth 1 c))

/-- The last six bytes of the header are `c`. -/
def TailIs (m : Memory) (b : Nat) (c : Byte) : Prop :=
  (m (b + 14) = c ∧ m (b + 15) = c) ∧ (m (b + 16) = c ∧ m (b + 17) = c) ∧
    (m (b + 18) = c ∧ m (b + 19) = c)

namespace TcpBytes

variable {m : Memory} {b : Nat} {x : TCPHeader} {c : Byte}

theorem tailIs_iff (h : TcpBytes m b x c) : TailIs m b c ↔
    x.windowSize = c ++ c ∧ x.checksum = c ++ c ∧ x.urgentPointer = c ++ c := by
  rw [byte_pair_iff h.windowSize, byte_pair_iff h.checksum, byte_pair_iff h.urgentPointer]
  exact Iff.rfl

/-- Each field is a byte further on: they agree when all bytes do. -/
theorem tail_parsed_iff (h : TcpBytes m b x c) :
    (networkField 16 m (b + 15) 2 = x.windowSize ∧ networkField 16 m (b + 17) 2 = x.checksum ∧
      networkField 16 m (b + 19) 2 = x.urgentPointer) ↔ TailIs m b c := by
  have hwindow := toNat_networkField_two m (b + 15)
  have hchecksum := toNat_networkField_two m (b + 17)
  have hurgent := toNat_networkField_two m (b + 19)
  simp only [Nat.add_assoc, Nat.reduceAdd, h.behind] at hwindow hchecksum hurgent
  rw [← BitVec.toNat_inj, ← BitVec.toNat_inj, ← BitVec.toNat_inj, hwindow, hchecksum, hurgent,
    ← h.windowSize, ← h.checksum, ← h.urgentPointer]
  constructor
  · rintro ⟨hw, hk, hu⟩
    obtain ⟨h15, h16⟩ := byte_pair hw
    obtain ⟨h17, h18⟩ := byte_pair hk
    obtain ⟨h19, hc⟩ := byte_pair hu
    have h19' := hc.symm
    have h18' := h19.symm.trans h19'
    have h17' := h18.symm.trans h18'
    have h16' := h17.symm.trans h17'
    have h15' := h16.symm.trans h16'
    exact ⟨⟨h15.symm.trans h15', h15'⟩, ⟨h16', h17'⟩, ⟨h18', h19'⟩⟩
  · rintro ⟨⟨h14, h15⟩, ⟨h16, h17⟩, ⟨h18, h19⟩⟩
    rw [h14, h15, h16, h17, h18, h19]
    exact ⟨rfl, rfl, rfl⟩

theorem flags_iff (h : TcpBytes m b x c) (htail : TailIs m b c) :
    (tcpParsed m b).flags = x.flags ↔ x.flags = c.setWidth 1 ++ c := by
  have hlt := x.flags.isLt
  obtain ⟨-, h13⟩ := h.split
  rw [← BitVec.toNat_inj, ← BitVec.toNat_inj, toNat_flags, htail.1.1, h13, toNat_driftedFlags]
  have hc := c.isLt
  omega

theorem reserved_iff (h : TcpBytes m b x c) (hflags : x.flags = c.setWidth 1 ++ c) :
    (tcpParsed m b).reserved = x.reserved ↔ x.reserved = reservedOf c := by
  have hc := c.isLt
  have hlt := x.reserved.isLt
  obtain ⟨h12, h13⟩ := h.split
  have hvalue : x.flags.toNat = c.toNat % 2 * 0x100 + c.toNat := by
    rw [hflags, toNat_driftedFlags]
  rw [hvalue, (doubled hc).1] at h12
  rw [hvalue, (doubled hc).2] at h13
  have hnibble : (m (b + 12)).toNat % 0x10 = 2 * x.reserved.toNat + c.toNat % 2 := by
    rw [h12]
    omega
  rw [← BitVec.toNat_inj, ← BitVec.toNat_inj, toNat_reserved, hnibble, h13]
  exact reservedOf_iff ⟨x.reserved.toNat, hlt⟩ ⟨c.toNat, hc⟩

theorem dataOffset (h : TcpBytes m b x c) : (tcpParsed m b).dataOffset = x.dataOffset := by
  have hflags := x.flags.isLt
  have hreserved := x.reserved.isLt
  refine BitVec.eq_of_toNat_eq ?_
  rw [toNat_dataOffset, h.split.1]
  omega

/-- What the parser makes of a header is the header exactly when the header is made for
the drift. -/
theorem parsed_eq_iff (h : TcpBytes m b x c) : tcpParsed m b = x ↔ SurvivesDrift x c := by
  constructor
  · intro heq
    have htail := h.tail_parsed_iff.mp ⟨congrArg TCPHeader.windowSize heq,
      congrArg TCPHeader.checksum heq, congrArg TCPHeader.urgentPointer heq⟩
    have hflags := (h.flags_iff htail).mp (congrArg TCPHeader.flags heq)
    obtain ⟨hwindow, hchecksum, hurgent⟩ := h.tailIs_iff.mp htail
    exact ⟨(h.reserved_iff hflags).mp (congrArg TCPHeader.reserved heq), hflags, hwindow,
      hchecksum, hurgent⟩
  · intro hs
    have htail := h.tailIs_iff.mpr ⟨hs.windowSize, hs.checksum, hs.urgentPointer⟩
    obtain ⟨hwindow, hchecksum, hurgent⟩ := h.tail_parsed_iff.mpr htail
    exact TCPHeader.ext h.sourcePort h.destPort h.sequenceNumber h.acknowledgmentNumber
      h.dataOffset ((h.reserved_iff hs.flags).mpr hs.reserved)
      ((h.flags_iff htail).mpr hs.flags) hwindow hchecksum hurgent

end TcpBytes

/-- A TCP header and the byte behind it, anywhere in a frame: the parser gives back the
fields of the header exactly when these make up for reading from one byte further on. -/
theorem tcpRoundTrip_iff {m : Memory} {a k o : Nat} {p : Parse} {x : TCPHeader} {behind : Byte}
    (h : TextAt m (a + k) (x.bytes ++ [behind])) :
    tcpHeaderAt (parseTCPHeader ((frameAt m a).skip k) o p).record o = x ↔
      SurvivesDrift x behind := by
  rw [tcpHeaderAt_parseTCPHeader]
  exact (tcpBytes_of_textAt h).parsed_eq_iff

/-- The first segment of a connection to port 80: five words, `SYN`, a window of 64240. -/
def synHeader : TCPHeader where
  sourcePort := 49152
  destPort := 80
  sequenceNumber := 1
  acknowledgmentNumber := 0
  dataOffset := 5
  reserved := 0
  flags := 2
  windowSize := 64240
  checksum := 0
  urgentPointer := 0

/-- A frame with a header 34 bytes on, and one byte behind it. -/
def tcpFrame (x : TCPHeader) (behind : Byte) : Memory :=
  memoryOf (List.replicate 34 0 ++ (x.bytes ++ [behind]))

theorem textAt_tcpFrame (x : TCPHeader) (behind : Byte) :
    TextAt (tcpFrame x behind) (0 + 34) (x.bytes ++ [behind]) := by
  have hframe := (TextAt.append_iff.mp
    (textAt_memoryOf (List.replicate 34 0 ++ (x.bytes ++ [behind])))).2
  rwa [List.length_replicate] at hframe

/-- The same segment with the fields that the drift makes of `G` behind the header. -/
def driftHeader : TCPHeader :=
  { synHeader with
    reserved := 7, flags := 0x147, windowSize := 0x4747, checksum := 0x4747
    urgentPointer := 0x4747 }

/-- With `G` behind it, the one is not read as it was sent, and the other is. -/
theorem tcpRoundTrip_iff_syn :
    tcpHeaderAt (parseTCPHeader ((frameAt (tcpFrame synHeader 0x47) 0).skip 34) 36
        ⟨fun _ => 0, []⟩).record 36 ≠ synHeader ∧
      tcpHeaderAt (parseTCPHeader ((frameAt (tcpFrame driftHeader 0x47) 0).skip 34) 36
        ⟨fun _ => 0, []⟩).record 36 = driftHeader := by
  constructor
  · intro hsame
    have hsurvives := (tcpRoundTrip_iff (textAt_tcpFrame synHeader 0x47)).mp hsame
    exact absurd hsurvives.flags (by decide)
  · refine (tcpRoundTrip_iff (textAt_tcpFrame driftHeader 0x47)).mpr ?_
    exact ⟨by decide, by decide, by decide, by decide, by decide⟩

/-- Its flags are read as the upper byte of the window. -/
theorem not_tcpRoundTrip_syn : ¬ ∀ (m : Memory) (a k o : Nat) (p : Parse) (x : TCPHeader),
    TextAt m (a + k) x.bytes →
      tcpHeaderAt (parseTCPHeader ((frameAt m a).skip k) o p).record o = x := by
  intro h
  have hsyn := h _ 0 0 0 ⟨fun _ => 0, []⟩ synHeader (textAt_memoryOf _)
  rw [tcpHeaderAt_parseTCPHeader] at hsyn
  have hflags := congrArg TCPHeader.flags hsyn
  revert hflags
  decide

end DonutOS.Kernel
