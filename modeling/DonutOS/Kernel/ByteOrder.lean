import DonutOS.Kernel.PacketPrint

set_option autoImplicit false

/-!
# Kernel: the byte order of ARP and IPv6 headers (`parseARPHeader`, `parseIPv6Header`)

Both parsers copy integers as they are in the packet, and the machine reads them with the
least significant byte first.  Such a field has its value only when its bytes are the same
in either order.
-/

namespace DonutOS.Kernel

open DonutOS.Foundation

/-- An IPv6 header, by the fields that the packet has. -/
structure IPv6Packet where
  version : BitVec 4
  trafficClass : BitVec 8
  flowLabel : BitVec 20
  payloadLength : BitVec 16
  nextHeader : Byte
  hopLimit : Byte
  sourceIP : Fin 16 → Byte
  destIP : Fin 16 → Byte

namespace IPv6Packet

def versionClassFlow (x : IPv6Packet) : BitVec 32 := x.version ++ x.trafficClass ++ x.flowLabel

def header (x : IPv6Packet) : IPv6Header where
  versionClassFlow := x.versionClassFlow
  payloadLength := x.payloadLength
  nextHeader := x.nextHeader
  hopLimit := x.hopLimit
  sourceIP := x.sourceIP
  destIP := x.destIP

end IPv6Packet

inductive NetworkPacket
  | arp (x : ARPHeader)
  | ipv6 (x : IPv6Packet)

namespace NetworkPacket

def etherType : NetworkPacket → Nat
  | arp _ => 0x0806
  | ipv6 _ => 0x86dd

def bytes : NetworkPacket → List Byte
  | arp x => x.bytes
  | ipv6 x => x.header.bytes

/-- The fields are parsed and shown with the values that the packet has. -/
def ReadRight (e : Memory) : NetworkPacket → Prop
  | arp x =>
      (arpHeaderAt e 16).hardwareType = x.hardwareType ∧
        (arpHeaderAt e 16).protocolType = x.protocolType ∧
        (arpHeaderAt e 16).opcode = x.opcode ∧
        (printARP (arpHeaderAt e 16)).getLast? =
          some (.named "PROTOCOL: " (if x.opcode = 1 then "REQUEST" else "REPLY"))
  | ipv6 x =>
      (printIPv6 (ipv6HeaderAt e 16)).take 4 =
        [.line "VERSION: " x.version.toNat, .line "CLASS: " x.trafficClass.toNat,
          .line "FLOW LABEL: " x.flowLabel.toNat, .line "PAYLOAD LENGTH: " x.payloadLength.toNat]

/-- The integers that are copied read the same from either end. -/
def SameEitherWay : NetworkPacket → Prop
  | arp x => SameHalf x.hardwareType ∧ SameHalf x.protocolType ∧ SameHalf x.opcode
  | ipv6 x => SameWord x.versionClassFlow ∧ SameHalf x.payloadLength

end NetworkPacket

/-! ## ARP -/

theorem getLast?_printARP (x : ARPHeader) :
    (printARP x).getLast? = some (.named "PROTOCOL: " (opcodeName x.opcode)) := by
  unfold printARP
  exact List.getLast?_concat

section Fields

variable {m : Memory} {b : Nat}

theorem arpParsed_right_iff {x : ARPHeader} (h : TextAt m b x.bytes) :
    ((arpParsed m b).hardwareType = x.hardwareType ∧
        (arpParsed m b).protocolType = x.protocolType ∧ (arpParsed m b).opcode = x.opcode) ↔
      SameHalf x.hardwareType ∧ SameHalf x.protocolType ∧ SameHalf x.opcode := by
  simp only [ARPHeader.bytes, TextAt.append_iff, length_networkBytes, List.length_singleton,
    Nat.add_assoc, Nat.reduceAdd] at h
  obtain ⟨hhardware, hprotocol, -, -, hopcode, -⟩ := h
  exact and_congr (ofNat_readHalf_eq_iff hhardware)
    (and_congr (ofNat_readHalf_eq_iff hprotocol) (ofNat_readHalf_eq_iff hopcode))

/-! ## IPv6 -/

/-- What is shown of the first word is right when the word is. -/
theorem word_shown_iff {x : IPv6Packet} {w : BitVec 32} :
    ((w >>> 28).toNat = x.version.toNat ∧ (w >>> 20 &&& 0xff).toNat = x.trafficClass.toNat ∧
        (w &&& 0xfffff).toNat = x.flowLabel.toNat) ↔ w = x.versionClassFlow := by
  have hvalue : x.versionClassFlow.toNat =
      (x.version.toNat * 2 ^ 8 + x.trafficClass.toNat) * 2 ^ 20 + x.flowLabel.toNat := by
    unfold IPv6Packet.versionClassFlow
    exact (toNat_append_eq _ _).trans
      (congrArg (· * 2 ^ 20 + x.flowLabel.toNat) (toNat_append_eq _ _))
  have hversion := x.version.isLt
  have hclass := x.trafficClass.isLt
  have hflow := x.flowLabel.isLt
  have hw := w.isLt
  have h28 : (w >>> 28).toNat = w.toNat / 2 ^ 28 := by
    rw [BitVec.toNat_ushiftRight, Nat.shiftRight_eq_div_pow]
  have h20 : (w >>> 20 &&& 0xff).toNat = w.toNat / 2 ^ 20 % 2 ^ 8 := by
    rw [BitVec.toNat_and, BitVec.toNat_ushiftRight, Nat.shiftRight_eq_div_pow]
    exact Nat.and_two_pow_sub_one_eq_mod _ 8
  have h0 : (w &&& 0xfffff).toNat = w.toNat % 2 ^ 20 := by
    rw [BitVec.toNat_and]
    exact Nat.and_two_pow_sub_one_eq_mod _ 20
  rw [← BitVec.toNat_inj, hvalue, h28, h20, h0]
  constructor
  · rintro ⟨hv, hc, hf⟩
    omega
  · intro h
    omega

theorem take_printIPv6_eq_iff {x : IPv6Packet} {y : IPv6Header} :
    (printIPv6 y).take 4 =
        [.line "VERSION: " x.version.toNat, .line "CLASS: " x.trafficClass.toNat,
          .line "FLOW LABEL: " x.flowLabel.toNat,
          .line "PAYLOAD LENGTH: " x.payloadLength.toNat] ↔
      y.versionClassFlow = x.versionClassFlow ∧ y.payloadLength = x.payloadLength := by
  rw [← word_shown_iff, ← BitVec.toNat_inj, and_assoc, and_assoc]
  unfold printIPv6
  simp only [List.cons_append, List.take_succ_cons, List.take_zero, List.cons.injEq,
    Shown.line.injEq, true_and, and_true]

theorem ipv6Parsed_right_iff {x : IPv6Packet} (h : TextAt m b x.header.bytes) :
    ((ipv6Parsed m b).versionClassFlow = x.versionClassFlow ∧
        (ipv6Parsed m b).payloadLength = x.payloadLength) ↔
      SameWord x.versionClassFlow ∧ SameHalf x.payloadLength := by
  simp only [IPv6Header.bytes, TextAt.append_iff, length_networkBytes, Nat.add_assoc,
    Nat.reduceAdd] at h
  obtain ⟨hword, hpayload, -⟩ := h
  exact and_congr (ofNat_readWord_eq_iff hword) (ofNat_readHalf_eq_iff hpayload)

end Fields

/-- A frame with an ARP or an IPv6 packet: the fields are read with their values exactly
when the bytes of each of them are the same in either order. -/
theorem readRight_iff {m : Memory} {a : Nat} {p : Parse} {x : NetworkPacket}
    (htype : etherType m a = x.etherType) (h : TextAt m (a + 14) x.bytes) :
    x.ReadRight (processReceivedPacket (frameAt m a) p).record ↔ x.SameEitherWay := by
  cases x with
  | arp x =>
      unfold NetworkPacket.ReadRight NetworkPacket.SameEitherWay
      simp only [arp_processed htype, getLast?_printARP]
      rw [← arpParsed_right_iff h]
      constructor
      · exact fun hright => ⟨hright.1, hright.2.1, hright.2.2.1⟩
      · rintro ⟨hhardware, hprotocol, hopcode⟩
        refine ⟨hhardware, hprotocol, hopcode, ?_⟩
        rw [hopcode]
        rfl
  | ipv6 x =>
      unfold NetworkPacket.ReadRight NetworkPacket.SameEitherWay
      simp only [ipv6_processed htype, take_printIPv6_eq_iff]
      exact ipv6Parsed_right_iff h

/-- 10.0.2.15 asks for the MAC address of 10.0.2.2. -/
def arpRequest : ARPHeader where
  hardwareType := 1
  protocolType := 0x0800
  hardwareAddrLen := 6
  protocolAddrLen := 4
  opcode := 1
  senderMAC := fun _ => 0x52
  senderIP := fun i => [10, 0, 2, 15].getD i 0
  targetMAC := fun _ => 0
  targetIP := fun i => [10, 0, 2, 2].getD i 0

/-- Its frame. -/
def arpFrame : Memory :=
  memoryOf (EthernetFields.bytes ⟨fun _ => 0xff, fun _ => 0x52, 0x0806⟩ ++ arpRequest.bytes)

theorem textAt_arpFrame : TextAt arpFrame (0 + 14) arpRequest.bytes := by
  have hframe := (TextAt.append_iff.mp (textAt_memoryOf
    (EthernetFields.bytes ⟨fun _ => 0xff, fun _ => 0x52, 0x0806⟩ ++ arpRequest.bytes))).2
  rwa [length_ethernetFields] at hframe

theorem readRight_iff_arpRequest :
    (NetworkPacket.arp arpRequest).ReadRight
        (processReceivedPacket (frameAt arpFrame 0) (unparsed fun _ => 0)).record ↔
      (NetworkPacket.arp arpRequest).SameEitherWay :=
  readRight_iff (by decide) textAt_arpFrame

/-- The request is parsed with the opcode 256 and shown as a reply. -/
theorem not_readRight_arpRequest : ¬ ∀ (m : Memory) (a : Nat) (p : Parse) (x : NetworkPacket),
    etherType m a = x.etherType → TextAt m (a + 14) x.bytes →
      x.ReadRight (processReceivedPacket (frameAt m a) p).record := by
  intro h
  have htype : etherType arpFrame 0 = 0x0806 := by decide
  have hright := h arpFrame 0 (unparsed fun _ => 0) (.arp arpRequest) htype textAt_arpFrame
  have hopcode := hright.2.2.1
  rw [arp_processed htype] at hopcode
  revert hopcode
  decide

end DonutOS.Kernel
