import DonutOS.Kernel.FrameParse

set_option autoImplicit false

/-!
# Kernel: what the screen shows of a packet (`rtl_printFrame`)

`rtl_printFrame` and the functions it calls, as the list of their `printf` calls, and the
members of the nested unions that they read.  The printer dispatches on the same fields as
`process_received_packet`, in a tree of its own.
-/

namespace DonutOS.Kernel

open DonutOS.Foundation

/-- What one `printf` shows. -/
inductive Shown
  | text (s : String)
  /-- `label`, then the number as `%d` and a new line -/
  | line (label : String) (value : Nat)
  /-- `label`, then the string as `%s` and a new line -/
  | named (label value : String)
  /-- `%d` -/
  | decimal (value : Nat)
  /-- `%02x` -/
  | hex (value : Nat)
  deriving DecidableEq

/-! ## The printers -/

/-- `printIP` of 16 bytes. -/
def printIPv6Address (ip : Fin 16 → Byte) : List Shown :=
  ((List.finRange 16).flatMap fun i =>
    .hex (ip i).toNat :: if i.val % 2 = 1 ∧ i.val < 15 then [.text ":"] else []) ++ [.text "\n"]

/-- `printIP` of 4 bytes. -/
def printIPv4Address (ip : Fin 4 → Byte) : List Shown :=
  ((List.finRange 4).flatMap fun i =>
    .decimal (ip i).toNat :: if i.val < 3 then [.text "."] else []) ++ [.text "\n"]

/-- `printTCP`. -/
def printTCP (tcpHeader : TCPHeader) : List Shown :=
  [.line "SOURCE PORT: " tcpHeader.sourcePort.toNat,
    .line "DEST PORT: " tcpHeader.destPort.toNat,
    .line "SEQ: " tcpHeader.sequenceNumber.toNat,
    .line "ACK: " tcpHeader.acknowledgmentNumber.toNat,
    .line "DATA OFFSET: " tcpHeader.dataOffset.toNat,
    .line "FLAGS: " tcpHeader.flags.toNat,
    .line "WINDOW SIZE: " tcpHeader.windowSize.toNat,
    .line "CHECKSUM: " tcpHeader.checksum.toNat,
    .line "URGENT POINTER: " tcpHeader.urgentPointer.toNat]

/-- `printUDP`. -/
def printUDP (udpHeader : UDPHeader) : List Shown :=
  [.line "SOURCE PORT: " udpHeader.sourcePort.toNat,
    .line "DEST PORT: " udpHeader.destPort.toNat,
    .line "LENGTH: " udpHeader.length.toNat,
    .line "CHECKSUM: " udpHeader.checksum.toNat]

/-- `printICMP`. -/
def printICMP (icmpHeader : ICMPHeader) : List Shown :=
  [.line "TYPE: " icmpHeader.type.toNat,
    .line "CODE: " icmpHeader.code.toNat,
    .line "CHECKSUM: " icmpHeader.checksum.toNat]

/-- `printHopOptions`. -/
def printHopOptions (hopByHopHeader : IPV6HopByHopHeader) : List Shown :=
  [.line "NEXT HEADER: " hopByHopHeader.nextHeader.toNat,
      .line "HEADER EXT LENGTH: " hopByHopHeader.headerExtLength.toNat, .text "OPTIONS: "] ++
    ((List.finRange 6).map fun i => .hex (hopByHopHeader.options i).toNat) ++
    [.text "\n", .text "PADDING: "] ++
    ((List.finRange 2).map fun i => .hex (hopByHopHeader.padding i).toNat) ++ [.text "\n"]

/-- `printIPv6`. -/
def printIPv6 (ipv6Header : IPv6Header) : List Shown :=
  [.line "VERSION: " (ipv6Header.versionClassFlow >>> 28).toNat,
      .line "CLASS: " (ipv6Header.versionClassFlow >>> 20 &&& 0xff).toNat,
      .line "FLOW LABEL: " (ipv6Header.versionClassFlow &&& 0xfffff).toNat,
      .line "PAYLOAD LENGTH: " ipv6Header.payloadLength.toNat,
      .line "NEXT HEADER: " ipv6Header.nextHeader.toNat,
      .line "HOP LIMIT: " ipv6Header.hopLimit.toNat, .text "SOURCE IP: "] ++
    printIPv6Address ipv6Header.sourceIP ++ [.text "DEST IP: "] ++
    printIPv6Address ipv6Header.destIP

/-- `printIPv4`. -/
def printIPv4 (ipv4Header : IPv4Header) : List Shown :=
  [.line "VERSION: " ipv4Header.version.toNat,
      .line "HEADER LENGTH: " ipv4Header.headerLength.toNat,
      .line "TYPE OF SERVICE: " ipv4Header.typeOfService.toNat,
      .line "TOTAL LENGTH: " ipv4Header.totalLength.toNat,
      .line "IDENTIFICATION: " ipv4Header.identification.toNat,
      .line "FLAGS FRAGMENT OFFSET: " ipv4Header.flagsFragmentOffset.toNat,
      .line "TTL: " ipv4Header.ttl.toNat, .line "PROTOCOL: " ipv4Header.protocol.toNat,
      .line "HEADER CHECKSUM: " ipv4Header.headerChecksum.toNat, .text "SOURCE IP: "] ++
    printIPv4Address ipv4Header.sourceIP ++ [.text "DEST IP: "] ++
    printIPv4Address ipv4Header.destIP

/-- A MAC address, as `rtl_printFrame` shows one. -/
def printMAC (mac : Fin 6 → Byte) : List Shown :=
  (List.finRange 6).flatMap fun i =>
    .hex (mac i).toNat :: if i.val < 5 then [.text ":"] else []

/-- The name of an ARP opcode. -/
def opcodeName (opcode : BitVec 16) : String := if opcode = 1 then "REQUEST" else "REPLY"

/-- The ARP part of `rtl_printFrame`: an address is shown by shifting the integer, whose
bytes in memory are least significant first. -/
def printARP (arpHeader : ARPHeader) : List Shown :=
  let printIP (ip : Fin 4 → Byte) : List Shown := (List.finRange 4).flatMap fun i =>
    .decimal (readWord (fun j => if h : j < 4 then ip ⟨j, h⟩ else 0) 0 >>> (8 * i.val) &&& 0xff) ::
      if i.val < 3 then [.text "."] else []
  [.text "SENDER MAC: "] ++ printMAC arpHeader.senderMAC ++
    [.text "\nSENDER IP: "] ++ printIP arpHeader.senderIP ++
    [.text "\nTARGET MAC: "] ++ printMAC arpHeader.targetMAC ++
    [.text "\nTARGET IP: "] ++ printIP arpHeader.targetIP ++ [.text "\n"] ++
    [.named "PROTOCOL: " (opcodeName arpHeader.opcode)]

/-! ## `rtl_printFrame` -/

/-- The members of the unions of `struct EthernetHeader`: of `protocol`, of
`transpProtocol` below `ipv4Header` and below `ipv6Header`, and of the one below
`hopByHopHeader`. -/
inductive Member
  | arpHeader
  | ipv4Header
  | ipv6Header
  | ipv4Tcp
  | ipv4Udp
  | ipv4Icmp
  | ipv6Tcp
  | ipv6Udp
  | ipv6Icmp
  | ipv6HopByHop
  | hopTcp
  | hopUdp
  | hopIcmp
  deriving DecidableEq

/-- A `printf`, and the member of a union that it reads. -/
structure Printed where
  member : Option Member
  shown : Shown

/-- No member is read. -/
def plain (shown : List Shown) : List Printed := shown.map fun s => ⟨none, s⟩

def Member.prints (member : Member) (shown : List Shown) : List Printed :=
  shown.map fun s => ⟨some member, s⟩

/-- The IPv4 part of `rtl_printFrame`. -/
def printFrameIPv4 (e : Memory) : List Printed :=
  let ipv4Header := ipv4HeaderAt e protocolOffset
  plain [.text "IPv4\n"] ++ Member.ipv4Header.prints (printIPv4 ipv4Header) ++
    plain [.text "PROTOCOL: "] ++
    if ipv4Header.protocol = 0x06 then
      plain [.text "TCP\n"] ++
        Member.ipv4Tcp.prints (printTCP (tcpHeaderAt e (protocolOffset + 20)))
    else if ipv4Header.protocol = 0x11 then
      plain [.text "UDP\n"] ++
        Member.ipv4Udp.prints (printUDP (udpHeaderAt e (protocolOffset + 20)))
    else if ipv4Header.protocol = 0x01 then
      plain [.text "ICMP\n"] ++
        Member.ipv4Icmp.prints (printICMP (icmpHeaderAt e (protocolOffset + 20)))
    else plain [.text "Unsuppored protocol\n"]

/-- The switch on the next header of the hop-by-hop header.  Its case for TCP has no
`break`. -/
def printFrameHop (e : Memory) : List Printed :=
  let hopByHopHeader := hopByHopHeaderAt e (protocolOffset + 40)
  let transpProtocol := protocolOffset + 40 + 12
  let udp := plain [.text "UDP\n"] ++
    Member.hopUdp.prints (printUDP (udpHeaderAt e transpProtocol))
  if hopByHopHeader.nextHeader = 0x06 then
    plain [.text "TCP\n"] ++ Member.hopTcp.prints (printTCP (tcpHeaderAt e transpProtocol)) ++ udp
  else if hopByHopHeader.nextHeader = 0x11 then udp
  else if hopByHopHeader.nextHeader = 0x3a then
    plain [.text "ICMPv6\n"] ++
      Member.hopIcmp.prints (printICMP (icmpHeaderAt e transpProtocol))
  else []

/-- The IPv6 part of `rtl_printFrame`. -/
def printFrameIPv6 (e : Memory) : List Printed :=
  let ipv6Header := ipv6HeaderAt e protocolOffset
  let transpProtocol := protocolOffset + 40
  plain [.text "IPv6\n"] ++ Member.ipv6Header.prints (printIPv6 ipv6Header) ++
    plain [.text "PROTOCOL: "] ++
    if ipv6Header.nextHeader = 0x06 then
      plain [.text "TCP\n"] ++ Member.ipv6Tcp.prints
        [.line "SOURCE PORT: " (tcpHeaderAt e transpProtocol).sourcePort.toNat]
    else if ipv6Header.nextHeader = 0x11 then
      plain [.text "UDP\n"] ++ Member.ipv6Udp.prints
        [.line "SOURCE PORT: " (udpHeaderAt e transpProtocol).sourcePort.toNat]
    else if ipv6Header.nextHeader = 0 then
      plain [.text "HOPOPT\n"] ++
        Member.ipv6HopByHop.prints (printHopOptions (hopByHopHeaderAt e transpProtocol)) ++
        plain [.text "NEXT HEADER: "] ++ printFrameHop e
    else if ipv6Header.nextHeader = 0x3a then
      plain [.text "ICMPv6\n"] ++
        Member.ipv6Icmp.prints (printICMP (icmpHeaderAt e transpProtocol))
    else plain [.text "Unsuppored protocol\n"]

/-- `rtl_printFrame`, of the struct `ethHeaders[i]`. -/
def rtlPrintFrame (e : Memory) : List Printed :=
  let ethHeader := ethernetFieldsAt e 0
  plain ([.text "ETHERNET HEADER\n", .text "SOURCE MAC: "] ++ printMAC ethHeader.sourceMAC ++
      [.text "\nDESTINATION MAC: "] ++ printMAC ethHeader.destMAC ++
      [.text "\n\n", .text "NETWORK PROTOCOL: "]) ++
    if ethHeader.etherType = 0x0800 then printFrameIPv4 e
    else if ethHeader.etherType = 0x86dd then printFrameIPv6 e
    else if ethHeader.etherType = 0x0806 then
      plain [.text "ARP\n"] ++
        Member.arpHeader.prints (printARP (arpHeaderAt e protocolOffset))
    else plain [.text "Unknown protocol\n"]

/-- The members that are read. -/
def membersRead (printed : List Printed) : List Member := printed.filterMap Printed.member

section MembersRead

variable {xs : List Shown} {ys zs : List Printed} {members : List Member}

@[simp] theorem membersRead_append : membersRead (ys ++ zs) = membersRead ys ++ membersRead zs :=
  List.filterMap_append

@[simp] theorem membersRead_plain : membersRead (plain xs) = [] := by
  induction xs with
  | nil => rfl
  | cons x xs ih => exact ih

theorem membersRead_prints_subset_iff {member : Member} (hxs : xs ≠ []) :
    membersRead (member.prints xs) ⊆ members ↔ member ∈ members := by
  have hall : ∀ ys : List Shown,
      membersRead (member.prints ys) = List.replicate ys.length member := by
    intro ys
    induction ys with
    | nil => rfl
    | cons y ys ih => exact congrArg (member :: ·) ih
  rw [hall]
  obtain ⟨x, xs, rfl⟩ := List.exists_cons_of_ne_nil hxs
  constructor
  · exact fun h => h List.mem_cons_self
  · intro h y hy
    rwa [List.eq_of_mem_replicate hy]

end MembersRead

end DonutOS.Kernel
