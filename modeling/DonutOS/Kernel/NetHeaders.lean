import DonutOS.Foundation.Wire
import DonutOS.Kernel.PacketParse

set_option autoImplicit false

/-!
# Kernel: the protocol headers (`libc/include/net.h`)

The structs of `net.h` as the values of their fields, how a packet carries each of
them, and what the parsers of `rtl8139.c` make of the bytes of one.
-/

namespace DonutOS.Kernel

open DonutOS.Foundation

/-- `n` bytes at `a`, in their order in memory. -/
def bytesAt (m : Memory) (a n : Nat) : Fin n → Byte := fun i => m (a + i)

/-- The number of `w` bits in the `n` bytes of a packet at `a`. -/
def networkField (w : Nat) (m : Memory) (a n : Nat) : BitVec w :=
  BitVec.ofNat w (networkNumber m a n)

theorem networkField_of_textAt {m : Memory} {a n w : Nat} {x : BitVec w}
    (h : TextAt m a (networkBytes n x.toNat)) (hw : w = 8 * n) : networkField w m a n = x := by
  unfold networkField
  rw [networkNumber_toNat h hw, BitVec.ofNat_toNat, BitVec.setWidth_eq]

theorem bytesAt_of_textAt {m : Memory} {a n : Nat} {x : Fin n → Byte}
    (h : TextAt m a (List.ofFn x)) : bytesAt m a n = x := funext (TextAt.ofFn_iff.mp h)

/-! ## The structs -/

/-- `struct TCPHeader`. -/
@[ext] structure TCPHeader where
  sourcePort : BitVec 16
  destPort : BitVec 16
  sequenceNumber : BitVec 32
  acknowledgmentNumber : BitVec 32
  dataOffset : BitVec 4
  reserved : BitVec 3
  flags : BitVec 9
  windowSize : BitVec 16
  checksum : BitVec 16
  urgentPointer : BitVec 16
  deriving DecidableEq

/-- `struct UDPHeader`. -/
@[ext] structure UDPHeader where
  sourcePort : BitVec 16
  destPort : BitVec 16
  length : BitVec 16
  checksum : BitVec 16
  deriving DecidableEq

/-- `struct ICMPHeader`. -/
@[ext] structure ICMPHeader where
  type : Byte
  code : Byte
  checksum : BitVec 16
  restOfHeader : BitVec 32
  deriving DecidableEq

/-- `struct ARPHeader`; a `uint32_t` that holds an address is its four bytes. -/
@[ext] structure ARPHeader where
  hardwareType : BitVec 16
  protocolType : BitVec 16
  hardwareAddrLen : Byte
  protocolAddrLen : Byte
  opcode : BitVec 16
  senderMAC : Fin 6 → Byte
  senderIP : Fin 4 → Byte
  targetMAC : Fin 6 → Byte
  targetIP : Fin 4 → Byte

/-- `struct IPv4Header` before its union; a `uint32_t` that holds an address is its
four bytes. -/
@[ext] structure IPv4Header where
  version : BitVec 4
  headerLength : BitVec 4
  typeOfService : Byte
  totalLength : BitVec 16
  identification : BitVec 16
  flagsFragmentOffset : BitVec 16
  ttl : Byte
  protocol : Byte
  headerChecksum : BitVec 16
  sourceIP : Fin 4 → Byte
  destIP : Fin 4 → Byte

/-- `struct IPV6HopByHopHeader` before its union. -/
@[ext] structure IPV6HopByHopHeader where
  nextHeader : Byte
  headerExtLength : Byte
  options : Fin 6 → Byte
  padding : Fin 2 → Byte

/-- `struct IPv6Header` before its union. -/
@[ext] structure IPv6Header where
  versionClassFlow : BitVec 32
  payloadLength : BitVec 16
  nextHeader : Byte
  hopLimit : Byte
  sourceIP : Fin 16 → Byte
  destIP : Fin 16 → Byte

/-- `struct EthernetHeader` before its union. -/
@[ext] structure EthernetFields where
  destMAC : Fin 6 → Byte
  sourceMAC : Fin 6 → Byte
  etherType : BitVec 16

/-! ## A struct in a record -/

section Records

variable (e : Memory) (o : Nat)

def tcpHeaderAt : TCPHeader where
  sourcePort := .ofNat 16 (readHalf e o)
  destPort := .ofNat 16 (readHalf e (o + 2))
  sequenceNumber := .ofNat 32 (readWord e (o + 4))
  acknowledgmentNumber := .ofNat 32 (readWord e (o + 8))
  dataOffset := .ofNat 4 (readBits e (o + 12) 0 4)
  reserved := .ofNat 3 (readBits e (o + 12) 4 3)
  flags := .ofNat 9 (readBits e (o + 12) 7 9)
  windowSize := .ofNat 16 (readHalf e (o + 14))
  checksum := .ofNat 16 (readHalf e (o + 16))
  urgentPointer := .ofNat 16 (readHalf e (o + 18))

def udpHeaderAt : UDPHeader where
  sourcePort := .ofNat 16 (readHalf e o)
  destPort := .ofNat 16 (readHalf e (o + 2))
  length := .ofNat 16 (readHalf e (o + 4))
  checksum := .ofNat 16 (readHalf e (o + 6))

def icmpHeaderAt : ICMPHeader where
  type := e o
  code := e (o + 1)
  checksum := .ofNat 16 (readHalf e (o + 2))
  restOfHeader := .ofNat 32 (readWord e (o + 4))

def arpHeaderAt : ARPHeader where
  hardwareType := .ofNat 16 (readHalf e o)
  protocolType := .ofNat 16 (readHalf e (o + 2))
  hardwareAddrLen := e (o + 4)
  protocolAddrLen := e (o + 5)
  opcode := .ofNat 16 (readHalf e (o + 6))
  senderMAC := bytesAt e (o + 8) 6
  senderIP := bytesAt e (o + 16) 4
  targetMAC := bytesAt e (o + 20) 6
  targetIP := bytesAt e (o + 28) 4

def ipv4HeaderAt : IPv4Header where
  version := .ofNat 4 (readBits e o 0 4)
  headerLength := .ofNat 4 (readBits e o 4 4)
  typeOfService := e (o + 1)
  totalLength := .ofNat 16 (readHalf e (o + 2))
  identification := .ofNat 16 (readHalf e (o + 4))
  flagsFragmentOffset := .ofNat 16 (readHalf e (o + 6))
  ttl := e (o + 8)
  protocol := e (o + 9)
  headerChecksum := .ofNat 16 (readHalf e (o + 10))
  sourceIP := bytesAt e (o + 12) 4
  destIP := bytesAt e (o + 16) 4

def hopByHopHeaderAt : IPV6HopByHopHeader where
  nextHeader := e o
  headerExtLength := e (o + 1)
  options := bytesAt e (o + 2) 6
  padding := bytesAt e (o + 8) 2

def ipv6HeaderAt : IPv6Header where
  versionClassFlow := .ofNat 32 (readWord e o)
  payloadLength := .ofNat 16 (readHalf e (o + 4))
  nextHeader := e (o + 6)
  hopLimit := e (o + 7)
  sourceIP := bytesAt e (o + 8) 16
  destIP := bytesAt e (o + 24) 16

def ethernetFieldsAt : EthernetFields where
  destMAC := bytesAt e o 6
  sourceMAC := bytesAt e (o + 6) 6
  etherType := .ofNat 16 (readHalf e (o + 12))

end Records

/-! ## A header in a packet -/

/-- The 20 bytes of a TCP header without options. -/
def TCPHeader.bytes (x : TCPHeader) : List Byte :=
  networkBytes 2 x.sourcePort.toNat ++ (networkBytes 2 x.destPort.toNat ++
    (networkBytes 4 x.sequenceNumber.toNat ++ (networkBytes 4 x.acknowledgmentNumber.toNat ++
    (networkBytes 2 (x.dataOffset ++ x.reserved ++ x.flags).toNat ++
    (networkBytes 2 x.windowSize.toNat ++ (networkBytes 2 x.checksum.toNat ++
    networkBytes 2 x.urgentPointer.toNat))))))

def UDPHeader.bytes (x : UDPHeader) : List Byte :=
  networkBytes 2 x.sourcePort.toNat ++ (networkBytes 2 x.destPort.toNat ++
    (networkBytes 2 x.length.toNat ++ networkBytes 2 x.checksum.toNat))

def ICMPHeader.bytes (x : ICMPHeader) : List Byte :=
  [x.type] ++ ([x.code] ++ (networkBytes 2 x.checksum.toNat ++
    networkBytes 4 x.restOfHeader.toNat))

/-- The 28 bytes of an ARP packet for Ethernet and IPv4. -/
def ARPHeader.bytes (x : ARPHeader) : List Byte :=
  networkBytes 2 x.hardwareType.toNat ++ (networkBytes 2 x.protocolType.toNat ++
    ([x.hardwareAddrLen] ++ ([x.protocolAddrLen] ++ (networkBytes 2 x.opcode.toNat ++
    (List.ofFn x.senderMAC ++ (List.ofFn x.senderIP ++ (List.ofFn x.targetMAC ++
    List.ofFn x.targetIP)))))))

/-- The 20 bytes of an IPv4 header without options. -/
def IPv4Header.bytes (x : IPv4Header) : List Byte :=
  [x.version ++ x.headerLength] ++ ([x.typeOfService] ++
    (networkBytes 2 x.totalLength.toNat ++ (networkBytes 2 x.identification.toNat ++
    (networkBytes 2 x.flagsFragmentOffset.toNat ++ ([x.ttl] ++ ([x.protocol] ++
    (networkBytes 2 x.headerChecksum.toNat ++ (List.ofFn x.sourceIP ++
    List.ofFn x.destIP))))))))

def IPv6Header.bytes (x : IPv6Header) : List Byte :=
  networkBytes 4 x.versionClassFlow.toNat ++ (networkBytes 2 x.payloadLength.toNat ++
    ([x.nextHeader] ++ ([x.hopLimit] ++ (List.ofFn x.sourceIP ++ List.ofFn x.destIP))))

def EthernetFields.bytes (x : EthernetFields) : List Byte :=
  List.ofFn x.destMAC ++ (List.ofFn x.sourceMAC ++ networkBytes 2 x.etherType.toNat)

theorem length_ipv4Header (x : IPv4Header) : x.bytes.length = 20 := by
  simp only [IPv4Header.bytes, List.length_append, length_networkBytes, List.length_singleton,
    List.length_ofFn]

theorem length_ipv6Header (x : IPv6Header) : x.bytes.length = 40 := by
  simp only [IPv6Header.bytes, List.length_append, length_networkBytes, List.length_singleton,
    List.length_ofFn]

theorem length_ethernetFields (x : EthernetFields) : x.bytes.length = 14 := by
  simp only [EthernetFields.bytes, List.length_append, length_networkBytes, List.length_ofFn]

end DonutOS.Kernel
