import DonutOS.Kernel.PrintedMembers

set_option autoImplicit false

/-!
# Kernel: a row of the list of packets (`__pctprint_command_write_line`)

A row has the addresses of a packet.  It is printed from the parsed header; here it is
compared with the bytes of the frame.
-/

namespace DonutOS.Kernel

open DonutOS.Foundation

/-- The `printf` calls of a case: its name, and the two addresses of `member`. -/
def addressRow (member : Member) (name : String) (source dest : List Shown) : List Printed :=
  plain [.text name, .text "Source IP: "] ++ member.prints source ++
    plain [.text "Dest IP: "] ++ member.prints dest

/-- `__pctprint_command_write_line`, of the struct that `rtl8139_get_ethHeader` finds.  It
has no default case. -/
def pctprintWriteLine (e : Memory) : List Printed :=
  let ethHeader := ethernetFieldsAt e 0
  if ethHeader.etherType = 0x0800 then
    let ipv4Header := ipv4HeaderAt e protocolOffset
    addressRow .ipv4Header "IPv4 " (printIPv4Address ipv4Header.sourceIP)
      (printIPv4Address ipv4Header.destIP)
  else if ethHeader.etherType = 0x0806 then
    let arpHeader := arpHeaderAt e protocolOffset
    addressRow .arpHeader "ARP " (printIPv4Address arpHeader.senderIP)
      (printIPv4Address arpHeader.targetIP)
  else if ethHeader.etherType = 0x86dd then
    let ipv6Header := ipv6HeaderAt e protocolOffset
    addressRow .ipv6Header "IPv6 " (printIPv6Address ipv6Header.sourceIP)
      (printIPv6Address ipv6Header.destIP)
  else []

/-- The row of the frame at `a`, from its bytes. -/
def frameRow (m : Memory) (a : Nat) : List Printed :=
  if etherType m a = 0x0800 then
    addressRow .ipv4Header "IPv4 " (printIPv4Address (bytesAt m (a + 26) 4))
      (printIPv4Address (bytesAt m (a + 30) 4))
  else if etherType m a = 0x0806 then
    addressRow .arpHeader "ARP " (printIPv4Address (bytesAt m (a + 28) 4))
      (printIPv4Address (bytesAt m (a + 38) 4))
  else if etherType m a = 0x86dd then
    addressRow .ipv6Header "IPv6 " (printIPv6Address (bytesAt m (a + 22) 16))
      (printIPv6Address (bytesAt m (a + 38) 16))
  else []

section Rows

variable {m : Memory} {a : Nat} {p : Parse}

/-- The dispatch of a row is on the EtherType of the frame. -/
theorem etherType_processed_iff (t : BitVec 16) :
    (ethernetFieldsAt (processReceivedPacket (frameAt m a) p).record 0).etherType = t ↔
      etherType m a = t.toNat := by
  rw [ethernet_processed, ← etherType_parsed, BitVec.toNat_inj]

theorem membersRead_addressRow_subset {member : Member} {members : List Member}
    (h : member ∈ members) (name : String) {source dest : List Shown} (hsource : source ≠ [])
    (hdest : dest ≠ []) : membersRead (addressRow member name source dest) ⊆ members := by
  have hread : ∀ xs : List Shown, xs ≠ [] → membersRead (member.prints xs) ⊆ members :=
    fun xs hxs => (membersRead_prints_subset_iff hxs).mpr h
  unfold addressRow
  rw [membersRead_append, membersRead_append, membersRead_append, membersRead_plain,
    membersRead_plain, List.nil_append, List.append_nil, List.append_subset]
  exact ⟨hread source hsource, hread dest hdest⟩

theorem printIPv4Address_ne_nil (ip : Fin 4 → Byte) : printIPv4Address ip ≠ [] :=
  List.append_ne_nil_of_right_ne_nil _ (List.cons_ne_nil _ _)

theorem printIPv6Address_ne_nil (ip : Fin 16 → Byte) : printIPv6Address ip ≠ [] :=
  List.append_ne_nil_of_right_ne_nil _ (List.cons_ne_nil _ _)

theorem ipv4Header_mem_filled (htype : etherType m a = 0x0800) :
    Member.ipv4Header ∈ (processReceivedPacketMembers (frameAt m a) p).2 := by
  rw [filled_ipv4 htype]
  split
  · exact List.mem_cons_self
  · split
    · exact List.mem_cons_self
    · exact List.mem_cons_self

theorem ipv6Header_mem_filled (htype : etherType m a = 0x86dd) :
    Member.ipv6Header ∈ (processReceivedPacketMembers (frameAt m a) p).2 := by
  rw [filled_ipv6 htype]
  grind

/-- The row of a parsed packet has the addresses that are in its frame, whatever was on
the stack; all that it reads was parsed. -/
theorem pctprintWriteLine_parsed (m : Memory) (a : Nat) (p : Parse) :
    pctprintWriteLine (processReceivedPacket (frameAt m a) p).record = frameRow m a ∧
      membersRead (frameRow m a) ⊆ (processReceivedPacketMembers (frameAt m a) p).2 := by
  have hfield : ∀ t : BitVec 16, ∀ n, t.toNat = n →
      ((ethernetFieldsAt (processReceivedPacket (frameAt m a) p).record 0).etherType = t ↔
        etherType m a = n) := fun t n hn => hn ▸ etherType_processed_iff t
  unfold pctprintWriteLine frameRow protocolOffset
  dsimp only
  simp only [hfield 0x0800 0x0800 rfl, hfield 0x0806 0x0806 rfl, hfield 0x86dd 0x86dd rfl]
  by_cases hipv4 : etherType m a = 0x0800
  · rw [if_pos hipv4, if_pos hipv4, ipv4_processed hipv4]
    exact ⟨rfl, membersRead_addressRow_subset (ipv4Header_mem_filled hipv4) _
      (printIPv4Address_ne_nil _) (printIPv4Address_ne_nil _)⟩
  · rw [if_neg hipv4, if_neg hipv4]
    by_cases harp : etherType m a = 0x0806
    · rw [if_pos harp, if_pos harp, arp_processed harp]
      refine ⟨rfl, membersRead_addressRow_subset ?_ _
        (printIPv4Address_ne_nil _) (printIPv4Address_ne_nil _)⟩
      rw [filled_arp harp]
      exact List.mem_cons_self
    · rw [if_neg harp, if_neg harp]
      by_cases hipv6 : etherType m a = 0x86dd
      · rw [if_pos hipv6, if_pos hipv6, ipv6_processed hipv6]
        exact ⟨rfl, membersRead_addressRow_subset (ipv6Header_mem_filled hipv6) _
          (printIPv6Address_ne_nil _) (printIPv6Address_ne_nil _)⟩
      · rw [if_neg hipv6, if_neg hipv6]
        exact ⟨rfl, List.nil_subset _⟩

end Rows

end DonutOS.Kernel
