import DonutOS.Foundation.Descriptors
import DonutOS.Libc.MemSpec

set_option autoImplicit false

/-!
# Kernel: interrupt gates (`kernel/src/idt.c`, `isr.c`, `boot/boot.s`)

The tables lie in memory byte for byte, as `lgdt` and `lidt` want them.  Where the
linker puts them, and the 48 wrappers, is a parameter.
-/

namespace DonutOS.Kernel

open DonutOS.Foundation

/-! ## The segments of `boot.s` -/

/-- `gdt_start` up to `gdt_end`. -/
def bootGdt : List Byte :=
  -- `gdt_null`
  [0, 0, 0, 0, 0, 0, 0, 0] ++
  -- `gdt_code`
  (halfBytes 0xffff ++ halfBytes 0 ++ [0, 0b10011010, 0b11001111, 0]) ++
  -- `gdt_data`
  (halfBytes 0xffff ++ halfBytes 0 ++ [0, 0b10010010, 0b11001111, 0])

/-- What `lgdt [gdt_descriptor]` loads. -/
def bootGdtr (gdtStart : Nat) : TableRegister := ⟨bootGdt.length - 1, gdtStart⟩

/-! ## The table of gates -/

/-- `idt_entry_t`. -/
structure IdtEntry where
  baseLo : Nat
  sel : Nat
  zero : Nat
  flags : Nat
  baseHi : Nat

/-- The packed bytes of an entry. -/
def IdtEntry.bytes (e : IdtEntry) : List Byte :=
  halfBytes e.baseLo ++ halfBytes e.sel ++ [BitVec.ofNat 8 e.zero, BitVec.ofNat 8 e.flags] ++
    halfBytes e.baseHi

/-- The addresses of `idt_entries` and `idtp`. -/
structure IdtAddrs where
  entries : Nat
  idtp : Nat

/-- `sizeof idt_entries`. -/
def sizeofIdtEntries : Nat := 8 * 256

/-- `idt_install`. -/
def idtInstall (addrs : IdtAddrs) (st : Store) : Store :=
  let st := st.putWord (addrs.idtp + 2) addrs.entries
  let st := st.putBytes addrs.idtp (halfBytes (sizeofIdtEntries - 1))
  Libc.memset addrs.entries 0 sizeofIdtEntries st

/-- `idt_init`: what `load_idt` loads, and the memory. -/
def idtInit (addrs : IdtAddrs) (st : Store) : TableRegister × Store :=
  let st := idtInstall addrs st
  (readTableRegister st.bytes addrs.idtp, st)

/-- `idt_set_gate`. -/
def idtSetGate (addrs : IdtAddrs) (index base sel flags : Nat) (st : Store) : Store :=
  st.putBytes (addrs.entries + 8 * index)
    (IdtEntry.bytes
      { baseLo := base &&& 0xffff, sel := sel, zero := 0, flags := flags
        baseHi := base >>> 16 &&& 0xffff })

/-- `NUM_ISRS`. -/
def numIsrs : Nat := 48

/-- The first `k` rounds of the loop of `isr_init` that sets the gates. -/
def isrGates (addrs : IdtAddrs) (isrs : Nat → Nat) (k : Nat) (st : Store) : Store :=
  forLoop (fun i st => idtSetGate addrs i (isrs i) 0x08 0x8e st) 0 k st

/-! ## The bytes of the table -/

/-- The tables are where they do not touch each other or the segments of `boot.s`. -/
structure IdtAddrs.Apart (addrs : IdtAddrs) (gdtStart : Nat) : Prop where
  fits : addrs.entries + sizeofIdtEntries ≤ 2 ^ 32
  idtp : addrs.idtp + 6 ≤ addrs.entries ∨ addrs.entries + sizeofIdtEntries ≤ addrs.idtp
  gdt : gdtStart + 24 ≤ addrs.entries ∨ addrs.entries + sizeofIdtEntries ≤ gdtStart
  gdtIdtp : gdtStart + 24 ≤ addrs.idtp ∨ addrs.idtp + 6 ≤ gdtStart

section Tables

variable {addrs : IdtAddrs} {gdtStart : Nat} {isrs : Nat → Nat} {st st' : Store}

/-- The entry of a vector after `k` rounds. -/
def gateBytes (isrs : Nat → Nat) (k v : Nat) : List Byte :=
  if v < k then
    IdtEntry.bytes
      { baseLo := isrs v &&& 0xffff, sel := 0x08, zero := 0, flags := 0x8e
        baseHi := isrs v >>> 16 &&& 0xffff }
  else List.replicate 8 0#8

theorem length_gateBytes (isrs : Nat → Nat) (k v : Nat) : (gateBytes isrs k v).length = 8 := by
  unfold gateBytes
  split
  · rfl
  · exact List.length_replicate

/-- The table after `k` rounds, and nothing else written since `st`. -/
structure GatesSet (addrs : IdtAddrs) (isrs : Nat → Nat) (k : Nat) (st st' : Store) : Prop where
  gates : ∀ v, v < 256 → TextAt st'.bytes (addrs.entries + 8 * v) (gateBytes isrs k v)
  frame : ∀ b, b < addrs.entries ∨ addrs.entries + sizeofIdtEntries ≤ b →
    st'.bytes b = st.bytes b

/-- One round sets one gate. -/
theorem GatesSet.round {k : Nat} (hk : k < 256) (h : GatesSet addrs isrs k st st') :
    GatesSet addrs isrs (k + 1) st (idtSetGate addrs k (isrs k) 0x08 0x8e st') where
  gates := by
    intro v hv
    by_cases hvk : v = k
    · subst hvk
      rw [gateBytes, if_pos (Nat.lt_succ_self v)]
      exact Store.textAt_putBytes _ _ _
    · have hsame : gateBytes isrs (k + 1) v = gateBytes isrs k v := by
        unfold gateBytes
        exact if_congr (by omega) rfl rfl
      rw [hsame]
      refine (h.gates v hv).congr fun i hi => Store.putBytes_of_outside ?_
      rw [length_gateBytes] at hi
      change _ ∨ addrs.entries + 8 * k + 8 ≤ _
      omega
  frame := by
    intro b hb
    rw [← h.frame b hb]
    apply Store.putBytes_of_outside
    change _ ∨ addrs.entries + 8 * k + 8 ≤ _
    unfold sizeofIdtEntries at hb
    omega

theorem gatesSet_isrGates (h : GatesSet addrs isrs 0 st st') {k : Nat} (hk : k ≤ numIsrs) :
    GatesSet addrs isrs k st (isrGates addrs isrs k st') := by
  have hloop := forLoop_invariant (fun i st'' => GatesSet addrs isrs i st st'')
    (f := fun i st => idtSetGate addrs i (isrs i) 0x08 0x8e st) k 0 st' h
    fun i st'' _ hi hset => hset.round (by unfold numIsrs at hk; omega)
  rwa [Nat.zero_add] at hloop

/-- `idtp` as `idt_install` writes it. -/
def idtpWritten (addrs : IdtAddrs) (st : Store) : Store :=
  (st.putWord (addrs.idtp + 2) addrs.entries).putBytes addrs.idtp
    (halfBytes (sizeofIdtEntries - 1))

theorem idtpWritten_of_outside {b : Nat} (st : Store)
    (h : b < addrs.idtp ∨ addrs.idtp + 6 ≤ b) : (idtpWritten addrs st).bytes b = st.bytes b := by
  have hlen : (halfBytes (sizeofIdtEntries - 1)).length = 2 := rfl
  rw [idtpWritten, Store.putBytes_of_outside (by omega),
    Store.bytes_putWord_of_outside _ _ (by omega)]

theorem readTableRegister_idtpWritten (hfits : addrs.entries + sizeofIdtEntries ≤ 2 ^ 32)
    (st : Store) :
    readTableRegister (idtpWritten addrs st).bytes addrs.idtp =
      ⟨sizeofIdtEntries - 1, addrs.entries⟩ := by
  have hlimit : readHalf (idtpWritten addrs st).bytes addrs.idtp = sizeofIdtEntries - 1 := by
    have htext := Store.textAt_putBytes addrs.idtp (halfBytes (sizeofIdtEntries - 1))
      (st.putWord (addrs.idtp + 2) addrs.entries)
    have hlow : (idtpWritten addrs st).bytes addrs.idtp = 0xff#8 := htext 0 (by decide)
    have hhigh : (idtpWritten addrs st).bytes (addrs.idtp + 1) = 0x07#8 := htext 1 (by decide)
    rw [readHalf, hlow, hhigh]
    rfl
  have hbase : readWord (idtpWritten addrs st).bytes (addrs.idtp + 2) = addrs.entries := by
    have hkept : readWord (idtpWritten addrs st).bytes (addrs.idtp + 2) =
        readWord (st.putWord (addrs.idtp + 2) addrs.entries).bytes (addrs.idtp + 2) :=
      readWord_congr fun b hlo hhi => Store.putBytes_of_outside (.inr hlo)
    rw [hkept]
    change readWord (writeWord st.bytes (addrs.idtp + 2) addrs.entries) (addrs.idtp + 2) = _
    rw [readWord_writeWord_same]
    unfold sizeofIdtEntries at hfits
    omega
  rw [readTableRegister, hlimit, hbase]

/-- `idt_install` leaves a table without gates, and `idtp` that points to it. -/
theorem idtInit_spec (hapart : addrs.Apart gdtStart) (isrs : Nat → Nat) (st : Store) :
    (idtInit addrs st).1 = ⟨sizeofIdtEntries - 1, addrs.entries⟩ ∧
      GatesSet addrs isrs 0 (idtpWritten addrs st) (idtInit addrs st).2 := by
  have hmemset : (idtInit addrs st).2 =
      Libc.memset addrs.entries 0 sizeofIdtEntries (idtpWritten addrs st) := by
    simp only [idtInit, idtInstall, idtpWritten]
  have hfilled := Libc.memset_spec addrs.entries 0 sizeofIdtEntries (idtpWritten addrs st)
  rw [← hmemset] at hfilled
  have hframe : ∀ b, b < addrs.entries ∨ addrs.entries + sizeofIdtEntries ≤ b →
      (idtInit addrs st).2.bytes b = (idtpWritten addrs st).bytes b := fun b hb =>
    hfilled.writes.frame b (by omega)
  constructor
  · have hidtp := hapart.idtp
    rw [← readTableRegister_idtpWritten hapart.fits st]
    have hhalf : readHalf (idtInit addrs st).2.bytes addrs.idtp =
        readHalf (idtpWritten addrs st).bytes addrs.idtp :=
      Foundation.readHalf_congr fun b _ _ => hframe b (by omega)
    have hword : readWord (idtInit addrs st).2.bytes (addrs.idtp + 2) =
        readWord (idtpWritten addrs st).bytes (addrs.idtp + 2) :=
      readWord_congr fun b _ _ => hframe b (by omega)
    change readTableRegister (idtInit addrs st).2.bytes addrs.idtp = _
    rw [readTableRegister, hhalf, hword]
    rfl
  · refine ⟨fun v hv i hi => ?_, hframe⟩
    have hbytes : gateBytes isrs 0 v = List.replicate 8 0#8 := if_neg (Nat.not_lt_zero v)
    rw [length_gateBytes] at hi
    rw [Nat.add_assoc, hfilled.filled (8 * v + i) (by unfold sizeofIdtEntries; omega)]
    simp only [hbytes, List.getElem_replicate]
    rfl

/-! ## Where an interrupt goes -/

/-- A gate that `isr_init` sets leads to its wrapper, through the code segment of
`boot.s`. -/
theorem interruptTarget_of_gate {m : Memory} {idtr : TableRegister} {v a base : Nat}
    (hentry : idtr.entry v = some a) (hbase : base < 2 ^ 32)
    (hgate : TextAt m a (IdtEntry.bytes
      { baseLo := base &&& 0xffff, sel := 0x08, zero := 0, flags := 0x8e
        baseHi := base >>> 16 &&& 0xffff }))
    (hgdt : TextAt m gdtStart bootGdt) :
    interruptTarget m idtr (bootGdtr gdtStart) v = some base := by
  have hlow : base &&& 0xffff = base % 2 ^ 16 := Nat.and_two_pow_sub_one_eq_mod base 16
  have hhigh : base >>> 16 &&& 0xffff = base / 2 ^ 16 % 2 ^ 16 := by
    rw [Nat.shiftRight_eq_div_pow]
    exact Nat.and_two_pow_sub_one_eq_mod _ 16
  have hread : readGate m a = ⟨base, 8, 0x8e#8⟩ := by
    rw [readGate_of_textAt hgate, hlow, hhigh, Gate.mk.injEq]
    simp only [BitVec.toNat_ofNat]
    exact ⟨by omega, by decide, trivial⟩
  have hcode : TextAt m (gdtStart + 8) [0xff, 0xff, 0, 0, 0, 0b10011010, 0b11001111, 0] := by
    rw [bootGdt, List.append_assoc, TextAt.append_iff, TextAt.append_iff] at hgdt
    exact hgdt.2.1
  have hsegment : readSegment m (gdtStart + 8) = ⟨0, 0xffffffff, 0b10011010#8⟩ := by
    rw [readSegment_of_textAt hcode]
    rfl
  have hdescriptor : (bootGdtr gdtStart).entry 1 = some (gdtStart + 8) := rfl
  have hinside : base ≤ 0xffffffff := by omega
  simp only [interruptTarget, hentry, hread, hsegment, hdescriptor, Option.bind_eq_bind,
    Option.bind_some]
  have hgateOk : (Gate.present ⟨base, 8, 0x8e#8⟩ && Gate.isInterrupt ⟨base, 8, 0x8e#8⟩) = true := by
    simp only [Gate.present, Gate.isInterrupt]
    decide
  have hsegmentOk : (Segment.isCode ⟨0, 0xffffffff, 0b10011010#8⟩ && decide (0 < 8 / 8) &&
      decide (base ≤ 0xffffffff)) = true := by
    rw [decide_eq_true hinside]
    rfl
  rw [if_pos hgateOk, if_pos hsegmentOk, Nat.zero_add, Nat.mod_eq_of_lt hbase]

/-- An entry that no round has set is not present. -/
theorem interruptTarget_of_zero {m : Memory} {idtr gdtr : TableRegister} {v a : Nat}
    (hentry : idtr.entry v = some a) (hgate : TextAt m a (List.replicate 8 0#8)) :
    interruptTarget m idtr gdtr v = none := by
  have hread : readGate m a = ⟨0, 0, 0#8⟩ := readGate_of_textAt hgate
  simp only [interruptTarget, hentry, hread, Option.bind_eq_bind, Option.bind_some]
  rfl

/-- At every moment of `isr_init`, an interrupt goes to the wrapper of its number if the
loop has come past it, and nowhere otherwise; no vector from 48 on ever has a gate. -/
theorem interruptTarget_isrGates (hapart : addrs.Apart gdtStart)
    (hgdt : TextAt st.bytes gdtStart bootGdt) (hisrs : ∀ i, isrs i < 2 ^ 32) {k : Nat}
    (hk : k ≤ numIsrs) {v : Nat} (hv : v < 256) :
    interruptTarget (isrGates addrs isrs k (idtInit addrs st).2).bytes (idtInit addrs st).1
        (bootGdtr gdtStart) v =
      if v < k then some (isrs v) else none := by
  obtain ⟨hidtr, hset⟩ := idtInit_spec hapart isrs st
  have hgates := gatesSet_isrGates hset hk
  have hentry : (idtInit addrs st).1.entry v = some (addrs.entries + 8 * v) := by
    have hinside : 8 * v + 7 ≤ sizeofIdtEntries - 1 := by
      unfold sizeofIdtEntries
      omega
    rw [hidtr]
    exact if_pos hinside
  have hgate := hgates.gates v hv
  by_cases hvk : v < k
  · rw [gateBytes, if_pos hvk] at hgate
    rw [if_pos hvk]
    refine interruptTarget_of_gate hentry (hisrs v) hgate (hgdt.congr fun i hi => ?_)
    have hlen : i < 24 := hi
    have hg := hapart.gdt
    have hp := hapart.gdtIdtp
    rw [hgates.frame _ (by omega), idtpWritten_of_outside _ (by omega)]
  · rw [gateBytes, if_neg hvk] at hgate
    rw [if_neg hvk]
    exact interruptTarget_of_zero hentry hgate

end Tables

/-- The segments of `boot.s`, where the boot sector might have them. -/
def sampleStore : Store := Store.putBytes 0x7c80 bootGdt ⟨fun _ => 0, []⟩

theorem sampleStore_gdt : TextAt sampleStore.bytes 0x7c80 bootGdt :=
  Store.textAt_putBytes _ _ _

def sampleAddrs : IdtAddrs := ⟨0x9000, 0x9800⟩

theorem sampleAddrs_apart : sampleAddrs.Apart 0x7c80 :=
  ⟨by decide, by decide, by decide, by decide⟩

theorem sampleIsrs_lt (i : Nat) : (0x8100 + i % 0x100) < 2 ^ 32 := by omega

theorem interruptTarget_isrGates_breakpoint :
    interruptTarget (isrGates sampleAddrs (fun i => 0x8100 + i % 0x100) numIsrs
        (idtInit sampleAddrs sampleStore).2).bytes
      (idtInit sampleAddrs sampleStore).1 (bootGdtr 0x7c80) 3 = some 0x8103 :=
  interruptTarget_isrGates sampleAddrs_apart sampleStore_gdt sampleIsrs_lt
    (Nat.le_refl _) (by decide)

end DonutOS.Kernel
