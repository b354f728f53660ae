import DonutOS.Kernel.Pci
import Mathlib.Algebra.BigOperators.Group.List.Basic

set_option autoImplicit false

/-!
# Kernel: what `pci_scan_bus` finds (`kernel/src/pci.c`)

Both passes walk the same list of functions.  The first counts those that are
present, the second writes them one behind the other; the array read back is
the list of the present functions, as long as 16 bits count them.
-/

namespace DonutOS.Kernel

open DonutOS.Foundation

/-! ## Addresses -/

/-- The packed address is the sum of its parts. -/
theorem pciAddress_eq {bus slot func : Nat} (offset : Nat) (hbus : bus < 256)
    (hslot : slot < 32) (hfunc : func < 8) :
    pciAddress bus slot func offset =
      2 ^ 31 + (((bus * 32 + slot) * 8 + func) * 256 + (offset &&& 0xfc)) := by
  have hoffset : offset &&& 0xfc ≤ 0xfc := Nat.and_le_right
  have hslots : bus <<< 16 ||| slot <<< 11 = (bus * 32 + slot) <<< 11 := by
    rw [← Nat.shiftLeft_add_eq_or_of_lt (by rw [Nat.shiftLeft_eq]; omega)]
    simp only [Nat.shiftLeft_eq]
    omega
  have hfuncs : (bus * 32 + slot) <<< 11 ||| func <<< 8 =
      ((bus * 32 + slot) * 8 + func) <<< 8 := by
    rw [← Nat.shiftLeft_add_eq_or_of_lt (by rw [Nat.shiftLeft_eq]; omega)]
    simp only [Nat.shiftLeft_eq]
    omega
  have hregs : ((bus * 32 + slot) * 8 + func) <<< 8 ||| (offset &&& 0xfc) =
      ((bus * 32 + slot) * 8 + func) * 256 + (offset &&& 0xfc) := by
    rw [← Nat.shiftLeft_add_eq_or_of_lt (by omega), Nat.shiftLeft_eq]
  unfold pciAddress
  rw [hslots, hfuncs, hregs, Nat.or_comm, show 0x80000000 = 1 <<< 31 from rfl,
    ← Nat.shiftLeft_add_eq_or_of_lt (by omega), Nat.shiftLeft_eq]
  omega

/-- A read is answered by the register it names. -/
theorem pciConfigRead_eq (config : PciConfig) {bus slot func : Nat} (offset : Nat)
    (hbus : bus < 256) (hslot : slot < 32) (hfunc : func < 8) :
    pciConfigRead config bus slot func offset =
      (config bus slot func (offset &&& 0xfc)).toNat := by
  have hoffset : offset &&& 0xfc ≤ 0xfc := Nat.and_le_right
  unfold pciConfigRead pciConfigReadData
  rw [pciAddress_eq offset hbus hslot hfunc]
  generalize offset &&& 0xfc = register at hoffset
  rw [if_pos (by omega)]
  congr 2 <;> omega

/-! ## The functions of the bus -/

/-- A function: its bus, slot and number. -/
abbrev PciFunction := Nat × Nat × Nat

/-- All functions, in the order of bus, slot and function. -/
def busFunctions : List PciFunction :=
  (List.range 256).flatMap fun bus => (List.range 32).flatMap fun slot =>
    (List.range 8).map fun func => (bus, slot, func)

/-- The vendor of a function. -/
def vendorOf (config : PciConfig) (x : PciFunction) : Nat :=
  (config x.1 x.2.1 x.2.2 0).toNat % 2 ^ 16

/-- A function is present when its vendor is not `0xffff`. -/
def Present (config : PciConfig) (x : PciFunction) : Prop := vendorOf config x ≠ 0xffff

instance (config : PciConfig) (x : PciFunction) : Decidable (Present config x) :=
  inferInstanceAs (Decidable (_ ≠ _))

/-- What there is to know of a function, from its registers. -/
def deviceOf (config : PciConfig) (x : PciFunction) : PciDevice where
  bus := x.1
  slot := x.2.1
  func := x.2.2
  vendorId := vendorOf config x
  deviceId := (config x.1 x.2.1 x.2.2 0).toNat / 2 ^ 16
  bars := (List.range 6).map fun k => (config x.1 x.2.1 x.2.2 (0x10 + k * 4)).toNat
  irq := (config x.1 x.2.1 x.2.2 0x3c).toNat % 2 ^ 8

/-- The present functions of a list. -/
def presentIn (config : PciConfig) (fs : List PciFunction) : List PciFunction :=
  fs.filter fun x => Present config x

/-- The present functions, in order. -/
def presentFunctions (config : PciConfig) : List PciFunction := presentIn config busFunctions

@[simp] theorem presentIn_nil (config : PciConfig) : presentIn config [] = [] := rfl

theorem presentIn_cons_of_present {config : PciConfig} {x : PciFunction}
    (h : Present config x) (fs : List PciFunction) :
    presentIn config (x :: fs) = x :: presentIn config fs :=
  List.filter_cons_of_pos (decide_eq_true h)

theorem presentIn_cons_of_absent {config : PciConfig} {x : PciFunction}
    (h : ¬ Present config x) (fs : List PciFunction) :
    presentIn config (x :: fs) = presentIn config fs :=
  List.filter_cons_of_neg (by simpa using h)

theorem mem_busFunctions {x : PciFunction} :
    x ∈ busFunctions ↔ x.1 < 256 ∧ x.2.1 < 32 ∧ x.2.2 < 8 := by
  obtain ⟨bus, slot, func⟩ := x
  unfold busFunctions
  simp only [List.mem_flatMap, List.mem_map, List.mem_range, Prod.mk.injEq]
  constructor
  · rintro ⟨b, hb, s, hs, f, hf, rfl, rfl, rfl⟩
    exact ⟨hb, hs, hf⟩
  · rintro ⟨hb, hs, hf⟩
    exact ⟨bus, hb, slot, hs, func, hf, rfl, rfl, rfl⟩

theorem length_busFunctions : busFunctions.length = 2 ^ 16 := by
  unfold busFunctions
  simp only [List.length_flatMap, List.length_map, List.length_range, List.map_const',
    List.sum_replicate_nat, Nat.reduceMul, Nat.reducePow]

/-- The three loops are a fold over the functions. -/
theorem scanFunctions_eq_foldl {σ : Type} (body : Nat → Nat → Nat → σ → σ) (s : σ) :
    scanFunctions body s = busFunctions.foldl (fun s x => body x.1 x.2.1 x.2.2 s) s := by
  unfold scanFunctions busFunctions
  simp only [List.foldl_flatMap, List.foldl_map, forLoop_eq_foldl, List.range_eq_range']

/-! ## The passes, on a list of functions -/

variable {config : PciConfig} {fs : List PciFunction}

theorem pciTouchDevice_eq {x : PciFunction} (hx : x ∈ busFunctions) :
    pciTouchDevice config x.1 x.2.1 x.2.2 = if Present config x then 1 else 0 := by
  obtain ⟨hbus, hslot, hfunc⟩ := mem_busFunctions.mp hx
  unfold pciTouchDevice Present vendorOf
  rw [pciConfigRead_eq config pciVendorId hbus hslot hfunc]
  refine if_congr (not_congr ?_) rfl rfl
  change (config x.1 x.2.1 x.2.2 0).toNat &&& 2 ^ 16 - 1 = 0xffff ↔ _
  rw [Nat.and_two_pow_sub_one_eq_mod]

/-- The counting pass adds up the present functions, modulo `2 ^ 16`. -/
theorem count_foldl (hfs : ∀ x ∈ fs, x ∈ busFunctions) (size : Nat) (hsize : size < 2 ^ 16) :
    fs.foldl (fun size x => (size + pciTouchDevice config x.1 x.2.1 x.2.2) % 2 ^ 16) size =
      (size + (presentIn config fs).length) % 2 ^ 16 := by
  induction fs generalizing size with
  | nil => exact (Nat.mod_eq_of_lt hsize).symm
  | cons x fs ih =>
      have hrest := ih (fun y hy => hfs y (List.mem_cons_of_mem _ hy))
        ((size + pciTouchDevice config x.1 x.2.1 x.2.2) % 2 ^ 16) (Nat.mod_lt _ (by decide))
      rw [List.foldl_cons, hrest, pciTouchDevice_eq (hfs x List.mem_cons_self)]
      by_cases hx : Present config x
      · rw [if_pos hx, presentIn_cons_of_present hx, List.length_cons]
        omega
      · rw [if_neg hx, presentIn_cons_of_absent hx]
        omega

/-- The array filled so far, read back. -/
def PciFill.entries (st : PciFill) : List PciDevice := (List.range st.counter).map st.elements

theorem pciCheckAndGetDevice_of_absent {x : PciFunction} (hx : x ∈ busFunctions)
    (habsent : ¬ Present config x) (st : PciFill) :
    pciCheckAndGetDevice config x.1 x.2.1 x.2.2 st = st := by
  obtain ⟨hbus, hslot, hfunc⟩ := mem_busFunctions.mp hx
  unfold Present vendorOf at habsent
  unfold pciCheckAndGetDevice
  rw [pciConfigRead_eq config pciVendorId hbus hslot hfunc]
  refine if_pos ?_
  change (config x.1 x.2.1 x.2.2 0).toNat &&& 2 ^ 16 - 1 = 0xffff
  rw [Nat.and_two_pow_sub_one_eq_mod]
  exact not_not.mp habsent

/-- A present function gets the next element, all fields of it. -/
theorem pciCheckAndGetDevice_of_present {x : PciFunction} (hx : x ∈ busFunctions)
    (hpresent : Present config x) (st : PciFill) :
    pciCheckAndGetDevice config x.1 x.2.1 x.2.2 st =
      { elements := Function.update st.elements st.counter (deviceOf config x)
        counter := (st.counter + 1) % 2 ^ 16
        written := st.written ++ [st.counter] } := by
  obtain ⟨hbus, hslot, hfunc⟩ := mem_busFunctions.mp hx
  have hread := fun offset => pciConfigRead_eq config offset hbus hslot hfunc
  have hvendor : pciConfigRead config x.1 x.2.1 x.2.2 pciVendorId &&& 0xffff =
      vendorOf config x := by
    rw [hread]
    exact Nat.and_two_pow_sub_one_eq_mod _ 16
  have hdevice : pciConfigRead config x.1 x.2.1 x.2.2 pciDeviceId >>> 16 =
      (config x.1 x.2.1 x.2.2 0).toNat / 2 ^ 16 := by
    rw [hread, Nat.shiftRight_eq_div_pow]
    rfl
  have hirq : pciConfigRead config x.1 x.2.1 x.2.2 0x3c &&& 0xff =
      (config x.1 x.2.1 x.2.2 0x3c).toNat % 2 ^ 8 := by
    rw [hread]
    exact Nat.and_two_pow_sub_one_eq_mod _ 8
  have hbars : ((List.range 6).map fun barNum =>
      pciConfigRead config x.1 x.2.1 x.2.2 (0x10 + barNum * 4)) =
      (List.range 6).map fun k => (config x.1 x.2.1 x.2.2 (0x10 + k * 4)).toNat := by
    simp only [hread]
    rfl
  unfold pciCheckAndGetDevice
  simp only [hvendor, hdevice, hirq]
  rw [if_neg hpresent]
  unfold pciReadBars
  simp only [hbars]
  rfl

/-- The filling pass writes the present functions one behind the other, each once, as
long as the counter does not wrap. -/
theorem fill_foldl (hfs : ∀ x ∈ fs, x ∈ busFunctions) (st : PciFill)
    (hwritten : st.written = List.range st.counter)
    (hroom : st.counter + (presentIn config fs).length < 2 ^ 16) :
    let st' := fs.foldl (fun st x => pciCheckAndGetDevice config x.1 x.2.1 x.2.2 st) st
    st'.entries = st.entries ++ (presentIn config fs).map (deviceOf config) ∧
      st'.counter = st.counter + (presentIn config fs).length ∧
      st'.written = List.range st'.counter := by
  induction fs generalizing st with
  | nil => exact ⟨(List.append_nil _).symm, rfl, hwritten⟩
  | cons x fs ih =>
      have htail : ∀ y ∈ fs, y ∈ busFunctions := fun y hy => hfs y (List.mem_cons_of_mem _ hy)
      by_cases hx : Present config x
      · rw [presentIn_cons_of_present hx, List.length_cons] at hroom
        rw [List.foldl_cons, pciCheckAndGetDevice_of_present (hfs x List.mem_cons_self) hx,
          presentIn_cons_of_present hx, List.length_cons, List.map_cons,
          Nat.mod_eq_of_lt (by omega)]
        obtain ⟨hentries, hcounter, hwritten'⟩ := ih htail
          { elements := Function.update st.elements st.counter (deviceOf config x)
            counter := st.counter + 1
            written := st.written ++ [st.counter] }
          (by rw [hwritten, List.range_succ]) (by simp only; omega)
        refine ⟨?_, ?_, hwritten'⟩
        · -- the element written is the one behind those read back so far
          have hkept : (List.range st.counter).map
              (Function.update st.elements st.counter (deviceOf config x)) = st.entries :=
            List.map_congr_left fun i hi =>
              Function.update_of_ne (Nat.ne_of_lt (List.mem_range.mp hi)) _ _
          rw [hentries, PciFill.entries, List.range_succ, List.map_append, hkept,
            List.append_assoc]
          simp only [List.map_cons, List.map_nil, Function.update_self, List.singleton_append]
        · simp only at hcounter
          rw [hcounter]
          omega
      · rw [presentIn_cons_of_absent hx] at hroom ⊢
        rw [List.foldl_cons, pciCheckAndGetDevice_of_absent (hfs x List.mem_cons_self) hx]
        exact ih htail st hwritten hroom

/-- A device with the given numbers. -/
def hasIds (vendorId deviceId : Nat) (dev : PciDevice) : Bool :=
  dev.vendorId = vendorId ∧ dev.deviceId = deviceId

/-- `pci_get_device` finds the first entry that matches. -/
theorem pciGetDeviceLoop_eq (vendorId deviceId : Nat) (elements : Nat → PciDevice) (n i : Nat) :
    pciGetDeviceLoop vendorId deviceId elements n i =
      ((List.range' i n).map elements).find? (hasIds vendorId deviceId) := by
  induction n generalizing i with
  | zero => rfl
  | succ n ih =>
      rw [pciGetDeviceLoop, List.range'_succ, List.map_cons]
      split
      · next hmatch =>
          have hids : hasIds vendorId deviceId (elements i) = true := decide_eq_true hmatch
          rw [List.find?_cons_of_pos hids]
      · next hmatch =>
          have hids : ¬ hasIds vendorId deviceId (elements i) = true := by
            unfold hasIds
            rw [decide_eq_true_eq]
            exact hmatch
          rw [List.find?_cons_of_neg hids, ih]

/-! ## The scan -/

/-- What a scan should leave: the count, the present functions in order and nothing
written behind them; and `pci_get_device` finds the first function with the
given numbers, if one is present. -/
structure PciScanned (config : PciConfig) (s : Pci) : Prop where
  array : s.devices ≠ 0
  size : s.devicesSize = (presentFunctions config).length
  entries : (List.range s.devicesSize).map s.elements =
    (presentFunctions config).map (deviceOf config)
  inside : ∀ i ∈ s.written, i < s.devicesSize
  first : ∀ vendorId deviceId, pciGetDevice vendorId deviceId s =
    ((presentFunctions config).map (deviceOf config)).find? (hasIds vendorId deviceId)
  found : ∀ vendorId deviceId, (pciGetDevice vendorId deviceId s).isSome ↔
    ∃ bus slot func, bus < 256 ∧ slot < 32 ∧ func < 8 ∧ Present config (bus, slot, func) ∧
      (deviceOf config (bus, slot, func)).vendorId = vendorId ∧
      (deviceOf config (bus, slot, func)).deviceId = deviceId

theorem mem_presentFunctions {x : PciFunction} :
    x ∈ presentFunctions config ↔ x ∈ busFunctions ∧ Present config x := by
  unfold presentFunctions presentIn
  rw [List.mem_filter, decide_eq_true_eq]

theorem length_presentFunctions_le (config : PciConfig) :
    (presentFunctions config).length ≤ 2 ^ 16 :=
  length_busFunctions ▸ List.length_filter_le _ _

theorem pciScanBus_devicesSize (config : PciConfig) (array : Nat) (contents : Nat → PciDevice)
    {s : Pci} (hsize : s.devicesSize < 2 ^ 16) :
    (pciScanBus config array contents s).devicesSize =
      ((if s.devices ≠ 0 then 0 else s.devicesSize) + (presentFunctions config).length) %
        2 ^ 16 := by
  unfold pciScanBus
  simp only
  rw [scanFunctions_eq_foldl]
  split
  · exact count_foldl (fun _ hx => hx) 0 (by decide)
  · exact count_foldl (fun _ hx => hx) s.devicesSize hsize

/-- With a count of 16 bits, and starting from 0, the scan does what it should. -/
theorem pciScanBus_scanned {array : Nat} (hmalloc : array ≠ 0)
    {contents : Nat → PciDevice} {s : Pci} (hsize : s.devicesSize < 2 ^ 16)
    (hcount : (presentFunctions config).length < 2 ^ 16)
    (hfresh : s.devices ≠ 0 ∨ s.devicesSize = 0) :
    PciScanned config (pciScanBus config array contents s) := by
  have hstart : (if s.devices ≠ 0 then 0 else s.devicesSize) = 0 := by
    split
    · rfl
    · next hnull => exact hfresh.resolve_left hnull
  have hdevices := pciScanBus_devicesSize config array contents hsize
  rw [hstart, Nat.zero_add, Nat.mod_eq_of_lt hcount] at hdevices
  have hroom : 0 + (presentIn config busFunctions).length < 2 ^ 16 := by
    rw [Nat.zero_add]
    exact hcount
  obtain ⟨hentries, hcounter, hwritten⟩ :=
    fill_foldl (fun _ hx => hx) ⟨contents, 0, []⟩ rfl hroom
  rw [Nat.zero_add] at hcounter
  have hlist : (List.range (pciScanBus config array contents s).devicesSize).map
      (pciScanBus config array contents s).elements =
        (presentFunctions config).map (deviceOf config) := by
    rw [hdevices]
    unfold pciScanBus
    simp only [scanFunctions_eq_foldl]
    rw [PciFill.entries, hcounter] at hentries
    exact hentries
  have hfirst : ∀ vendorId deviceId,
      pciGetDevice vendorId deviceId (pciScanBus config array contents s) =
        ((presentFunctions config).map (deviceOf config)).find? (hasIds vendorId deviceId) := by
    intro vendorId deviceId
    rw [pciGetDevice, pciGetDeviceLoop_eq, ← List.range_eq_range', hlist]
  refine ⟨hmalloc, hdevices, hlist, ?_, hfirst, ?_⟩
  · intro i hi
    rw [hdevices]
    unfold pciScanBus at hi
    simp only [scanFunctions_eq_foldl, hwritten, hcounter] at hi
    exact List.mem_range.mp hi
  · intro vendorId deviceId
    rw [hfirst, List.find?_isSome]
    constructor
    · rintro ⟨dev, hdev, hmatch⟩
      obtain ⟨x, hx, rfl⟩ := List.mem_map.mp hdev
      obtain ⟨hbus, hpresent⟩ := mem_presentFunctions.mp hx
      obtain ⟨hb, hs, hf⟩ := mem_busFunctions.mp hbus
      exact ⟨x.1, x.2.1, x.2.2, hb, hs, hf, hpresent, of_decide_eq_true hmatch⟩
    · rintro ⟨bus, slot, func, hb, hs, hf, hpresent, hmatch⟩
      refine ⟨_, List.mem_map.mpr ⟨(bus, slot, func), ?_, rfl⟩, decide_eq_true hmatch⟩
      exact mem_presentFunctions.mpr ⟨mem_busFunctions.mpr ⟨hb, hs, hf⟩, hpresent⟩

/-- Whatever the configuration space and the state before, when `malloc` succeeds: the
scan does what it should exactly when fewer than `2 ^ 16` functions are present
and the count starts from 0, which it does unless `devices` is `NULL` while
`devices_size` is not 0. -/
theorem pciScanBus_scanned_iff (config : PciConfig) {array : Nat} (hmalloc : array ≠ 0)
    (contents : Nat → PciDevice) {s : Pci} (hsize : s.devicesSize < 2 ^ 16) :
    PciScanned config (pciScanBus config array contents s) ↔
      (presentFunctions config).length < 2 ^ 16 ∧ (s.devices ≠ 0 ∨ s.devicesSize = 0) := by
  constructor
  · intro hscanned
    have hdevices := hscanned.size
    have hle := length_presentFunctions_le config
    rw [pciScanBus_devicesSize config array contents hsize] at hdevices
    split at hdevices
    · next hused => exact ⟨by omega, Or.inl hused⟩
    · exact ⟨by omega, Or.inr (by omega)⟩
  · rintro ⟨hcount, hfresh⟩
    exact pciScanBus_scanned hmalloc hsize hcount hfresh

/-- The globals at boot. -/
def pciAtBoot : Pci := ⟨0, 0, fun _ => default, []⟩

/-- A bus with the network card only. -/
def oneDevice : PciConfig := fun bus slot func _ =>
  if bus = 0 ∧ slot = 3 ∧ func = 0 then 0x813910ec else 0xffffffff

theorem pciScanBus_scanned_iff_one :
    PciScanned oneDevice (pciScanBus oneDevice 0x100004 (fun _ => default) pciAtBoot) ↔
      (presentFunctions oneDevice).length < 2 ^ 16 ∧
        (pciAtBoot.devices ≠ 0 ∨ pciAtBoot.devicesSize = 0) :=
  pciScanBus_scanned_iff oneDevice (by decide) _ (by decide)

/-- A bus on which every function answers. -/
def fullBus : PciConfig := fun _ _ _ _ => 0

theorem length_presentFunctions_fullBus : (presentFunctions fullBus).length = 2 ^ 16 := by
  have hall : presentFunctions fullBus = busFunctions := by
    refine List.filter_eq_self.mpr fun x _ => decide_eq_true ?_
    unfold Present vendorOf fullBus
    decide
  rw [hall, length_busFunctions]

/-- A count that starts from 1 is too large by one. -/
theorem not_scanned_of_stale {array : Nat} {contents : Nat → PciDevice} {s : Pci}
    (hnull : s.devices = 0) (hstale : s.devicesSize = 1) :
    ¬ PciScanned config (pciScanBus config array contents s) := by
  intro hscanned
  have hsize := hscanned.size
  have hle := length_presentFunctions_le config
  rw [pciScanBus_devicesSize config _ _ (by rw [hstale]; decide),
    if_neg (not_not.mpr hnull), hstale] at hsize
  omega

/-- On a full bus the count wraps to 0.  On the bus with one card it is 2, when a scan
before this one had no memory for its array. -/
theorem pciScanBus_miscounts :
    ¬ PciScanned fullBus (pciScanBus fullBus 0x100004 (fun _ => default) pciAtBoot) ∧
    ¬ PciScanned oneDevice
      (pciScanBus oneDevice 0x100004 (fun _ => default) { pciAtBoot with devicesSize := 1 }) := by
  refine ⟨fun hscanned => ?_, not_scanned_of_stale rfl rfl⟩
  have hsize := hscanned.size
  rw [pciScanBus_devicesSize fullBus _ _ (by decide), length_presentFunctions_fullBus] at hsize
  exact absurd hsize (by decide)

end DonutOS.Kernel
