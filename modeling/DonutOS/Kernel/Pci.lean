import DonutOS.Foundation.Loop
import DonutOS.Foundation.Memory
import Mathlib.Logic.Function.Basic

set_option autoImplicit false

/-!
# Kernel: the PCI bus (`kernel/src/pci.c`)

The configuration space is a function that every read answers from.  The array
`devices` is kept element by element; where `malloc` put it, and what the block
held, are arguments of the scan.
-/

namespace DonutOS.Kernel

open DonutOS.Foundation

/-! ## The configuration space -/

/-- The word in a register of a function: by bus, slot, function and register. -/
abbrev PciConfig := Nat → Nat → Nat → Nat → Word

/-- `PCI_VENDOR_ID`. -/
def pciVendorId : Nat := 0x00

/-- `PCI_DEVICE_ID`. -/
def pciDeviceId : Nat := 0x02

/-- The address that `pci_config_read` writes. -/
def pciAddress (bus slot func offset : Nat) : Nat :=
  bus <<< 16 ||| slot <<< 11 ||| func <<< 8 ||| (offset &&& 0xfc) ||| 0x80000000

/-- What the bus answers for an address, in the format of the comment in
`pci_config_read`. -/
def pciConfigReadData (config : PciConfig) (address : Nat) : Word :=
  if address / 2 ^ 31 % 2 = 1 then
    config (address / 2 ^ 16 % 2 ^ 8) (address / 2 ^ 11 % 2 ^ 5) (address / 2 ^ 8 % 2 ^ 3)
      (address % 2 ^ 8)
  else 0xffffffff

/-- `pci_config_read`. -/
def pciConfigRead (config : PciConfig) (bus slot func offset : Nat) : Nat :=
  (pciConfigReadData config (pciAddress bus slot func offset)).toNat

/-! ## Devices -/

/-- A `pci_device_t`. -/
structure PciDevice where
  bus : Nat
  slot : Nat
  func : Nat
  vendorId : Nat
  deviceId : Nat
  bars : List Nat
  irq : Nat
  deriving DecidableEq, Repr, Inhabited

/-- `pci_read_bars`. -/
def pciReadBars (config : PciConfig) (dev : PciDevice) : List Nat :=
  (List.range 6).map fun barNum =>
    pciConfigRead config dev.bus dev.slot dev.func (0x10 + barNum * 4)

/-- `pci_touch_device`. -/
def pciTouchDevice (config : PciConfig) (bus slot func : Nat) : Nat :=
  if pciConfigRead config bus slot func pciVendorId &&& 0xffff ≠ 0xffff then 1 else 0

/-- The array while it is filled, the counter, and the indices written so far, which
no code reads. -/
structure PciFill where
  elements : Nat → PciDevice
  counter : Nat
  written : List Nat

/-- `pci_check_and_get_device(bus, slot, func, &devices[i], &i)`. -/
def pciCheckAndGetDevice (config : PciConfig) (bus slot func : Nat) (st : PciFill) : PciFill :=
  let vendorId := pciConfigRead config bus slot func pciVendorId &&& 0xffff
  if vendorId = 0xffff then st
  else
    let deviceId := pciConfigRead config bus slot func pciDeviceId >>> 16
    let dev := { st.elements st.counter with
      vendorId := vendorId, deviceId := deviceId, bus := bus, slot := slot, func := func }
    let dev := { dev with bars := pciReadBars config dev }
    let dev := { dev with irq := pciConfigRead config bus slot func 0x3c &&& 0xff }
    { elements := Function.update st.elements st.counter dev
      counter := (st.counter + 1) % 2 ^ 16
      written := st.written ++ [st.counter] }

/-- The three loops of a pass of `pci_scan_bus`. -/
def scanFunctions {σ : Type} (body : Nat → Nat → Nat → σ → σ) (s : σ) : σ :=
  forLoop (fun bus => forLoop (fun slot => forLoop (fun func => body bus slot func) 0 8) 0 32)
    0 256 s

/-- The globals of `pci.c`, and the indices that the last scan has written. -/
structure Pci where
  devices : Nat
  devicesSize : Nat
  elements : Nat → PciDevice
  written : List Nat

/-- `pci_scan_bus`, when `malloc` answers `array`, a block that holds `contents`. -/
def pciScanBus (config : PciConfig) (array : Nat) (contents : Nat → PciDevice) (s : Pci) : Pci :=
  let s := if s.devices ≠ 0 then { s with devices := 0, devicesSize := 0 } else s
  let devicesSize := scanFunctions
    (fun bus slot func size => (size + pciTouchDevice config bus slot func) % 2 ^ 16) s.devicesSize
  let fill := scanFunctions (pciCheckAndGetDevice config) ⟨contents, 0, []⟩
  { devices := array
    devicesSize := devicesSize
    elements := fill.elements
    written := fill.written }

/-- The loop of `pci_get_device`: `n` elements from index `i` on. -/
def pciGetDeviceLoop (vendorId deviceId : Nat) (elements : Nat → PciDevice) :
    Nat → Nat → Option PciDevice
  | 0, _ => none
  | n + 1, i =>
      if (elements i).vendorId = vendorId ∧ (elements i).deviceId = deviceId then
        some (elements i)
      else pciGetDeviceLoop vendorId deviceId elements n (i + 1)

/-- `pci_get_device`: the device copied to `target` with the answer 1, or `none` with
the answer 0. -/
def pciGetDevice (vendorId deviceId : Nat) (s : Pci) : Option PciDevice :=
  pciGetDeviceLoop vendorId deviceId s.elements s.devicesSize 0

end DonutOS.Kernel
