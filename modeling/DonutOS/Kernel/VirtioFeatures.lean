import Mathlib.Algebra.Group.Int.Defs
import Mathlib.Algebra.Group.Nat.Defs
import Mathlib.Data.List.Basic

set_option autoImplicit false

/-!
# Kernel: the features of the virtio device (`kernel/src/virtio_net.c`)

The driver clears the features it does not want in the word that the device offers.  It
refuses the control queue, and with it all but one of the features that need it.
-/

namespace DonutOS.Kernel

/-- The feature bits of `virtio_net.h`. -/
inductive Feature
  | csum | guestCsum | ctrlGO | mtu | mac
  | guestTso4 | guestTso6 | guestEcn | guestUfo
  | hostTso4 | hostTso6 | hostEcn | hostUfo
  | mrgRxbuf | status
  | ctrlVq | ctrlRx | ctrlVlan | guestAnnounce | mq | ctrlMacAddr
  | rscExt | standby
  deriving DecidableEq, Repr

namespace Feature

def bit : Feature → Nat
  | csum => 0
  | guestCsum => 1
  | ctrlGO => 2
  | mtu => 3
  | mac => 5
  | guestTso4 => 7
  | guestTso6 => 8
  | guestEcn => 9
  | guestUfo => 10
  | hostTso4 => 11
  | hostTso6 => 12
  | hostEcn => 13
  | hostUfo => 14
  | mrgRxbuf => 15
  | status => 16
  | ctrlVq => 17
  | ctrlRx => 18
  | ctrlVlan => 19
  | guestAnnounce => 21
  | mq => 22
  | ctrlMacAddr => 23
  | rscExt => 61
  | standby => 62

/-- "Requires": one of these has to be there, if any is listed. -/
def requires : Feature → List Feature
  | guestTso4 => [guestCsum]
  | guestTso6 => [guestCsum]
  | guestEcn => [guestTso4, guestTso6]
  | guestUfo => [guestCsum]
  | hostTso4 => [csum]
  | hostTso6 => [csum]
  | hostEcn => [hostTso4, hostTso6]
  | hostUfo => [csum]
  | ctrlRx => [ctrlVq]
  | ctrlVlan => [ctrlVq]
  | guestAnnounce => [ctrlVq]
  | mq => [ctrlVq]
  | ctrlMacAddr => [ctrlVq]
  | rscExt => [hostTso4, hostTso6]
  | _ => []

def all : List Feature :=
  [csum, guestCsum, ctrlGO, mtu, mac, guestTso4, guestTso6, guestEcn, guestUfo, hostTso4, hostTso6,
    hostEcn, hostUfo, mrgRxbuf, status, ctrlVq, ctrlRx, ctrlVlan, guestAnnounce, mq, ctrlMacAddr,
    rscExt, standby]

theorem mem_all (f : Feature) : f ∈ all := by
  cases f <;> decide

end Feature

/-- The word has the feature. -/
def Has (features : BitVec 32) (f : Feature) : Prop := features.getLsbD f.bit = true

instance (features : BitVec 32) (f : Feature) : Decidable (Has features f) :=
  inferInstanceAs (Decidable (_ = _))

/-- Every feature comes together with what it requires. -/
def Respects (features : BitVec 32) : Prop :=
  ∀ f, Has features f → f.requires ≠ [] → ∃ g ∈ f.requires, Has features g

instance (features : BitVec 32) : Decidable (Respects features) :=
  decidable_of_iff (∀ f ∈ Feature.all, Has features f → f.requires ≠ [] →
    ∃ g ∈ f.requires, Has features g) ⟨fun h f => h f f.mem_all, fun h f _ => h f⟩

/-! ## `negotiate` -/

/-- `DISABLE_FEATURE`. -/
def disableFeature (v : BitVec 32) (feature : Feature) : BitVec 32 :=
  v &&& ~~~(1#32 <<< feature.bit)

def negotiate (features : BitVec 32) : BitVec 32 :=
  let features := disableFeature features .mrgRxbuf
  let features := disableFeature features .ctrlVq
  let features := disableFeature features .ctrlRx
  let features := disableFeature features .ctrlVlan
  let features := disableFeature features .guestAnnounce
  disableFeature features .ctrlMacAddr

/-- The example in front of the source. -/
example : negotiate 0b01111001101111111000000001100100 = 0b01111001000100010000000001100100 := by
  decide

/-- The features that `negotiate` clears. -/
def refused : List Feature :=
  [.mrgRxbuf, .ctrlVq, .ctrlRx, .ctrlVlan, .guestAnnounce, .ctrlMacAddr]

theorem Feature.bit_injective : Function.Injective Feature.bit := by
  intro f g h
  cases f <;> cases g <;> first | rfl | exact absurd h (by decide)

theorem getLsbD_disableFeature (v : BitVec 32) (feature : Feature) (i : Nat) :
    (disableFeature v feature).getLsbD i = (v.getLsbD i && decide (i ≠ feature.bit)) := by
  unfold disableFeature
  by_cases hi : i < 32
  · rw [← BitVec.twoPow_eq, BitVec.getLsbD_and, BitVec.getLsbD_not, BitVec.getLsbD_twoPow]
    congr 1
    by_cases hbit : feature.bit = i
    · subst hbit
      simp [hi]
    · simp [hi, hbit, Ne.symm hbit]
  · have hge : 32 ≤ i := Nat.le_of_not_lt hi
    rw [BitVec.getLsbD_of_ge _ _ hge, BitVec.getLsbD_of_ge _ _ hge, Bool.false_and]

theorem has_disableFeature (v : BitVec 32) (feature f : Feature) :
    Has (disableFeature v feature) f ↔ Has v f ∧ f ≠ feature := by
  unfold Has
  rw [getLsbD_disableFeature, Bool.and_eq_true, decide_eq_true_iff,
    Feature.bit_injective.ne_iff]

/-- No bit is added. -/
theorem negotiate_subset {features : BitVec 32} {i : Nat}
    (h : (negotiate features).getLsbD i = true) : features.getLsbD i = true := by
  unfold negotiate at h
  simp only [getLsbD_disableFeature, Bool.and_eq_true] at h
  exact h.1.1.1.1.1.1

theorem has_negotiate (features : BitVec 32) (f : Feature) :
    Has (negotiate features) f ↔ Has features f ∧ f ∉ refused := by
  unfold negotiate refused
  simp only [has_disableFeature, List.mem_cons, List.not_mem_nil, or_false, not_or, and_assoc]

/-- Of what is not refused, only `VIRTIO_MQ` requires something that is. -/
theorem requires_not_refused {f g : Feature} (hf : f ∉ refused) (hmq : f ≠ .mq)
    (hg : g ∈ f.requires) : g ∉ refused := by
  cases f <;> first
    | exact absurd rfl hmq
    | exact absurd (by decide) hf
    | (revert g; decide)

/-- For every offer that respects the requirements: `negotiate` leaves a part of it that
respects them exactly when `VIRTIO_MQ` was not offered. -/
theorem negotiate_respects_iff {features : BitVec 32} (h : Respects features) :
    ((∀ i, (negotiate features).getLsbD i = true → features.getLsbD i = true) ∧
      Respects (negotiate features)) ↔ ¬ Has features .mq := by
  constructor
  · rintro ⟨-, hrespects⟩ hmq
    have hleft : Has (negotiate features) .mq := (has_negotiate _ _).mpr ⟨hmq, by decide⟩
    obtain ⟨g, hg, hhas⟩ := hrespects .mq hleft (by decide)
    obtain rfl : g = .ctrlVq := List.mem_singleton.mp hg
    exact ((has_negotiate _ _).mp hhas).2 (by decide)
  · intro hmq
    refine ⟨fun i => negotiate_subset, fun f hf hneeds => ?_⟩
    obtain ⟨hoffered, hkept⟩ := (has_negotiate _ _).mp hf
    obtain ⟨g, hg, hhas⟩ := h f hoffered hneeds
    have hne : f ≠ .mq := by
      rintro rfl
      exact hmq hoffered
    exact ⟨g, hg, (has_negotiate _ _).mpr ⟨hhas, requires_not_refused hkept hne hg⟩⟩

/-- The offer of the example in front of the source. -/
theorem negotiate_respects_iff_example :
    ((∀ i, (negotiate 0b01111001101111111000000001100100).getLsbD i = true →
      (0b01111001101111111000000001100100 : BitVec 32).getLsbD i = true) ∧
      Respects (negotiate 0b01111001101111111000000001100100)) ↔
      ¬ Has 0b01111001101111111000000001100100 .mq :=
  negotiate_respects_iff (by decide)

/-- An offer of the control queue and of `VIRTIO_MQ`: only `VIRTIO_MQ` is left. -/
theorem negotiate_keeps_mq : Respects 0x00420000 ∧ ¬ Respects (negotiate 0x00420000) := by
  decide

end DonutOS.Kernel
