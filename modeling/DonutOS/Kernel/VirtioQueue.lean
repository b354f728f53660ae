import DonutOS.Foundation.Path
import DonutOS.Foundation.RingBuffer
import DonutOS.Kernel.Virtio

set_option autoImplicit false

/-!
# Kernel: descriptors in flight (`kernel/src/virtio_net.c`)

`virtio_send_descriptor` takes the next descriptors of the table, whether the
device has returned them or not; it never looks at the used ring.  With the
positions of descriptors counted without end, it is safe exactly as long as it
stays less than a round ahead of the oldest chain in flight.
-/

namespace DonutOS.Kernel

open DonutOS.Foundation

/-- A call overwrites no descriptor and no slot of a chain in flight. -/
def SendSafe (s : QueueState) : QueueEvent → QueueState → Prop
  | .send buffers count, _ => ∀ chain ∈ s.outstanding,
      (∀ d ∈ chain.descs, d ∉ (sendLoop buffers count s.vring).written) ∧
        chain.slot ≠ sentSlot s.vring
  | .complete _ _, _ => True

/-- The descriptors published since the start of any chain in flight, that chain
included, and those of the call fit the table. -/
def RoomFor (s : QueueState) : QueueEvent → Prop
  | .send _ count => ∀ chain ∈ s.outstanding,
      s.published - chain.start + count ≤ s.vring.num
  | .complete _ _ => True

/-- A chain in flight: where its slot and its descriptors are, and that it is less than a
round old. -/
structure InFlight (num sent published : Nat) (chain : Chain) : Prop where
  slot : chain.slot = chain.seq % num
  older : chain.seq < sent
  recent : chain.start < published
  round : published ≤ chain.start + num
  calls : sent - chain.seq ≤ published - chain.start
  descs : ∃ n, 0 < n ∧ chain.start + n ≤ published ∧ chain.descs = stretch num chain.start n

/-- The invariant. -/
structure QueueInv (num : Nat) (s : QueueState) : Prop where
  size : s.vring.num = num
  desc : s.vring.descNextIdx = s.published % num
  avail : s.vring.availIdx = s.sent % 2 ^ 16
  flight : ∀ chain ∈ s.outstanding, InFlight num s.sent s.published chain

/-- A length of a queue: a power of two up to 32768. -/
def QueueSize (num : Nat) : Prop := ∃ k ≤ 15, num = 2 ^ k

/-- The 16-bit index and the ring wrap together. -/
theorem QueueSize.dvd {num : Nat} (h : QueueSize num) : num ∣ 2 ^ 16 := by
  obtain ⟨k, hk, rfl⟩ := h
  exact Nat.pow_dvd_pow 2 (by omega)

theorem queueInv_queueStart {num : Nat} : QueueInv num (queueStart num) where
  size := rfl
  desc := (Nat.zero_mod num).symm
  avail := rfl
  flight := by
    intro chain hchain
    cases hchain

/-! ## What a call writes -/

/-- The loop writes the next descriptors, one behind the other. -/
theorem sendLoop_spec {num : Nat} {s : QueueState} (h : QueueInv num s)
    (buffers : Nat → VringDesc) (count : Nat) :
    (sendLoop buffers count s.vring).written = stretch num s.published count ∧
      (sendLoop buffers count s.vring).descIndex = (s.published + count) % num := by
  have hloop := forLoop_invariant
    (fun i (st : SendLoop) => st.written = stretch num s.published i ∧
      st.descIndex = (s.published + i) % num)
    (f := sendRound s.vring.num count buffers) count 0 ⟨s.vring.desc, s.vring.descNextIdx, []⟩
    ⟨rfl, h.desc⟩ (fun i st _ _ hst => by
      obtain ⟨hwritten, hindex⟩ := hst
      unfold sendRound
      simp only
      refine ⟨?_, ?_⟩
      · rw [stretch_succ, hwritten, hindex]
      · rw [h.size, hindex, Nat.mod_add_mod, Nat.add_assoc])
  rw [Nat.zero_add] at hloop
  exact hloop

theorem sentSlot_eq {num : Nat} {s : QueueState} (hnum : QueueSize num) (h : QueueInv num s) :
    sentSlot s.vring = s.sent % num := by
  unfold sentSlot
  rw [h.avail, h.size, Nat.mod_mod_of_dvd _ hnum.dvd]

/-! ## Steps -/

/-- In the invariant, a call is safe exactly when there is room for it. -/
theorem sendSafe_iff {num : Nat} {s t : QueueState} (hnum : QueueSize num) (h : QueueInv num s)
    {buffers : Nat → VringDesc} {count : Nat} (hpos : 1 ≤ count) :
    SendSafe s (.send buffers count) t ↔ RoomFor s (.send buffers count) := by
  have hwritten := (sendLoop_spec h buffers count).1
  have hslot := sentSlot_eq hnum h
  constructor
  · intro hsafe chain hchain
    have hflight := h.flight chain hchain
    have hround := hflight.round
    have hrecent := hflight.recent
    rw [h.size]
    by_contra hfull
    -- the first descriptor of the chain is one round behind a position of the call
    obtain ⟨n, hn, -, hdescs⟩ := hflight.descs
    have hold : chain.start % num ∈ chain.descs := by
      rw [hdescs]
      exact mem_stretch.mpr ⟨chain.start, Nat.le_refl _, by omega, rfl⟩
    have hnew := (hsafe chain hchain).1 _ hold
    rw [hwritten] at hnew
    exact hnew (start_mem_stretch hround (by omega))
  · intro hroom chain hchain
    have hflight := h.flight chain hchain
    have hfits := hroom chain hchain
    have hrecent := hflight.recent
    have holder := hflight.older
    have hcalls := hflight.calls
    rw [h.size] at hfits
    refine ⟨fun d hd => ?_, ?_⟩
    · obtain ⟨n, -, hend, hdescs⟩ := hflight.descs
      rw [hdescs] at hd
      rw [hwritten]
      exact stretch_disjoint hend (by omega) hd
    · rw [hslot, hflight.slot]
      exact mod_ne_of_lt holder (by omega)

theorem QueueInv.send {num : Nat} {s : QueueState} (hnum : QueueSize num) (h : QueueInv num s)
    {buffers : Nat → VringDesc} {count : Nat} (hpos : 1 ≤ count) (hcount : count ≤ s.vring.num)
    (hroom : RoomFor s (.send buffers count)) :
    QueueInv num (sendQueue buffers count s) := by
  obtain ⟨hwritten, hindex⟩ := sendLoop_spec h buffers count
  rw [h.size] at hcount
  refine ⟨h.size, hindex, ?_, ?_⟩
  · change (s.vring.availIdx + 1) % 2 ^ 16 = (s.sent + 1) % 2 ^ 16
    rw [h.avail, Nat.mod_add_mod]
  · intro chain hchain
    rcases List.mem_cons.mp hchain with rfl | hchain
    · refine ⟨sentSlot_eq hnum h, Nat.lt_succ_self _, ?_, ?_, ?_, count, hpos, Nat.le_refl _,
        hwritten⟩
      · exact Nat.lt_add_of_pos_right hpos
      · exact Nat.add_le_add_left hcount _
      · simp only [sentChain, sendQueue]
        omega
    · have hflight := h.flight chain hchain
      have hfits := hroom chain hchain
      have hrecent := hflight.recent
      have holder := hflight.older
      have hcalls := hflight.calls
      rw [h.size] at hfits
      obtain ⟨n, hn, hend, hdescs⟩ := hflight.descs
      refine ⟨hflight.slot, ?_, ?_, ?_, ?_, n, hn, ?_, hdescs⟩
      all_goals
        simp only [sendQueue]
        omega

theorem QueueInv.complete {num : Nat} {s : QueueState} (h : QueueInv num s) (chain : Chain)
    (len : Nat) : QueueInv num (completeQueue chain len s) where
  size := h.size
  desc := h.desc
  avail := h.avail
  flight := fun c hc => h.flight c (List.mem_of_mem_filter hc)

theorem queueStep_safe_iff {num : Nat} {s t : QueueState} {event : QueueEvent}
    (hnum : QueueSize num) (h : QueueInv num s) (hstep : QueueStep s event t) :
    (SendSafe s event t ↔ RoomFor s event) ∧ (RoomFor s event → QueueInv num t) := by
  cases hstep with
  | send hpos hcount => exact ⟨sendSafe_iff hnum h hpos, h.send hnum hpos hcount⟩
  | complete _ => exact ⟨Iff.rfl, fun _ => h.complete _ _⟩

/-- Over every run of calls and completions, in any order: no call overwrites anything of
a chain in flight if and only if every call finds room for its descriptors. -/
theorem queueRuns_safe_iff {num : Nat} (hnum : QueueSize num)
    {path : List (QueueEvent × QueueState)} (hpath : IsPath QueueStep (queueStart num) path) :
    IsPath SendSafe (queueStart num) path ↔ StepsMeet RoomFor (queueStart num) path := by
  have hstep : ∀ s event t, QueueInv num s → QueueStep s event t →
      (SendSafe s event t ↔ RoomFor s event) ∧ (RoomFor s event → QueueInv num t) :=
    fun _ _ _ hinv hstep => queueStep_safe_iff hnum hinv hstep
  exact hpath.steps_iff_of_ok hstep queueInv_queueStart

/-- The buffers of `virtio_net_init`. -/
def rxBuffers : Nat → VringDesc := fun _ => ⟨0, 1514, 2, 0⟩

/-- Two calls with 20 buffers on a queue of 32, and the device returns the first chain
before the second call, which goes round the end of the table. -/
theorem exists_returnedPath : ∃ path : List (QueueEvent × QueueState),
    path.map Prod.fst = [.send rxBuffers 20,
      .complete (sentChain rxBuffers 20 (queueStart 32)) 0, .send rxBuffers 20] ∧
    IsPath QueueStep (queueStart 32) path ∧ StepsMeet RoomFor (queueStart 32) path := by
  refine ⟨[(_, _), (_, _), (_, _)], rfl,
    ⟨.send (by decide) (by decide), .complete List.mem_cons_self, .send (by decide) (by decide),
      trivial⟩, ⟨fun _ hchain => (nomatch hchain), trivial, fun chain hchain => ?_, trivial⟩⟩
  -- nothing is in flight at the second call
  obtain ⟨hout, hother⟩ := List.mem_filter.mp hchain
  rw [List.mem_singleton.mp hout] at hother
  exact absurd rfl (of_decide_eq_true hother)

theorem queueRuns_safe_iff_two : ∃ path : List (QueueEvent × QueueState),
    path.map Prod.fst = [.send rxBuffers 20,
      .complete (sentChain rxBuffers 20 (queueStart 32)) 0, .send rxBuffers 20] ∧
    IsPath QueueStep (queueStart 32) path ∧ IsPath SendSafe (queueStart 32) path := by
  obtain ⟨path, hlabels, hpath, hmeet⟩ := exists_returnedPath
  exact ⟨path, hlabels, hpath, (queueRuns_safe_iff ⟨5, by decide, rfl⟩ hpath).mpr hmeet⟩

/-- Two calls with 20 buffers on a queue of 32, and the device returns nothing: the second
one overwrites descriptor 0 of the first. -/
theorem queueRuns_overwritten : ∃ path : List (QueueEvent × QueueState),
    path.map Prod.fst = [.send rxBuffers 20, .send rxBuffers 20] ∧
      IsPath QueueStep (queueStart 32) path ∧ ¬ IsPath SendSafe (queueStart 32) path := by
  have hfirst : QueueStep (queueStart 32) (.send rxBuffers 20)
      (sendQueue rxBuffers 20 (queueStart 32)) := .send (by decide) (by decide)
  have hsecond : QueueStep (sendQueue rxBuffers 20 (queueStart 32)) (.send rxBuffers 20)
      (sendQueue rxBuffers 20 (sendQueue rxBuffers 20 (queueStart 32))) :=
    .send (by decide) (by decide)
  refine ⟨[(_, _), (_, _)], rfl, ⟨hfirst, hsecond, trivial⟩, fun hsafe => ?_⟩
  have hchain := hsafe.2.1 (sentChain rxBuffers 20 (queueStart 32)) List.mem_cons_self
  exact hchain.1 0 (by decide) (by decide)

end DonutOS.Kernel
