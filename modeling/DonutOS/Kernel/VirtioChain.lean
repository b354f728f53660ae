import DonutOS.Kernel.VirtioQueue

set_option autoImplicit false

/-!
# Kernel: the chains that a queue publishes (`kernel/src/virtio_net.c`)

A call of `virtio_send_descriptor` links the next descriptors of the table into a chain and
puts its head into the available ring.  The ring's length divides the range of its 16-bit
index, so that over any run of calls one chain goes behind the other.
-/

namespace DonutOS.Kernel

open DonutOS.Foundation

/-- A call of `virtio_send_descriptor`. -/
structure SendCall where
  buffers : Nat → VringDesc
  count : Nat

/-- One buffer or more, not more than the queue has descriptors, and none with `NEXT`. -/
structure SendCall.Ok (num : Nat) (call : SendCall) : Prop where
  pos : 1 ≤ call.count
  le : call.count ≤ num
  last : ∀ i < call.count, (call.buffers i).flags &&& virtqDescFNext = 0

/-- The calls, from left to right. -/
def sendAll (calls : List SendCall) (vq : Vring) : Vring :=
  calls.foldl (fun vq call => virtioSendDescriptor call.buffers call.count vq) vq

/-- From a descriptor, `next` leads through the table as long as `NEXT` is set. -/
inductive Follows (desc : Nat → VringDesc) : Nat → List Nat → Prop
  | last {d : Nat} (hlast : (desc d).flags &&& virtqDescFNext = 0) : Follows desc d [d]
  | next {d : Nat} {ds : List Nat} (hnext : (desc d).flags &&& virtqDescFNext ≠ 0)
      (hrest : Follows desc (desc d).next ds) : Follows desc d (d :: ds)

/-- A descriptor carries a buffer, with or without `NEXT`. -/
structure Carries (buffer : VringDesc) (more : Prop) [Decidable more] (d : VringDesc) : Prop where
  addr : d.addr = buffer.addr
  len : d.len = buffer.len
  flags : d.flags = if more then buffer.flags ||| virtqDescFNext else buffer.flags

/-- `ds` is the chain of a call, and no other descriptor has changed. -/
structure ChainSent (call : SendCall) (head : Nat) (vq vq' : Vring) (ds : List Nat) : Prop where
  follows : Follows vq'.desc head ds
  distinct : ds.Nodup
  length : ds.length = call.count
  inTable : ∀ d ∈ ds, d < vq.num
  carries : ∀ i (hi : i < ds.length),
    Carries (call.buffers i) (i ≠ call.count - 1) (vq'.desc ds[i])
  kept : ∀ d, d ∉ ds → vq'.desc d = vq.desc d

/-- What a call is to do: put the chain's head into `slot`, and change nothing else. -/
structure Sent (slot : Nat) (call : SendCall) (vq vq' : Vring) : Prop where
  chain : ∃ ds, ChainSent call (vq'.availRing slot) vq vq' ds
  ring : ∀ i, i ≠ slot → vq'.availRing i = vq.availRing i
  availIdx : vq'.availIdx = (vq.availIdx + 1) % 2 ^ 16
  descNextIdx : vq'.descNextIdx < vq'.num
  num : vq'.num = vq.num
  used : vq'.usedIdx = vq.usedIdx ∧ vq'.usedRing = vq.usedRing

/-! ## A call -/

/-- The descriptor that round `i` writes. -/
def sentDesc (call : SendCall) (vq : Vring) (i : Nat) : VringDesc where
  addr := (call.buffers i).addr
  len := (call.buffers i).len
  flags := if i ≠ call.count - 1 then (call.buffers i).flags ||| virtqDescFNext
    else (call.buffers i).flags
  next := (vq.descNextIdx + (i + 1)) % vq.num

/-- After `i` rounds. -/
structure ChainWritten (call : SendCall) (vq : Vring) (i : Nat) (st : SendLoop) : Prop where
  index : st.descIndex = (vq.descNextIdx + i) % vq.num
  desc : ∀ j < i, st.desc ((vq.descNextIdx + j) % vq.num) = sentDesc call vq j
  kept : ∀ d, d ∉ stretch vq.num vq.descNextIdx i → st.desc d = vq.desc d

theorem ChainWritten.round {call : SendCall} {vq : Vring} {i : Nat} {st : SendLoop}
    (h : ChainWritten call vq i st) (hi : i < vq.num) :
    ChainWritten call vq (i + 1) (sendRound vq.num call.count call.buffers i st) where
  index := by
    change (st.descIndex + 1) % vq.num = _
    rw [h.index, Nat.mod_add_mod, Nat.add_assoc]
  desc := by
    have hdesc : (⟨(call.buffers i).addr, (call.buffers i).len,
        if i ≠ call.count - 1 then (call.buffers i).flags ||| virtqDescFNext
          else (call.buffers i).flags, (st.descIndex + 1) % vq.num⟩ : VringDesc) =
        sentDesc call vq i := by
      rw [h.index, Nat.mod_add_mod, Nat.add_assoc]
      rfl
    intro j hj
    change Function.update st.desc st.descIndex _ _ = _
    rw [hdesc, h.index]
    by_cases hlast : j = i
    · rw [hlast, Function.update_self]
    · have hlt : j < i := by omega
      rw [Function.update_of_ne (mod_ne_of_lt (by omega) (by omega))]
      exact h.desc j hlt
  kept := by
    intro d hd
    rw [stretch_succ, List.mem_append, List.mem_singleton, not_or] at hd
    change Function.update st.desc st.descIndex _ d = _
    rw [h.index, Function.update_of_ne hd.2]
    exact h.kept d hd.1

theorem sendLoop_written {call : SendCall} {vq : Vring} (hcount : call.count ≤ vq.num)
    (hindex : vq.descNextIdx < vq.num) :
    ChainWritten call vq call.count (sendLoop call.buffers call.count vq) := by
  have hloop := forLoop_invariant (fun i st => ChainWritten call vq i st)
    (f := sendRound vq.num call.count call.buffers) call.count 0 ⟨vq.desc, vq.descNextIdx, []⟩
    ⟨(Nat.mod_eq_of_lt hindex).symm, fun j hj => absurd hj (Nat.not_lt_zero j), fun _ _ => rfl⟩
    fun i st _ hi h => h.round (by omega)
  rwa [Nat.zero_add] at hloop

theorem or_next_and_next (flags : Nat) : (flags ||| virtqDescFNext) &&& virtqDescFNext ≠ 0 := by
  have hself : virtqDescFNext &&& virtqDescFNext = 1 := rfl
  rw [Nat.and_or_distrib_right, hself]
  exact fun hzero => absurd (Nat.or_eq_zero_iff.mp hzero).2 nofun

/-- From every descriptor of the chain on, the rest of it is visited. -/
theorem follows_stretch {call : SendCall} {vq : Vring} {st : SendLoop} {num : Nat}
    (hok : call.Ok num) (h : ChainWritten call vq call.count st) :
    ∀ n i, i + n + 1 = call.count →
      Follows st.desc ((vq.descNextIdx + i) % vq.num)
        (stretch vq.num (vq.descNextIdx + i) (n + 1)) := by
  intro n
  induction n with
  | zero =>
      intro i hi
      have hdesc := h.desc i (by omega)
      refine .last ?_
      rw [hdesc]
      unfold sentDesc
      rw [if_neg (by omega)]
      exact hok.last i (by omega)
  | succ n ih =>
      intro i hi
      have hdesc := h.desc i (by omega)
      rw [stretch_cons]
      refine .next ?_ ?_
      · rw [hdesc]
        unfold sentDesc
        rw [if_pos (by omega)]
        exact or_next_and_next _
      · have hrest := ih (i + 1) (by omega)
        rw [hdesc]
        exact hrest

theorem chainSent {call : SendCall} {vq : Vring} (hok : call.Ok vq.num)
    (hindex : vq.descNextIdx < vq.num) :
    ChainSent call vq.descNextIdx vq (virtioSendDescriptor call.buffers call.count vq)
      (stretch vq.num vq.descNextIdx call.count) := by
  have hpos := hok.pos
  have hwritten := sendLoop_written hok.le hindex
  refine ⟨?_, stretch_nodup hok.le, length_stretch _ _ _, ?_, ?_, hwritten.kept⟩
  · obtain ⟨n, hn⟩ : ∃ n, call.count = n + 1 := ⟨call.count - 1, by omega⟩
    have hfollows := follows_stretch hok hwritten n 0 (by omega)
    rw [Nat.add_zero, Nat.mod_eq_of_lt hindex, ← hn] at hfollows
    exact hfollows
  · intro d hd
    obtain ⟨q, -, -, rfl⟩ := mem_stretch.mp hd
    exact Nat.mod_lt _ (by omega)
  · intro i hi
    rw [length_stretch] at hi
    have hdesc := hwritten.desc i hi
    rw [getElem_stretch]
    change Carries _ _ ((sendLoop call.buffers call.count vq).desc _)
    rw [hdesc]
    exact ⟨rfl, rfl, rfl⟩

theorem sent_virtioSendDescriptor {call : SendCall} {vq : Vring} (hok : call.Ok vq.num)
    (hindex : vq.descNextIdx < vq.num) :
    Sent (sentSlot vq) call vq (virtioSendDescriptor call.buffers call.count vq) where
  chain := by
    have hhead : (virtioSendDescriptor call.buffers call.count vq).availRing (sentSlot vq) =
        vq.descNextIdx := Function.update_self _ _ _
    rw [hhead]
    exact ⟨_, chainSent hok hindex⟩
  ring := fun _ hi => Function.update_of_ne hi _ _
  availIdx := rfl
  descNextIdx := by
    have hpos := hok.pos
    have hle := hok.le
    change (sendLoop call.buffers call.count vq).descIndex < vq.num
    rw [(sendLoop_written hle hindex).index]
    exact Nat.mod_lt _ (by omega)
  num := rfl
  used := ⟨rfl, rfl⟩

/-! ## Runs of calls -/

theorem sendAll_take_succ {calls : List SendCall} {k : Nat} (hk : k < calls.length) (vq : Vring) :
    sendAll (calls.take (k + 1)) vq = virtioSendDescriptor calls[k].buffers calls[k].count
      (sendAll (calls.take k) vq) := by
  unfold sendAll
  rw [List.take_succ_eq_append_getElem hk, List.foldl_append]
  rfl

/-- After `k` calls. -/
structure SentSoFar (vq : Vring) (k : Nat) (vq' : Vring) : Prop where
  num : vq'.num = vq.num
  descNextIdx : vq'.descNextIdx < vq'.num
  availIdx : vq'.availIdx = (vq.availIdx + k) % 2 ^ 16

theorem SentSoFar.send {vq vq' : Vring} {k : Nat} {call : SendCall} (h : SentSoFar vq k vq')
    (hok : call.Ok vq.num) :
    SentSoFar vq (k + 1) (virtioSendDescriptor call.buffers call.count vq') := by
  have hsent := sent_virtioSendDescriptor (h.num.symm ▸ hok) h.descNextIdx
  refine ⟨hsent.num.trans h.num, hsent.descNextIdx, ?_⟩
  rw [hsent.availIdx, h.availIdx, Nat.mod_add_mod, Nat.add_assoc]

theorem SentSoFar.slot {vq vq' : Vring} {k : Nat} (h : SentSoFar vq k vq')
    (hnum : QueueSize vq.num) : sentSlot vq' = (vq.availIdx + k) % vq.num := by
  unfold sentSlot
  rw [h.availIdx, h.num, Nat.mod_mod_of_dvd _ hnum.dvd]

section Runs

variable {vq : Vring} {calls : List SendCall}

theorem sentSoFar (hindex : vq.descNextIdx < vq.num) (hidx : vq.availIdx < 2 ^ 16)
    (hcalls : ∀ call ∈ calls, call.Ok vq.num) :
    ∀ k ≤ calls.length, SentSoFar vq k (sendAll (calls.take k) vq) := by
  intro k
  induction k with
  | zero => exact fun _ => ⟨rfl, hindex, (Nat.mod_eq_of_lt hidx).symm⟩
  | succ k ih =>
      intro hk
      rw [sendAll_take_succ hk]
      exact (ih (Nat.le_of_succ_le hk)).send (hcalls _ (List.getElem_mem hk))

/-- The slot of a chain is written again after a whole round of the ring. -/
theorem availRing_kept (hnum : QueueSize vq.num) (hindex : vq.descNextIdx < vq.num)
    (hidx : vq.availIdx < 2 ^ 16) (hcalls : ∀ call ∈ calls, call.Ok vq.num) {k : Nat} :
    ∀ n < vq.num, k + 1 + n ≤ calls.length →
      (sendAll (calls.take (k + 1 + n)) vq).availRing ((vq.availIdx + k) % vq.num) =
        (sendAll (calls.take (k + 1)) vq).availRing ((vq.availIdx + k) % vq.num) := by
  intro n
  induction n with
  | zero => exact fun _ _ => rfl
  | succ n ih =>
      intro hn hlen
      have hsofar := sentSoFar hindex hidx hcalls (k + 1 + n) (by omega)
      have hnext : k + 1 + n < calls.length := by omega
      have hok := hcalls _ (List.getElem_mem hnext)
      have hsent := sent_virtioSendDescriptor (hsofar.num.symm ▸ hok) hsofar.descNextIdx
      have hne : (vq.availIdx + k) % vq.num ≠ sentSlot (sendAll (calls.take (k + 1 + n)) vq) := by
        rw [hsofar.slot hnum]
        exact mod_ne_of_lt (by omega) (by omega)
      have hround : k + 1 + (n + 1) = k + 1 + n + 1 := rfl
      rw [hround, sendAll_take_succ hnext, hsent.ring _ hne]
      exact ih (by omega) (by omega)

/-- For every queue and every run of calls, also past the wrap of the index: call `k` puts
the head of its chain into slot `k` behind the first one, and changes nothing else; the
head stays there until the ring comes round. -/
theorem sendAll_sent (hnum : QueueSize vq.num) (hindex : vq.descNextIdx < vq.num)
    (hidx : vq.availIdx < 2 ^ 16) (hcalls : ∀ call ∈ calls, call.Ok vq.num) {k : Nat}
    (hk : k < calls.length) :
    Sent ((vq.availIdx + k) % vq.num) calls[k] (sendAll (calls.take k) vq)
        (sendAll (calls.take (k + 1)) vq) ∧
      ∀ n < vq.num, k + 1 + n ≤ calls.length →
        (sendAll (calls.take (k + 1 + n)) vq).availRing ((vq.availIdx + k) % vq.num) =
          (sendAll (calls.take (k + 1)) vq).availRing ((vq.availIdx + k) % vq.num) := by
  have hsofar := sentSoFar hindex hidx hcalls k (Nat.le_of_lt hk)
  refine ⟨?_, availRing_kept hnum hindex hidx hcalls⟩
  rw [sendAll_take_succ hk, ← hsofar.slot hnum]
  exact sent_virtioSendDescriptor (hsofar.num.symm ▸ hcalls _ (List.getElem_mem hk))
    hsofar.descNextIdx

end Runs

/-- Two calls on a fresh queue of 32. -/
theorem sendAll_sent_two :
    Sent ((0 + 1) % 32) ⟨rxBuffers, 20⟩
        (sendAll [⟨rxBuffers, 20⟩] (virtioInitQueue 32))
        (sendAll [⟨rxBuffers, 20⟩, ⟨rxBuffers, 20⟩] (virtioInitQueue 32)) ∧
      ∀ n < 32, 2 + n ≤ 2 →
        (sendAll ([⟨rxBuffers, 20⟩, ⟨rxBuffers, 20⟩].take (2 + n)) (virtioInitQueue 32)).availRing
            ((0 + 1) % 32) =
          (sendAll [⟨rxBuffers, 20⟩, ⟨rxBuffers, 20⟩] (virtioInitQueue 32)).availRing
            ((0 + 1) % 32) := by
  have hok : (⟨rxBuffers, 20⟩ : SendCall).Ok 32 :=
    ⟨by decide, by decide, fun _ _ => (by decide : (2 : Nat) &&& virtqDescFNext = 0)⟩
  have hcalls : ∀ call ∈ [(⟨rxBuffers, 20⟩ : SendCall), ⟨rxBuffers, 20⟩],
      call.Ok (virtioInitQueue 32).num := by
    intro call hcall
    rcases List.mem_cons.mp hcall with rfl | hcall
    · exact hok
    · exact List.mem_singleton.mp hcall ▸ hok
  have hnum : QueueSize (virtioInitQueue 32).num := ⟨5, by decide, rfl⟩
  have hsecond : 1 < [(⟨rxBuffers, 20⟩ : SendCall), ⟨rxBuffers, 20⟩].length := by decide
  exact sendAll_sent hnum (by decide) (by decide) hcalls hsecond

end DonutOS.Kernel
