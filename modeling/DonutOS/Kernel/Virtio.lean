import DonutOS.Foundation.Loop
import Mathlib.Logic.Function.Basic

set_option autoImplicit false

/-!
# Kernel: a queue of the virtio device (`kernel/src/virtio_net.c`)

The descriptor table and the two rings of a queue, as the driver and the device
see them.  `virtio_send_descriptor` remembers where it writes; no code reads
that.
-/

namespace DonutOS.Kernel

open DonutOS.Foundation

/-- `VIRTQ_DESC_F_NEXT`. -/
def virtqDescFNext : Nat := 1

/-- A `vring_desc`. -/
structure VringDesc where
  addr : Nat
  len : Nat
  flags : Nat
  next : Nat
  deriving DecidableEq, Repr, Inhabited

/-- A `vring_used_elem`. -/
structure VringUsedElem where
  id : Nat
  len : Nat
  deriving DecidableEq, Repr, Inhabited

/-- A `vring`: the descriptor table, the available ring and the used ring. -/
structure Vring where
  num : Nat
  desc : Nat → VringDesc
  availIdx : Nat
  availRing : Nat → Nat
  usedIdx : Nat
  usedRing : Nat → VringUsedElem
  descNextIdx : Nat

/-- After `virtio_init_queue`: the memory comes from `calloc`. -/
def virtioInitQueue (queueSize : Nat) : Vring where
  num := queueSize
  desc := fun _ => ⟨0, 0, 0, 0⟩
  availIdx := 0
  availRing := fun _ => 0
  usedIdx := 0
  usedRing := fun _ => ⟨0, 0⟩
  descNextIdx := 0

/-! ## `virtio_send_descriptor` -/

/-- The loop of `virtio_send_descriptor`: the table, `desc_index`, and the descriptors
written so far. -/
structure SendLoop where
  desc : Nat → VringDesc
  descIndex : Nat
  written : List Nat

/-- A round of the loop. -/
def sendRound (num count : Nat) (buffers : Nat → VringDesc) (i : Nat) (st : SendLoop) :
    SendLoop :=
  let nextBufferIndex := (st.descIndex + 1) % num
  let flags := (buffers i).flags
  let flags := if i ≠ count - 1 then flags ||| virtqDescFNext else flags
  let d : VringDesc := ⟨(buffers i).addr, (buffers i).len, flags, nextBufferIndex⟩
  { desc := Function.update st.desc st.descIndex d
    descIndex := nextBufferIndex
    written := st.written ++ [st.descIndex] }

/-- The whole loop. -/
def sendLoop (buffers : Nat → VringDesc) (count : Nat) (vq : Vring) : SendLoop :=
  forLoop (sendRound vq.num count buffers) 0 count ⟨vq.desc, vq.descNextIdx, []⟩

/-- The slot of the available ring that `virtio_send_descriptor` writes. -/
def sentSlot (vq : Vring) : Nat := vq.availIdx % vq.num

/-- `virtio_send_descriptor`, without the notification. -/
def virtioSendDescriptor (buffers : Nat → VringDesc) (count : Nat) (vq : Vring) : Vring :=
  let st := sendLoop buffers count vq
  { vq with
    availRing := Function.update vq.availRing (sentSlot vq) vq.descNextIdx
    desc := st.desc
    descNextIdx := st.descIndex
    availIdx := (vq.availIdx + 1) % 2 ^ 16 }

/-- The device returns the chain that starts at descriptor `id`. -/
def usedAppend (id len : Nat) (vq : Vring) : Vring :=
  { vq with
    usedRing := Function.update vq.usedRing (vq.usedIdx % vq.num) ⟨id, len⟩
    usedIdx := (vq.usedIdx + 1) % 2 ^ 16 }

/-! ## Driver and device -/

/-- A chain that was published: its first descriptor, its slot in the available ring,
all its descriptors, and how many chains and descriptors were published before
it. -/
structure Chain where
  head : Nat
  slot : Nat
  descs : List Nat
  seq : Nat
  start : Nat
  deriving DecidableEq, Repr

/-- The queue, the chains that the device has not returned, and how many chains and
descriptors were published. -/
structure QueueState where
  vring : Vring
  outstanding : List Chain
  sent : Nat
  published : Nat

inductive QueueEvent
  | send (buffers : Nat → VringDesc) (count : Nat)
  /-- the device returns a chain, in any order -/
  | complete (chain : Chain) (len : Nat)

/-- The chain that a call publishes. -/
def sentChain (buffers : Nat → VringDesc) (count : Nat) (s : QueueState) : Chain where
  head := s.vring.descNextIdx
  slot := sentSlot s.vring
  descs := (sendLoop buffers count s.vring).written
  seq := s.sent
  start := s.published

/-- The queue after a call. -/
def sendQueue (buffers : Nat → VringDesc) (count : Nat) (s : QueueState) : QueueState where
  vring := virtioSendDescriptor buffers count s.vring
  outstanding := sentChain buffers count s :: s.outstanding
  sent := s.sent + 1
  published := s.published + count

/-- The queue after the device has returned a chain. -/
def completeQueue (chain : Chain) (len : Nat) (s : QueueState) : QueueState :=
  { s with
    vring := usedAppend chain.head len s.vring
    outstanding := s.outstanding.filter fun c => c ≠ chain }

inductive QueueStep : QueueState → QueueEvent → QueueState → Prop
  | send {s : QueueState} {buffers : Nat → VringDesc} {count : Nat} (hpos : 1 ≤ count)
      (hcount : count ≤ s.vring.num) :
      QueueStep s (.send buffers count) (sendQueue buffers count s)
  | complete {s : QueueState} {chain : Chain} {len : Nat} (hout : chain ∈ s.outstanding) :
      QueueStep s (.complete chain len) (completeQueue chain len s)

/-- A fresh queue. -/
def queueStart (num : Nat) : QueueState := ⟨virtioInitQueue num, [], 0, 0⟩

end DonutOS.Kernel
