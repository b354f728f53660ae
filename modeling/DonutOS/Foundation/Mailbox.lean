import Mathlib.Algebra.Group.Int.Defs
import Mathlib.Algebra.Group.Nat.Defs
import Mathlib.Data.List.Basic

set_option autoImplicit false

/-!
# Foundation: a mailbox with one slot

A producer puts elements into a slot and sets a flag.  A consumer polls the flag, clears
it, reads the slot and then handles what it has read, each in a step of its own.  The
mailbox loses nothing as long as the producer finds it empty, and the consumer not
between its clearing and its reading.
-/

namespace DonutOS.Foundation

variable {α : Type}

/-- What the consumer does next. -/
inductive Consumer (α : Type)
  | poll
  | clear
  | read
  | handle (a : α)

/-- The flag, the slot, the consumer, and what was put and handled so far. -/
structure Mailbox (α : Type) where
  full : Bool
  slot : α
  consumer : Consumer α
  sent : List α
  handled : List α

namespace Mailbox

/-- The producer puts an element. -/
def put (a : α) (m : Mailbox α) : Mailbox α :=
  { m with full := true, slot := a, sent := m.sent ++ [a] }

/-- One step of the producer, which is labelled with the element, or of the consumer. -/
inductive Step : Mailbox α → Option α → Mailbox α → Prop
  | put (m : Mailbox α) (a : α) : Step m (some a) (m.put a)
  | skip (m : Mailbox α) : Step m none m
  | poll {m : Mailbox α} (hpoll : m.consumer = .poll) (hfull : m.full = true) :
      Step m none { m with consumer := .clear }
  | clear {m : Mailbox α} (hclear : m.consumer = .clear) :
      Step m none { m with full := false, consumer := .read }
  | read {m : Mailbox α} (hread : m.consumer = .read) :
      Step m none { m with consumer := .handle m.slot }
  | handle {m : Mailbox α} {a : α} (hhandle : m.consumer = .handle a) :
      Step m none { m with consumer := .poll, handled := m.handled ++ [a] }

/-- The producer finds the mailbox empty, and its last element read. -/
structure Ready (m : Mailbox α) : Prop where
  empty : m.full = false
  taken : m.consumer ≠ .read

/-- What the slot holds. -/
def held (m : Mailbox α) : List α := if m.full = true then [m.slot] else []

/-- What was put and is not handled yet, the oldest first. -/
def waiting (m : Mailbox α) : List α :=
  match m.consumer with
  | .poll | .clear => m.held
  | .read => [m.slot]
  | .handle a => a :: m.held

/-- Nothing is lost, made twice, or out of order; the flag is set until it is cleared. -/
structure Lossless (m : Mailbox α) : Prop where
  sent : m.sent = m.handled ++ m.waiting
  set : m.consumer = .clear → m.full = true
  cleared : m.consumer = .read → m.full = false

theorem held_of_full {m : Mailbox α} (h : m.full = true) : m.held = [m.slot] := if_pos h

theorem held_of_empty {m : Mailbox α} (h : m.full = false) : m.held = [] :=
  if_neg (Bool.eq_false_iff.mp h)

/-- An empty mailbox at the start. -/
theorem lossless_start (a : α) : Lossless ⟨false, a, .poll, [], []⟩ where
  sent := rfl
  set := (nomatch ·)
  cleared := (nomatch ·)

theorem Lossless.put {m : Mailbox α} (h : Lossless m) (hready : m.Ready) (a : α) :
    Lossless (m.put a) := by
  have hset := h.set
  have hsent := h.sent
  obtain ⟨hempty, htaken⟩ := hready
  have hheld := held_of_empty hempty
  refine ⟨?_, fun _ => rfl, fun hread => absurd hread htaken⟩
  change m.sent ++ [a] = m.handled ++ (m.put a).waiting
  rw [hsent, List.append_assoc]
  congr 1
  cases hcase : m.consumer with
  | poll =>
      simp only [waiting, Mailbox.put, hcase, hheld]
      rfl
  | clear =>
      have hfull := hset hcase
      rw [hempty] at hfull
      exact nomatch hfull
  | read => exact absurd hcase htaken
  | handle b =>
      simp only [waiting, Mailbox.put, hcase, hheld]
      rfl

theorem Lossless.step {m m' : Mailbox α} {label : Option α} (h : Lossless m)
    (hready : ∀ a, label = some a → m.Ready) (hstep : Step m label m') : Lossless m' := by
  have hsent := h.sent
  cases hstep with
  | put a => exact h.put (hready a rfl) a
  | skip => exact h
  | poll hpoll hfull =>
      refine ⟨?_, fun _ => hfull, (nomatch ·)⟩
      rw [waiting, hpoll] at hsent
      exact hsent
  | clear hclear =>
      refine ⟨?_, (nomatch ·), fun _ => rfl⟩
      rw [waiting, hclear] at hsent
      exact hsent.trans (congrArg _ (held_of_full (h.set hclear)))
  | read hread =>
      refine ⟨?_, (nomatch ·), (nomatch ·)⟩
      rw [waiting, hread] at hsent
      have hnone : Mailbox.held { m with consumer := .handle m.slot } = [] :=
        held_of_empty (h.cleared hread)
      exact hsent.trans (congrArg _ (congrArg _ hnone.symm))
  | @handle a hhandle =>
      refine ⟨?_, (nomatch ·), (nomatch ·)⟩
      rw [waiting, hhandle] at hsent
      exact hsent.trans (List.append_assoc _ [a] _).symm

/-- At an empty poll everything is handled. -/
theorem Lossless.handled_eq {m : Mailbox α} (h : Lossless m) (hpoll : m.consumer = .poll)
    (hempty : m.full = false) : m.handled = m.sent := by
  have hsent := h.sent
  rw [waiting, hpoll] at hsent
  rw [hsent]
  exact (List.append_nil _).symm.trans (congrArg _ (held_of_empty hempty).symm)

end Mailbox

end DonutOS.Foundation
