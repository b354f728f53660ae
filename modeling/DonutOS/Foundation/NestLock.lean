import Mathlib.Algebra.Group.Int.Defs
import Mathlib.Algebra.Group.Nat.Defs
import Mathlib.Logic.Function.Basic
import Mathlib.Tactic.Common

set_option autoImplicit false

/-!
# Foundation: a counter that keeps one processor from switching

Processes share one processor.  A process enters a section by incrementing a
shared counter and leaves it by decrementing it; both are a load and a store, and
between any two of these the processor may be given to another process, but only
while the counter is zero.  The counter wraps at `limit`, which no process nests
up to.
-/

namespace DonutOS.Foundation

/-- Where a process is in its updates of the counter: it has loaded the value that
it is about to increment or to decrement. -/
inductive Access
  | idle
  | entering (v : Nat)
  | leaving (v : Nat)
  deriving DecidableEq, Repr

/-- What a process knows: its updates, and how deep it is nested. -/
structure Nest where
  access : Access
  depth : Nat
  deriving DecidableEq, Repr

/-- The process that runs, the counter, and the processes. -/
structure LockState (P : Type) where
  curr : P
  lock : Nat
  nest : P → Nest

variable {P : Type}

/-- One load or store of the running process, or a change of processes: another one
runs, one starts, or the running one goes by another name. -/
inductive LockStep [DecidableEq P] (limit : Nat) : LockState P → LockState P → Prop
  | enterLoad {s : LockState P} {d : Nat} (hnest : s.nest s.curr = ⟨.idle, d⟩)
      (hdepth : d + 1 < limit) :
      LockStep limit s { s with nest := Function.update s.nest s.curr ⟨.entering s.lock, d⟩ }
  | enterStore {s : LockState P} {v d : Nat} (hnest : s.nest s.curr = ⟨.entering v, d⟩) :
      LockStep limit s { s with
        lock := (v + 1) % limit
        nest := Function.update s.nest s.curr ⟨.idle, d + 1⟩ }
  | leaveLoad {s : LockState P} {d : Nat} (hnest : s.nest s.curr = ⟨.idle, d + 1⟩) :
      LockStep limit s
        { s with nest := Function.update s.nest s.curr ⟨.leaving s.lock, d + 1⟩ }
  | leaveStore {s : LockState P} {v d : Nat} (hnest : s.nest s.curr = ⟨.leaving v, d + 1⟩) :
      LockStep limit s { s with
        lock := (v + (limit - 1)) % limit
        nest := Function.update s.nest s.curr ⟨.idle, d⟩ }
  | switch {s : LockState P} {p : P} (hfree : s.lock = 0 ∨ p = s.curr) :
      LockStep limit s { s with curr := p }
  | fresh {s : LockState P} {p : P} (hother : p ≠ s.curr) :
      LockStep limit s { s with nest := Function.update s.nest p ⟨.idle, 0⟩ }
  | rename {s : LockState P} {p : P} :
      LockStep limit s { s with
        curr := p
        nest := Function.update (Function.update s.nest s.curr ⟨.idle, 0⟩) p (s.nest s.curr) }

/-- The process is nested as deep as the counter says, and the value it has loaded
is the counter's. -/
def Nest.Fits (limit : Nat) (n : Nest) (lock : Nat) : Prop :=
  n.depth = lock ∧ lock < limit ∧
    match n.access with
    | .idle => True
    | .entering v => v = lock ∧ lock + 1 < limit
    | .leaving v => v = lock ∧ 0 < lock

/-- The invariant: the counter is the running process's, and every other process is
as if it were zero. -/
structure LockInv (limit : Nat) (s : LockState P) : Prop where
  running : (s.nest s.curr).Fits limit s.lock
  others : ∀ p, p ≠ s.curr → (s.nest p).Fits limit 0

/-- A process inside its outermost section. -/
def LockState.Inside (s : LockState P) (p : P) : Prop := 0 < (s.nest p).depth

theorem Nest.Fits.depth_eq {limit lock : Nat} {n : Nest} (h : n.Fits limit lock) :
    n.depth = lock := h.1

/-- Only the running process is inside, as deep as the counter says. -/
theorem LockInv.inside {limit : Nat} {s : LockState P} (h : LockInv limit s) {p : P}
    (hp : s.Inside p) : p = s.curr ∧ s.lock = (s.nest p).depth := by
  have hcurr : p = s.curr := by
    by_contra hne
    rw [LockState.Inside, (h.others p hne).depth_eq] at hp
    exact Nat.lt_irrefl 0 hp
  exact ⟨hcurr, hcurr ▸ h.running.depth_eq.symm⟩

/-- With nobody inside the counter is zero. -/
theorem LockInv.lock_eq_zero {limit : Nat} {s : LockState P} (h : LockInv limit s)
    (hnone : ∀ p, ¬ s.Inside p) : s.lock = 0 := by
  rw [← h.running.depth_eq]
  exact Nat.eq_zero_of_not_pos (hnone s.curr)

variable [DecidableEq P]

/-- A step of the running process alone. -/
theorem LockInv.update {limit lock : Nat} {s : LockState P} (h : LockInv limit s) {n : Nest}
    (hn : n.Fits limit lock) :
    LockInv limit { s with lock := lock, nest := Function.update s.nest s.curr n } where
  running := by
    change (Function.update s.nest s.curr n s.curr).Fits limit lock
    rw [Function.update_self]
    exact hn
  others := by
    intro p hp
    change (Function.update s.nest s.curr n p).Fits limit 0
    rw [Function.update_of_ne hp]
    exact h.others p hp

theorem LockInv.step {limit : Nat} {s t : LockState P} (h : LockInv limit s)
    (hstep : LockStep limit s t) : LockInv limit t := by
  have hrunning := h.running
  cases hstep with
  | enterLoad hnest hdepth =>
      rw [hnest] at hrunning
      obtain ⟨rfl, hlt, _⟩ := hrunning
      exact h.update ⟨rfl, hlt, rfl, hdepth⟩
  | enterStore hnest =>
      rw [hnest] at hrunning
      obtain ⟨rfl, _, rfl, hlt⟩ := hrunning
      refine h.update ⟨?_, ?_, trivial⟩
      · exact (Nat.mod_eq_of_lt hlt).symm
      · exact Nat.mod_lt _ (Nat.zero_lt_of_lt hlt)
  | leaveLoad hnest =>
      rw [hnest] at hrunning
      obtain ⟨hdepth, hlt, _⟩ := hrunning
      exact h.update ⟨hdepth, hlt, rfl, hdepth ▸ Nat.succ_pos _⟩
  | @leaveStore v d hnest =>
      rw [hnest] at hrunning
      obtain ⟨hdepth, hlt, rfl, _⟩ := hrunning
      have hlock : s.lock = d + 1 := hdepth.symm
      have hpred : (s.lock + (limit - 1)) % limit = d := by
        rw [hlock]
        have hsum : d + 1 + (limit - 1) = d + limit := by omega
        rw [hsum, Nat.add_mod_right, Nat.mod_eq_of_lt (by omega)]
      refine h.update ⟨hpred.symm, ?_, trivial⟩
      exact Nat.mod_lt _ (Nat.zero_lt_of_lt hlt)
  | @switch p hfree =>
      rcases hfree with hzero | rfl
      · -- with the counter at zero all processes look the same
        have hall : ∀ q, (s.nest q).Fits limit 0 := by
          intro q
          by_cases hq : q = s.curr
          · rw [hq, ← hzero]
            exact hrunning
          · exact h.others q hq
        exact ⟨hzero ▸ hall p, fun q _ => hall q⟩
      · exact h
  | @fresh p hother =>
      refine ⟨?_, fun q hq => ?_⟩
      · change (Function.update s.nest p _ s.curr).Fits limit s.lock
        rw [Function.update_of_ne hother.symm]
        exact hrunning
      · change (Function.update s.nest p _ q).Fits limit 0
        by_cases hqp : q = p
        · rw [hqp, Function.update_self]
          exact ⟨rfl, Nat.zero_lt_of_lt hrunning.2.1, trivial⟩
        · rw [Function.update_of_ne hqp]
          exact h.others q hq
  | @rename p =>
      refine ⟨?_, fun q hq => ?_⟩
      · change (Function.update (Function.update s.nest s.curr ⟨.idle, 0⟩) p
          (s.nest s.curr) p).Fits limit s.lock
        rw [Function.update_self]
        exact hrunning
      · change (Function.update (Function.update s.nest s.curr ⟨.idle, 0⟩) p
          (s.nest s.curr) q).Fits limit 0
        rw [Function.update_of_ne hq]
        by_cases hcurr : q = s.curr
        · rw [hcurr, Function.update_self]
          exact ⟨rfl, Nat.zero_lt_of_lt hrunning.2.1, trivial⟩
        · rw [Function.update_of_ne hcurr]
          exact h.others q hcurr

end DonutOS.Foundation
