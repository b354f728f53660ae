import Mathlib.Algebra.Group.Int.Defs
import Mathlib.Algebra.Group.Nat.Defs
import Mathlib.Logic.Function.Iterate
import Mathlib.Tactic.Common

set_option autoImplicit false

/-!
# Foundation: deterministic machines

A machine is a function on states.  A state that it maps to itself is final.  All
states on the way to a final state have that one as their end.
-/

namespace DonutOS.Foundation

variable {σ : Type} {next : σ → σ} {s t u : σ}

/-- Some number of steps leads from `s` to `t`. -/
def Leads (next : σ → σ) (s t : σ) : Prop := ∃ n, next^[n] s = t

theorem Leads.refl (next : σ → σ) (s : σ) : Leads next s s := ⟨0, rfl⟩

theorem Leads.one (h : next s = t) : Leads next s t := ⟨1, h⟩

theorem Leads.trans (h : Leads next s t) (h' : Leads next t u) : Leads next s u := by
  obtain ⟨n, rfl⟩ := h
  obtain ⟨k, rfl⟩ := h'
  exact ⟨k + n, Function.iterate_add_apply next k n s⟩

/-- A first step, and what follows it. -/
theorem Leads.head (h : next s = t) (h' : Leads next t u) : Leads next s u :=
  (Leads.one h).trans h'

theorem iterate_final (h : next s = s) (n : Nat) : next^[n] s = s :=
  Function.iterate_fixed h n

/-- A state on the way leads to the end as well. -/
theorem Leads.of_middle (h : Leads next s t) (hend : Leads next s u) (hfinal : next u = u) :
    Leads next t u := by
  obtain ⟨n, rfl⟩ := h
  obtain ⟨k, rfl⟩ := hend
  rcases Nat.le_total n k with hle | hle
  · refine ⟨k - n, ?_⟩
    rw [← Function.iterate_add_apply, Nat.sub_add_cancel hle]
  · -- the end was passed already
    obtain ⟨j, rfl⟩ := Nat.exists_eq_add_of_le' hle
    refine ⟨0, ?_⟩
    rw [Function.iterate_add_apply, iterate_final hfinal]
    rfl

theorem Leads.eq_of_final (h : Leads next s t) (hfinal : next s = s) : s = t := by
  obtain ⟨n, rfl⟩ := h
  exact (iterate_final hfinal n).symm

/-- A run has one end. -/
theorem Leads.unique (ht : Leads next s t) (hu : Leads next s u) (htfinal : next t = t)
    (hufinal : next u = u) : t = u :=
  (ht.of_middle hu hufinal).eq_of_final htfinal

/-- The invariant rule. -/
theorem iterate_invariant {Inv : σ → Prop} (hstep : ∀ s, Inv s → Inv (next s)) (h : Inv s)
    (n : Nat) : Inv (next^[n] s) := by
  induction n generalizing s with
  | zero => exact h
  | succ n ih => exact ih (hstep s h)

end DonutOS.Foundation
