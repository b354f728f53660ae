import Mathlib.Algebra.Group.Int.Defs
import Mathlib.Algebra.Group.Nat.Defs
import Mathlib.Logic.Function.Basic
import Mathlib.Tactic.Common

set_option autoImplicit false

/-!
# Foundation: a stack in memory that grows down

Addresses are `w` bits wide, a cell takes `size` of them, and memory gives each
cell one value.  `StackAt size mem sp vs` says that from `sp` upwards memory
holds `vs`, the top of the stack first.  Addresses wrap, so a push keeps what is
below it only while the whole stack fits into the address space.
-/

namespace DonutOS.Foundation

variable {w : Nat} {β : Type}

/-- The address of the `i`th cell from `sp` on. -/
def cell (size : Nat) (sp : BitVec w) (i : Nat) : BitVec w := sp + BitVec.ofNat w (size * i)

/-- Memory holds `vs` from `sp` on. -/
def StackAt (size : Nat) (mem : BitVec w → β) : BitVec w → List β → Prop
  | _, [] => True
  | sp, v :: vs => mem sp = v ∧ StackAt size mem (sp + BitVec.ofNat w size) vs

/-- Store `vs` from `sp` on. -/
def storeCells (size : Nat) (mem : BitVec w → β) : BitVec w → List β → BitVec w → β
  | _, [] => mem
  | sp, v :: vs =>
      Function.update (storeCells size mem (sp + BitVec.ofNat w size) vs) sp v

@[simp] theorem stackAt_nil (size : Nat) (mem : BitVec w → β) (sp : BitVec w) :
    StackAt size mem sp [] := trivial

@[simp] theorem stackAt_cons {size : Nat} {mem : BitVec w → β} {sp : BitVec w} {v : β}
    {vs : List β} : StackAt size mem sp (v :: vs) ↔
      mem sp = v ∧ StackAt size mem (sp + BitVec.ofNat w size) vs := Iff.rfl

@[simp] theorem cell_zero (size : Nat) (sp : BitVec w) : cell size sp 0 = sp := by
  simp [cell]

theorem cell_succ (size : Nat) (sp : BitVec w) (i : Nat) :
    cell size sp (i + 1) = cell size (sp + BitVec.ofNat w size) i := by
  rw [cell, cell, Nat.mul_succ, Nat.add_comm, BitVec.ofNat_add, BitVec.add_assoc]

/-- Cells that fit into the address space together are different. -/
theorem cell_injective {size n i j : Nat} {sp : BitVec w} (hsize : 0 < size)
    (hfit : size * n ≤ 2 ^ w) (hi : i < n) (hj : j < n)
    (h : cell size sp i = cell size sp j) : i = j := by
  have hbound : ∀ k < n, size * k < 2 ^ w := fun k hk =>
    Nat.lt_of_lt_of_le (Nat.mul_lt_mul_of_pos_left hk hsize) hfit
  have hoffset := congrArg BitVec.toNat ((BitVec.add_right_inj sp).mp h)
  rw [BitVec.toNat_ofNat, BitVec.toNat_ofNat, Nat.mod_eq_of_lt (hbound i hi),
    Nat.mod_eq_of_lt (hbound j hj)] at hoffset
  exact Nat.eq_of_mul_eq_mul_left hsize hoffset

/-- Only the cells of the stack matter. -/
theorem StackAt.congr {size : Nat} {mem mem' : BitVec w → β} {sp : BitVec w} {vs : List β}
    (h : StackAt size mem sp vs)
    (hsame : ∀ i < vs.length, mem' (cell size sp i) = mem (cell size sp i)) :
    StackAt size mem' sp vs := by
  induction vs generalizing sp with
  | nil => trivial
  | cons v vs ih =>
      have htop := hsame 0 (Nat.succ_pos _)
      rw [cell_zero] at htop
      refine ⟨htop.trans h.1, ih h.2 fun i hi => ?_⟩
      have hcell := hsame (i + 1) (Nat.succ_lt_succ hi)
      rwa [cell_succ] at hcell

/-- The cells above the last ones do not matter. -/
theorem StackAt.of_append {size : Nat} {mem : BitVec w → β} {sp : BitVec w} {vs us : List β}
    (h : StackAt size mem sp (vs ++ us)) : StackAt size mem sp vs := by
  induction vs generalizing sp with
  | nil => trivial
  | cons v vs ih => exact ⟨h.1, ih h.2⟩

theorem StackAt.get {size : Nat} {mem : BitVec w → β} {sp : BitVec w} {vs : List β} {v : β}
    {i : Nat} (h : StackAt size mem sp vs) (hi : vs[i]? = some v) :
    mem (cell size sp i) = v := by
  induction vs generalizing sp i with
  | nil => exact absurd hi (by simp)
  | cons u vs ih =>
      cases i with
      | zero =>
          rw [cell_zero, h.1]
          exact Option.some.inj hi
      | succ i =>
          rw [cell_succ]
          exact ih h.2 hi

/-- Storing below the stack keeps it and puts the new value on top. -/
theorem StackAt.cons {size : Nat} {mem : BitVec w → β} {sp : BitVec w} {v : β} {vs : List β}
    (h : StackAt size mem (sp + BitVec.ofNat w size) vs) (hsize : 0 < size)
    (hfit : size * (vs.length + 1) ≤ 2 ^ w) :
    StackAt size (Function.update mem sp v) sp (v :: vs) := by
  refine ⟨Function.update_self _ _ _, h.congr fun i hi => Function.update_of_ne ?_ _ _⟩
  intro heq
  have hcells : cell size sp (i + 1) = cell size sp 0 := by
    rw [cell_succ, heq, cell_zero]
  have hsame := cell_injective hsize hfit (Nat.succ_lt_succ hi) (Nat.succ_pos _) hcells
  exact Nat.succ_ne_zero i hsame

/-- A push. -/
theorem StackAt.push {size : Nat} {mem : BitVec w → β} {sp : BitVec w} {vs : List β}
    (h : StackAt size mem sp vs) (v : β) (hsize : 0 < size)
    (hfit : size * (vs.length + 1) ≤ 2 ^ w) :
    StackAt size (Function.update mem (sp - BitVec.ofNat w size) v)
      (sp - BitVec.ofNat w size) (v :: vs) := by
  refine StackAt.cons ?_ hsize hfit
  rw [BitVec.sub_add_cancel]
  exact h

theorem storeCells_of_ne {size : Nat} (mem : BitVec w → β) {sp a : BitVec w} {vs : List β}
    (h : ∀ i < vs.length, a ≠ cell size sp i) : storeCells size mem sp vs a = mem a := by
  induction vs generalizing sp with
  | nil => rfl
  | cons v vs ih =>
      have htop := h 0 (Nat.succ_pos _)
      rw [cell_zero] at htop
      rw [storeCells, Function.update_of_ne htop, ih]
      intro i hi
      rw [← cell_succ]
      exact h (i + 1) (Nat.succ_lt_succ hi)

theorem stackAt_storeCells {size : Nat} (mem : BitVec w → β) {sp : BitVec w} {vs : List β}
    (hsize : 0 < size) (hfit : size * vs.length ≤ 2 ^ w) :
    StackAt size (storeCells size mem sp vs) sp vs := by
  induction vs generalizing sp with
  | nil => trivial
  | cons v vs ih =>
      have hrest : size * vs.length ≤ 2 ^ w :=
        Nat.le_trans (Nat.mul_le_mul_left size (Nat.le_succ _)) hfit
      exact StackAt.cons (ih hrest) hsize hfit

end DonutOS.Foundation
