import DonutOS.Kernel.CtxRuns
import DonutOS.Kernel.PageSearch
import DonutOS.Libc.CallocNull
import DonutOS.Libc.RequestSizes

set_option autoImplicit false

/-!
# Kernel: the stack of a new process, and calls of `spawn_process` that fail

`spawn_process` masks the address of the stack with `0xf` and not with its complement,
so all stacks are the same bytes at address 0.  It gets its pages before its control
block and does not look at the answer of `malloc`.
-/

namespace DonutOS.Kernel

open DonutOS.Foundation
open DonutOS.Libc

/-! ## The stack -/

/-- The stack a control block starts with lies in its pages, and a frame fits above
`esp`. -/
structure StackInside (t : Tcb) : Prop where
  low : t.fstPage ≤ t.regs.esp.toNat
  ordered : t.regs.esp.toNat < t.regs.ebp.toNat
  high : t.regs.ebp.toNat ≤ t.fstPage + t.nPages * pageSize
  room : t.regs.esp.toNat + sizeofRegs ≤ t.fstPage + t.nPages * pageSize

/-- Byte `b` is between `esp` and `ebp`. -/
def Tcb.OnStack (t : Tcb) (b : Nat) : Prop := t.regs.esp.toNat ≤ b ∧ b < t.regs.ebp.toNat

/-- Of an address that is sixteen-byte aligned the mask leaves nothing. -/
theorem esp_masked (i nPages : Nat) :
    (i * pageSize + 4 * (pageSize * nPages) + (2 ^ 32 - 4 * sizeofRegs)) % 2 ^ 32 &&& 0xf =
      0 := by
  rw [show (0xf : Nat) = 2 ^ 4 - 1 from rfl, Nat.and_two_pow_sub_one_eq_mod]
  simp only [pageSize, sizeofRegs]
  omega

theorem spawnRegs_stack (stub i nPages : Nat) (rs : Regs) :
    (spawnRegs stub (i * pageSize) nPages rs).esp.toNat = 0 ∧
      (spawnRegs stub (i * pageSize) nPages rs).ebp.toNat = 4 * sizeofRegs := by
  unfold spawnRegs
  simp only [esp_masked]
  exact ⟨rfl, rfl⟩

section Stack

variable {stub answer fn nPages : Nat} {rs : Regs} {c c' : Ctx}

/-- Where the stack of a new process is, and where its pages are. -/
theorem spawnProcess_stack (hcall : spawnProcess stub answer rs fn nPages c = .ok (0, c')) :
    (c'.tcbs answer).regs.esp.toNat = 0 ∧ (c'.tcbs answer).regs.ebp.toNat = 4 * sizeofRegs ∧
      initIdx * pageSize ≤ (c'.tcbs answer).fstPage := by
  obtain ⟨page, bm, halloc, -, -, rfl⟩ := spawnProcess_ok hcall
  obtain ⟨i, hfirst, rfl, -⟩ := allocPages_some halloc
  have hblock : (spawned stub answer (i * pageSize) bm rs fn nPages c).tcbs answer =
      ⟨c.nextPid, false, fn, nPages, i * pageSize, c.fstProc,
        spawnRegs stub (i * pageSize) nPages rs⟩ := Function.update_self _ _ _
  obtain ⟨hesp, hebp⟩ := spawnRegs_stack stub i nPages rs
  rw [hblock]
  exact ⟨hesp, hebp, Nat.mul_le_mul_right pageSize hfirst.ge⟩

theorem not_stackInside (hcall : spawnProcess stub answer rs fn nPages c = .ok (0, c')) :
    ¬ StackInside (c'.tcbs answer) := by
  intro hinside
  obtain ⟨hesp, -, hpage⟩ := spawnProcess_stack hcall
  have hlow := hinside.low
  rw [hesp] at hlow
  exact absurd (Nat.le_trans hpage hlow) (by decide)

theorem onStack_zero (hcall : spawnProcess stub answer rs fn nPages c = .ok (0, c')) :
    (c'.tcbs answer).OnStack 0 := by
  obtain ⟨hesp, hebp, -⟩ := spawnProcess_stack hcall
  unfold Tcb.OnStack
  rw [hesp, hebp]
  exact ⟨Nat.le_refl 0, by decide⟩

/-- The stack of a new process is never in its pages, and it is not disjoint from the
stack of any other. -/
theorem spawnProcess_stack_outside
    (hcall : spawnProcess stub answer rs fn nPages c = .ok (0, c')) :
    ¬ StackInside (c'.tcbs answer) ∧
      ∀ (stub answer' fn nPages : Nat) (rs : Regs) (d d' : Ctx),
        spawnProcess stub answer' rs fn nPages d = .ok (0, d') →
          ∃ b, (c'.tcbs answer).OnStack b ∧ (d'.tcbs answer').OnStack b :=
  ⟨not_stackInside hcall, fun _ _ _ _ _ _ _ hcall' =>
    ⟨0, onStack_zero hcall, onStack_zero hcall'⟩⟩

end Stack

/-- The kernel alone, with all pages free. -/
def kernelAlone : Ctx := (spawnKernelProcess 0x100004 default bootCtx).2

/-- Two processes after the kernel, on one page each. -/
theorem exists_two_processes : ∃ c' c'' : Ctx,
    spawnProcess 0 0x100061 default 0 1 kernelAlone = .ok (0, c') ∧
      spawnProcess 0 0x1000be default 0 1 c' = .ok (0, c'') := by
  have hfirst : FreeRun kernelAlone.pageBitmap 1 initIdx :=
    ⟨Nat.le_refl _, by decide, fun _ _ _ => BitVec.getLsbD_zero⟩
  obtain ⟨i, bm, halloc, hi, hlowest, hmarked⟩ :=
    allocPages_of_freeRun (Nat.le_refl 1) ⟨initIdx, hfirst⟩
  obtain rfl := Nat.le_antisymm (hlowest initIdx hfirst) hi.ge
  -- the page behind the first one is still free
  have hsecond : FreeRun bm 1 (initIdx + 1) := by
    refine ⟨Nat.le_succ _, by decide, fun k hlo hhi => ?_⟩
    rw [hmarked k, decide_eq_false (by omega), Bool.or_false]
    exact BitVec.getLsbD_zero
  obtain ⟨j, bm', halloc', -⟩ := allocPages_of_freeRun (Nat.le_refl 1) ⟨_, hsecond⟩
  have hblock : 0x100061 ≠ 0 := by decide
  have hblock' : 0x1000be ≠ 0 := by decide
  exact ⟨_, _, spawnProcess_of_allocPages halloc hblock (Nat.succ_ne_zero _),
    spawnProcess_of_allocPages
      (c := spawned 0 0x100061 (initIdx * pageSize) bm default 0 1 kernelAlone) halloc' hblock'
      hblock⟩

theorem spawnProcess_stack_outside_two : ∃ c' c'' : Ctx,
    spawnProcess 0 0x100061 default 0 1 kernelAlone = .ok (0, c') ∧
      spawnProcess 0 0x1000be default 0 1 c' = .ok (0, c'') ∧
      ¬ StackInside (c'.tcbs 0x100061) ∧
      ∃ b, (c'.tcbs 0x100061).OnStack b ∧ (c''.tcbs 0x1000be).OnStack b := by
  obtain ⟨c', c'', hcall, hcall'⟩ := exists_two_processes
  obtain ⟨houtside, hshared⟩ := spawnProcess_stack_outside hcall
  exact ⟨c', c'', hcall, hcall', houtside, hshared _ _ _ _ _ _ _ hcall'⟩

/-- The first process after the kernel, on one page. -/
theorem not_stackInside_first :
    ¬ ∀ (stub answer fn nPages : Nat) (rs : Regs) (c c' : Ctx), 1 ≤ nPages →
      spawnProcess stub answer rs fn nPages c = .ok (0, c') →
        StackInside (c'.tcbs answer) := by
  intro hall
  obtain ⟨c', -, hcall, -⟩ := exists_two_processes
  exact not_stackInside hcall (hall _ _ _ _ _ _ _ (Nat.le_refl 1) hcall)

/-! ## Calls that fail -/

/-- `sizeof(tcb_t)`, which is packed. -/
def sizeofTcb : Nat := 21 + sizeofRegs

/-- `spawn_process` with the heap that its `malloc` works on.  `none`: `malloc` does not
return. -/
def spawnProcessOn (stub : Nat) (rs : Regs) (fn nPages : Nat) (h : Heap) (c : Ctx) :
    Option (Heap × Except Fault (Nat × Ctx)) :=
  match (allocPages nPages c.pageBitmap).1 with
  | none => some (h, spawnProcess stub 0 rs fn nPages c)
  | some _ =>
      match malloc h sizeofTcb with
      | none => none
      | some (h, answer) => some (h, spawnProcess stub (answer.getD 0) rs fn nPages c)

/-- Pages or block are not to be had. -/
def SpawnFails (nPages : Nat) (h : Heap) (c : Ctx) : Prop :=
  (allocPages nPages c.pageBitmap).1 = none ∨ ∃ h', malloc h sizeofTcb = some (h', none)

/-- A call that gets no pages or no block returns nonzero and leaves the globals, the
bitmap and the used chunks of the heap as they were. -/
def SpawnAtomic (stub : Nat) (rs : Regs) (fn nPages : Nat) (h : Heap) (cs : List Chunk)
    (c : Ctx) : Prop :=
  SpawnFails nPages h c → ∃ h' r ds,
    spawnProcessOn stub rs fn nPages h c = some (h', .ok (r, c)) ∧ r ≠ 0 ∧
      WellFormed h'.mem ds ∧ SameUsed cs ds

section Failure

variable {stub fn nPages : Nat} {rs : Regs} {h : Heap} {cs : List Chunk} {c : Ctx}

theorem allocPages_fst_eq_none_iff {n : Nat} {bm : PageBitmap} :
    (allocPages n bm).1 = none ↔
      ∀ i, initIdx ≤ i → i < totalPages → acceptsRun n bm i = false := by
  rw [← initIdx_le_totalPages, ← findUp_eq_none_iff, allocPages, allocPagesLoop_eq]
  cases findUp (acceptsRun n bm) (totalPages - initIdx) initIdx with
  | none => exact iff_of_true rfl rfl
  | some i => exact iff_of_false (Option.some_ne_none _) (Option.some_ne_none _)

/-- Without pages nothing happens. -/
theorem spawnProcessOn_of_no_pages (hpages : (allocPages nPages c.pageBitmap).1 = none) :
    spawnProcessOn stub rs fn nPages h c = some (h, .ok (1, c)) := by
  rw [spawnProcessOn, hpages]
  simp only [spawnProcess]
  cases halloc : allocPages nPages c.pageBitmap with
  | mk page bm =>
      rw [halloc] at hpages
      simp only at hpages
      subst hpages
      rw [(allocPages_none halloc).1]

/-- Without a block the call writes through the null pointer. -/
theorem spawnProcessOn_of_no_block {page : Nat} {bm : PageBitmap} {h' : Heap}
    (halloc : allocPages nPages c.pageBitmap = (some page, bm))
    (hmalloc : malloc h sizeofTcb = some (h', none)) :
    spawnProcessOn stub rs fn nPages h c = some (h', .error .nullDeref) := by
  rw [spawnProcessOn, halloc]
  simp only [hmalloc, Option.getD_none, spawnProcess, halloc]
  rfl

/-- A failing call is atomic just when no run of pages is accepted, or the heap has
room for a control block. -/
theorem spawnAtomic_iff (hwf : WellFormed h.mem cs) :
    SpawnAtomic stub rs fn nPages h cs c ↔
      (∀ i, initIdx ≤ i → i < totalPages → acceptsRun nPages c.pageBitmap i = false) ∨
        ∃ run, RunFits cs (sizeofTcb + sizeofAllocHeader) run := by
  rw [← allocPages_fst_eq_none_iff]
  have hsize : sizeofTcb + sizeofAllocHeader < 2 ^ 32 := by decide
  constructor
  · intro hatomic
    by_contra hnot
    rw [not_or] at hnot
    obtain ⟨hpages, hnone⟩ := hnot
    obtain ⟨h', hmalloc⟩ := malloc_refused hwf hsize hnone
    obtain ⟨h'', r, ds, hcall, -⟩ := hatomic (Or.inr ⟨h', hmalloc⟩)
    cases halloc : allocPages nPages c.pageBitmap with
    | mk page bm =>
        cases page with
        | none => exact hpages (congrArg Prod.fst halloc)
        | some page =>
            rw [spawnProcessOn_of_no_block halloc hmalloc, Option.some.injEq,
              Prod.mk.injEq] at hcall
            exact nomatch hcall.2
  · intro hcase hfails
    have hpages : (allocPages nPages c.pageBitmap).1 = none := by
      rcases hfails with hpages | ⟨h', hmalloc⟩
      · exact hpages
      · refine hcase.resolve_right fun hfits => ?_
        obtain ⟨h'', hcall, -⟩ := malloc_spec hwf hsize
        rw [hmalloc, Option.some.injEq, Prod.mk.injEq] at hcall
        exact firstFit_eq_none_iff.mp (Option.map_eq_none_iff.mp hcall.2.symm) hfits
    exact ⟨h, 1, cs, spawnProcessOn_of_no_pages hpages, Nat.one_ne_zero, hwf, SameUsed.refl cs⟩

end Failure

/-! ### A full heap -/

theorem spawnAtomic_iff_full :
    SpawnAtomic 0 default 0 1 fullHeap [⟨false, heapMaxSize⟩] kernelAlone ↔
      (∀ i, initIdx ≤ i → i < totalPages → acceptsRun 1 kernelAlone.pageBitmap i = false) ∨
        ∃ run, RunFits [⟨false, heapMaxSize⟩] (sizeofTcb + sizeofAllocHeader) run :=
  spawnAtomic_iff wellFormed_fullHeap

/-- With a full heap a call that got its pages writes through the null pointer. -/
theorem not_spawnAtomic_full :
    ¬ ∀ (stub fn nPages : Nat) (rs : Regs) (h : Heap) (cs : List Chunk) (c : Ctx),
      WellFormed h.mem cs → 1 ≤ nPages → SpawnAtomic stub rs fn nPages h cs c := by
  intro hall
  have hmalloc := malloc_fullHeap sizeofTcb
  obtain ⟨page, bm, halloc⟩ := exists_allocPages_one
  have hatomic := hall 0 0 1 default fullHeap _ kernelAlone wellFormed_fullHeap (Nat.le_refl 1)
  obtain ⟨h', r, ds, hcall, -⟩ := hatomic (Or.inr ⟨_, hmalloc⟩)
  rw [spawnProcessOn_of_no_block (c := kernelAlone) halloc hmalloc, Option.some.injEq,
    Prod.mk.injEq] at hcall
  exact nomatch hcall.2

end DonutOS.Kernel
