import DonutOS.Kernel.CtxRuns
import DonutOS.Kernel.PageSearch

set_option autoImplicit false

/-!
# Kernel: what a call of `scheduler` frees (`kernel/src/ctx.c`)

A call that switches first unlinks the dead processes behind the current one, one in a
round.  Each gives back its control block and its pages; the others keep their order.
-/

namespace DonutOS.Kernel

open DonutOS.Foundation

/-! ## The pages of a process -/

/-- `n_pages` pages from `fst_page` on are pages of the allocator. -/
def Tcb.OwnsPages (t : Tcb) : Prop :=
  ∃ i, t.fstPage = i * pageSize ∧ initIdx ≤ i ∧ i + t.nPages ≤ 2 ^ 20

/-- Page `j` is one of the `n_pages` pages from `fst_page` on. -/
def Tcb.HasPage (t : Tcb) (j : Nat) : Prop :=
  t.fstPage / pageSize ≤ j ∧ j < t.fstPage / pageSize + t.nPages

instance (t : Tcb) (j : Nat) : Decidable (t.HasPage j) :=
  inferInstanceAs (Decidable (_ ∧ _))

/-- A process spawned where memory has room for its pages owns them. -/
theorem ownsPages_spawned {stub answer fn nPages : Nat} {rs : Regs} {c c' : Ctx}
    (hn : 1 ≤ nPages) (hrun : ∃ r, FreeRun c.pageBitmap nPages r)
    (hcall : spawnProcess stub answer rs fn nPages c = .ok (0, c')) :
    (c'.tcbs answer).OwnsPages := by
  obtain ⟨page, bm, halloc, -, -, rfl⟩ := spawnProcess_ok hcall
  obtain ⟨i, bm', halloc', hi, -⟩ := allocPages_of_freeRun hn hrun
  rw [halloc, Prod.mk.injEq, Option.some.injEq] at halloc'
  obtain ⟨rfl, -⟩ := halloc'
  have hblock : (spawned stub answer (i * pageSize) bm rs fn nPages c).tcbs answer =
      ⟨c.nextPid, false, fn, nPages, i * pageSize, c.fstProc,
        spawnRegs stub (i * pageSize) nPages rs⟩ := Function.update_self _ _ _
  rw [hblock]
  exact ⟨i, rfl, hi.ge, Nat.le_trans hi.le (by decide)⟩

/-- `free_pages` on what a process owns clears the bits of its pages. -/
theorem Tcb.OwnsPages.marked_freePages {t : Tcb} (h : t.OwnsPages) (bm : PageBitmap)
    (j : Nat) :
    marked (freePages t.fstPage t.nPages bm) j = (marked bm j && decide (¬ t.HasPage j)) := by
  obtain ⟨i, hpage, hge, hlt⟩ := h
  have hidx : i * pageSize / pageSize = i := Nat.mul_div_cancel i (by decide)
  have hwrap : (i + t.nPages) % 2 ^ 32 = i + t.nPages := Nat.mod_eq_of_lt (by omega)
  have hmarked : marked (freePages (i * pageSize) t.nPages bm) j = _ :=
    Kernel.marked_freePages hge j
  rw [← hpage, hwrap] at hmarked
  rw [hmarked]
  congr 1
  rw [decide_eq_decide, Tcb.HasPage, hpage, hidx]

/-- The calls of `free_pages` for `ds` clear the bits of all their pages. -/
theorem marked_pagesFreed {ds : List Nat} {c : Ctx}
    (howns : ∀ d ∈ ds, (c.tcbs d).OwnsPages) (j : Nat) :
    marked (pagesFreed ds c) j =
      (marked c.pageBitmap j && decide (∀ d ∈ ds, ¬ (c.tcbs d).HasPage j)) := by
  unfold pagesFreed
  generalize c.pageBitmap = bm
  induction ds generalizing bm with
  | nil => simp
  | cons d ds ih =>
      rw [List.foldl_cons, ih (fun e he => howns e (List.mem_cons_of_mem _ he)),
        (howns d List.mem_cons_self).marked_freePages, Bool.and_assoc, ← Bool.decide_and]
      congr 1
      rw [decide_eq_decide, List.forall_mem_cons]

/-! ## The call as a whole -/

/-- A call that switches, from the state `c` to the state `c'`: `ds` are the dead
processes behind the current one, and `z` is the first live one behind them. -/
structure Reaps (ring : List Nat) (lst : Nat) (c c' : Ctx) (pre ds post : List Nat) (z : Nat) :
    Prop where
  shape : SwitchShape ring c pre ds post z
  rounds : reapLoop (c.allocated.length + 1) (ticked c) =
    .ok (ds.foldl (fun c d => reapOne d c) (ticked c))
  once : ds.Nodup
  kept : c.currProc ∉ ds
  blocks : c'.allocated = c.allocated.filter fun p => p ∉ ds
  pages : ∀ j, marked c'.pageBitmap j =
    (marked c.pageBitmap j && decide (∀ d ∈ ds, ¬ (c.tcbs d).HasPage j))
  order : OnRing (pre ++ c.currProc :: post) (if post = [] then c.currProc else lst) c'
  current : c'.currProc = z
  alive : (c'.tcbs z).dead = false

/-- A call of `scheduler` that switches frees the dead processes behind the current one,
each once and with its pages, keeps the others in their order, and goes on with the
first live one. -/
theorem scheduler_reaps {ring : List Nat} {lst : Nat} {c : Ctx} (rs : Regs)
    (h : OnRing ring lst c) (hpages : ∀ p ∈ ring, p ≠ c.fstProc → (c.tcbs p).OwnsPages)
    (hsw : Switches c) :
    ∃ pre ds post z c', scheduler rs c = .ok ((c'.tcbs z).regs, c') ∧
      Reaps ring lst c c' pre ds post z := by
  obtain ⟨pre, ds, post, z, hs⟩ := h.shape
  have howns : ∀ d ∈ ds, (c.tcbs d).OwnsPages := by
    intro d hd
    refine hpages d (hs.mem_of_reaped hd) ?_
    rintro rfl
    have hdead := hs.dead _ hd
    rw [h.kernel] at hdead
    exact Bool.noConfusion hdead
  have hnot := hs.not_reaped h (List.mem_append_right _ List.mem_cons_self)
  refine ⟨pre, ds, post, z, _, scheduler_switches rs h hs hsw, hs,
    reapLoop_eq_foldl (hs.reapShape h) (hs.length_lt h), hs.reaped_nodup h, hnot, rfl,
    marked_pagesFreed howns, h.switched hs _ rs, rfl, ?_⟩
  rw [dead_switched]
  exact hs.alive

/-- The kernel runs, and the one process behind it, on one page, is dead. -/
def deadBehind : Ctx :=
  { bootCtx with
    schedulerOn := true, ticks := 11
    fstProc := 0x100004, lstProc := 0x100061, currProc := 0x100004
    allocated := [0x100004, 0x100061]
    tcbs := fun p =>
      if p = 0x100004 then { (default : Tcb) with next := 0x100061 }
      else { (default : Tcb) with
        next := 0x100004, dead := true, nPages := 1, fstPage := initIdx * pageSize }
    pageBitmap := rawAllocPage (fun _ => 0) initIdx }

theorem onRing_deadBehind : OnRing [0x100004, 0x100061] 0x100061 deadBehind where
  isRing := ⟨⟨rfl, rfl, rfl⟩, by decide, rfl⟩
  curr := List.mem_cons_self
  nonzero := by decide
  allocated := fun _ hp => hp
  kernel := rfl

theorem scheduler_reaps_one : ∃ pre ds post z c',
    scheduler default deadBehind = .ok ((c'.tcbs z).regs, c') ∧
      Reaps [0x100004, 0x100061] 0x100061 deadBehind c' pre ds post z := by
  refine scheduler_reaps default onRing_deadBehind ?_ (by decide)
  intro p hp hkernel
  rcases List.mem_cons.mp hp with rfl | hp
  · exact absurd rfl hkernel
  · rw [List.mem_singleton.mp hp]
    exact ⟨initIdx, rfl, Nat.le_refl _, by decide⟩

end DonutOS.Kernel
