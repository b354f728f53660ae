import DonutOS.Kernel.CtxSpec

set_option autoImplicit false

/-!
# Kernel: the ring from boot on, also after its end was reaped

`scheduler` may free the block that `lst_proc` points to.  What is linked in after
that is not on the ring, but the ring itself stays sound, and that is all the
scheduler relies on.
-/

namespace DonutOS.Kernel

open DonutOS.Foundation

/-- No process was spawned. -/
def NoProcess (c : Ctx) : Prop := c.fstProc = 0 ∧ c.lstProc = 0 ∧ c.currProc = 0

/-- The ring, from boot on.  When `lst_proc` is not its end it points to no block of
the ring. -/
def Linked (c : Ctx) : Prop :=
  NoProcess c ∨ ∃ ring lst, OnRing ring lst c ∧ (c.lstProc = lst ∨ c.lstProc ∉ ring)

/-- `Linked` speaks of the links, the `dead` flags, three pointers and the allocated
blocks only. -/
theorem Linked.congr {c c' : Ctx} (h : Linked c) (hnext : nextOf c' = nextOf c)
    (hfst : c'.fstProc = c.fstProc) (hlst : c'.lstProc = c.lstProc)
    (hcurr : c'.currProc = c.currProc) (halloc : c'.allocated = c.allocated)
    (hdead : (c'.tcbs c.fstProc).dead = (c.tcbs c.fstProc).dead) : Linked c' := by
  rcases h with ⟨hfst', hlst', hcurr'⟩ | ⟨ring, lst, hring, hend⟩
  · exact Or.inl ⟨hfst.trans hfst', hlst.trans hlst', hcurr.trans hcurr'⟩
  · exact Or.inr ⟨ring, lst, hring.congr hnext hfst hcurr halloc hdead, hlst ▸ hend⟩

theorem Linked.atTick {c : Ctx} (h : Linked c) (lock : Nat) : Linked (c.atTick lock) :=
  h.congr rfl rfl rfl rfl rfl rfl

/-- `q` is the process a switch goes to: the first live one behind the current. -/
def IsTarget (c : Ctx) (q : Nat) : Prop :=
  ∃ ds, Walk (nextOf c) (nextOf c c.currProc) ds q ∧ (∀ d ∈ ds, (c.tcbs d).dead = true) ∧
    (c.tcbs q).dead = false

theorem IsTarget.unique {c : Ctx} {p q : Nat} (hp : IsTarget c p) (hq : IsTarget c q) :
    p = q := by
  obtain ⟨ds, hwalk, hdead, halive⟩ := hp
  obtain ⟨es, hwalk', hdead', halive'⟩ := hq
  have hlive : ∀ {r}, (c.tcbs r).dead = false → ¬ (c.tcbs r).dead = true := by
    intro r hr hr'
    rw [hr] at hr'
    exact Bool.noConfusion hr'
  exact hwalk.stop_unique (P := fun d => (c.tcbs d).dead = true) hwalk' hdead hdead'
    (hlive halive) (hlive halive')

theorem linked_spawnKernel {c : Ctx} (h : NoProcess c) (answer : Nat) (rs : Regs) :
    Linked (spawnKernelProcess answer rs c).2 := by
  obtain ⟨hfst, hlst, hcurr⟩ := h
  by_cases hanswer : answer = 0
  · refine Or.inl ?_
    rw [spawnKernelProcess, if_pos hanswer]
    exact ⟨hfst, hlst, rfl⟩
  · refine Or.inr ⟨[answer], answer, onRing_spawnKernelProcess hanswer rs c, Or.inl ?_⟩
    rw [spawnKernelProcess, if_neg hanswer]

/-- A block linked in behind a block that is not on the ring is not on it either. -/
theorem onRing_spawned_off {ring : List Nat} {lst : Nat} {c : Ctx} (h : OnRing ring lst c)
    {stub answer page fn nPages : Nat} {bm : PageBitmap} {rs : Regs}
    (hfresh : answer ∉ ring) (hlst : c.lstProc ∉ ring) :
    OnRing ring lst (spawned stub answer page bm rs fn nPages c) where
  isRing := by
    rw [nextOf_spawned]
    exact ⟨(h.isRing.walk.update hlst).update hfresh, h.isRing.nodup, h.isRing.last⟩
  curr := h.curr
  nonzero := h.nonzero
  allocated := fun p hp => List.mem_cons_of_mem _ (h.allocated p hp)
  kernel := by
    have hne : c.fstProc ≠ answer := by
      rintro rfl
      exact hfresh h.isRing.fst_mem
    exact (dead_spawned hne).trans h.kernel

theorem linked_spawnProcess {stub answer fn nPages : Nat} {rs : Regs} {c c' : Ctx}
    (h : Linked c) (hfresh : answer ∉ c.allocated)
    (hcall : spawnProcess stub answer rs fn nPages c = .ok (0, c')) : Linked c' := by
  obtain ⟨page, bm, _, hanswer, hlst, rfl⟩ := spawnProcess_ok hcall
  rcases h with hnone | ⟨ring, lst, hring, hend⟩
  · exact absurd hnone.2.1 hlst
  · have hout : answer ∉ ring := fun hmem => hfresh (hring.allocated answer hmem)
    rcases hend with rfl | hoff
    · exact Or.inr ⟨_, _, hring.spawned hout hanswer, Or.inl rfl⟩
    · exact Or.inr ⟨_, _, onRing_spawned_off hring hout hoff, Or.inr hout⟩

theorem linked_finished {c : Ctx} (h : Linked c) (hkernel : c.currProc ≠ c.fstProc) :
    Linked (finished c) := by
  rcases h with hnone | ⟨ring, lst, hring, hend⟩
  · exact Or.inl hnone
  · exact Or.inr ⟨ring, lst, hring.finished hkernel, hend⟩

/-- A switch that reaps the end of the ring leaves `lst_proc` off it. -/
theorem linked_switched {ring : List Nat} {lst : Nat} {c : Ctx} {pre ds post : List Nat}
    {z : Nat} (h : OnRing ring lst c) (hend : c.lstProc = lst ∨ c.lstProc ∉ ring)
    (hs : SwitchShape ring c pre ds post z) (bm : PageBitmap) (rs : Regs) :
    Linked (switched ds z bm rs c) := by
  refine Or.inr ⟨_, _, h.switched hs bm rs, ?_⟩
  change c.lstProc = _ ∨ c.lstProc ∉ _
  rcases hend with rfl | hoff
  · rcases hs.last_cases h with hlast | ⟨_, hmem⟩
    · exact Or.inl hlast.symm
    · exact Or.inr fun hkept => hs.not_reaped h hkept hmem
  · exact Or.inr fun hmem => hoff (hs.mem_ring hmem)

/-- A call of `scheduler` that returns does not switch, or switches as the ring
dictates. -/
theorem scheduler_linked {c c' : Ctx} {rs left : Regs} (h : Linked c)
    (hcall : scheduler rs c = .ok (left, c')) :
    Linked c' ∧ ((¬ Switches c ∧ left = rs ∧ c' = ticked c) ∨
      (Switches c ∧ ∃ ds z bm, IsTarget c z ∧ c' = switched ds z bm rs c ∧
        left = (c'.tcbs z).regs)) := by
  rcases h with hnone | ⟨ring, lst, hring, hend⟩
  · have hidle : ¬ (Due c ∧ c.lockCtx = 0) := by
      rintro ⟨hdue, hlock⟩
      rw [scheduler_of_due rs hdue, if_pos hlock, hnone.2.2] at hcall
      exact Except.noConfusion rfl rfl (heq_of_eq hcall)
    have hres : scheduler rs c = .ok (rs, ticked c) := by
      by_cases hdue : Due c
      · rw [scheduler_of_due rs hdue]
        exact if_neg fun hlock => hidle ⟨hdue, hlock⟩
      · exact scheduler_of_not_due rs hdue
    rw [hcall, Except.ok.injEq, Prod.mk.injEq] at hres
    obtain ⟨rfl, rfl⟩ := hres
    exact ⟨Or.inl hnone, Or.inl ⟨fun hsw => hidle ⟨hsw.1, hsw.2.1⟩, rfl, rfl⟩⟩
  · rcases scheduler_cases hring rs with ⟨hno, hres⟩ | ⟨hsw, pre, ds, post, z, bm, hs, hres⟩
    · rw [hcall, Except.ok.injEq, Prod.mk.injEq] at hres
      obtain ⟨rfl, rfl⟩ := hres
      exact ⟨Or.inr ⟨ring, lst, hring.ticked, hend⟩, Or.inl ⟨hno, rfl, rfl⟩⟩
    · rw [hcall, Except.ok.injEq, Prod.mk.injEq] at hres
      obtain ⟨rfl, rfl⟩ := hres
      exact ⟨linked_switched hring hend hs bm rs,
        Or.inr ⟨hsw, ds, z, bm, ⟨ds, hs.walk, hs.dead, hs.alive⟩, rfl, rfl⟩⟩

end DonutOS.Kernel
