import DonutOS.Kernel.CtxLinks
import DonutOS.Kernel.CtxRuns

set_option autoImplicit false

/-!
# Kernel: the frames of the processes over whole runs

From a ring that `spawn_kernel_process` and `spawn_process` built, `scheduler` is
called and processes die, in any order.  The run may reap the process at the end
of the list: it spawns no more, so nothing follows `lst_proc` again.
-/

namespace DonutOS.Kernel

open DonutOS.Foundation

/-- A step that builds the ring. -/
def BuildStep (stub : Nat) (s : ProcState) (call : CtxCall) (t : ProcState) : Prop :=
  CtxStep stub s call t ∧ call.IsSpawn

/-- A step on the built ring. -/
def RunStep (stub : Nat) (s : ProcState) (call : CtxCall) (t : ProcState) : Prop :=
  CtxStep stub s call t ∧ ¬ call.IsSpawn

/-- What a call does to the frames.  One that meets the guards makes the first live
process behind the current one current, and leaves in `*rs` what was there when that
process was last switched out; any other leaves the current process, `*rs` and the
`regs` of every block unchanged. -/
def FrameKept (s : ProcState) : CtxCall → ProcState → Prop
  | .schedule rs now on lock left, t =>
      if Switches (s.ctx.enter now on lock) then
        IsTarget s.ctx t.ctx.currProc ∧ left = t.saved t.ctx.currProc
      else
        t.ctx.currProc = s.ctx.currProc ∧ left = rs ∧
          ∀ p, (t.ctx.tcbs p).regs = (s.ctx.tcbs p).regs
  | _, _ => True

/-- A call of `scheduler` returns, whatever the frame and the variables it
finds. -/
def SchedulerReturns (s : ProcState) : Prop :=
  ∀ rs now on lock, ∃ left c, scheduler rs (s.ctx.enter now on lock) = .ok (left, c)

/-- Every block holds the frame its process was last switched out with. -/
def FramesSaved (s : ProcState) : Prop := ∀ p, (s.ctx.tcbs p).regs = s.saved p

/-- The invariant of the runs. -/
def FrameInv (s : ProcState) : Prop :=
  (∃ ring lst, OnRing ring lst s.ctx) ∧ FramesSaved s

theorem FrameInv.schedulerReturns {s : ProcState} (h : FrameInv s) : SchedulerReturns s := by
  obtain ⟨⟨ring, lst, hring⟩, _⟩ := h
  intro rs now on lock
  rcases scheduler_cases (hring.enter now on lock) rs with
    ⟨_, hres⟩ | ⟨_, pre, ds, post, z, bm, _, hres⟩
  · exact ⟨_, _, hres⟩
  · exact ⟨_, _, hres⟩

/-! ## The frames under each call -/

theorem framesSaved_kernelStart (answer : Nat) (rs : Regs) (c : Ctx) :
    FramesSaved (kernelStart answer rs c) := fun _ => rfl

theorem regs_spawned {stub answer page fn nPages : Nat} {bm : PageBitmap} {rs : Regs}
    {c : Ctx} {p : Nat} (hp : p ≠ answer) :
    ((spawned stub answer page bm rs fn nPages c).tcbs p).regs = (c.tcbs p).regs := by
  by_cases hlst : p = c.lstProc
  · rw [hlst] at hp ⊢
    simp [spawned, Function.update_of_ne hp]
  · simp [spawned, Function.update_of_ne hp, Function.update_of_ne hlst]

theorem regs_finished (c : Ctx) (p : Nat) :
    ((finished c).tcbs p).regs = (c.tcbs p).regs := by
  by_cases hp : p = c.currProc
  · simp [finished, hp]
  · simp [finished, Function.update_of_ne hp]

/-- A switch writes one frame, that of the process switched out. -/
theorem regs_switched (ds : List Nat) (z : Nat) (bm : PageBitmap) (rs : Regs) (c : Ctx)
    (p : Nat) : ((switched ds z bm rs c).tcbs p).regs =
      Function.update (fun q => (c.tcbs q).regs) c.currProc rs p := by
  by_cases hp : p = c.currProc
  · simp [switched, hp]
  · simp [switched, Function.update_of_ne hp]

theorem framesSaved_spawn {stub : Nat} {s t : ProcState} {rs : Regs} {fn nPages answer : Nat}
    (hsaved : FramesSaved s) (hstep : CtxStep stub s (.spawn rs fn nPages answer) t) :
    FramesSaved t := by
  cases hstep with
  | spawn _ hcall =>
      obtain ⟨page, bm, _, _, _, rfl⟩ := spawnProcess_ok hcall
      intro p
      by_cases hp : p = answer
      · simp [hp]
      · rw [regs_spawned hp]
        exact (hsaved p).trans (Function.update_of_ne hp _ _).symm

/-- Building keeps the ring and the frames. -/
theorem frameInv_build {stub : Nat} {s t : ProcState} {call : CtxCall}
    (h : RingInv s ∧ FramesSaved s) (hstep : BuildStep stub s call t) :
    RingInv t ∧ FramesSaved t := by
  obtain ⟨hstep, hspawn⟩ := hstep
  cases call with
  | spawn rs fn nPages answer =>
      exact ⟨ringInv_spawn h.1 hstep, framesSaved_spawn h.2 hstep⟩
  | finish => exact absurd hspawn not_false
  | schedule rs now on lock left => exact absurd hspawn not_false

/-- A step of the run keeps the invariant, and does with the frames what it
should. -/
theorem frameInv_run {stub : Nat} {s t : ProcState} {call : CtxCall} (h : FrameInv s)
    (hstep : RunStep stub s call t) : FrameInv t ∧ FrameKept s call t := by
  obtain ⟨⟨ring, lst, hring⟩, hsaved⟩ := h
  obtain ⟨hstep, hspawn⟩ := hstep
  cases call with
  | spawn rs fn nPages answer => exact absurd trivial hspawn
  | finish =>
      cases hstep with
      | finish hkernel hcall =>
          obtain rfl := stubFinish_ok hcall
          refine ⟨⟨⟨ring, lst, hring.finished hkernel⟩, fun p => ?_⟩, trivial⟩
          exact (regs_finished s.ctx p).trans (hsaved p)
  | schedule rs now on lock left =>
      cases hstep with
      | schedule hcall =>
          have henter := hring.enter now on lock
          rcases scheduler_cases henter rs with
            ⟨hno, hres⟩ | ⟨hsw, pre, ds, post, z, bm, hs, hres⟩
          · rw [hcall, Except.ok.injEq, Prod.mk.injEq] at hres
            obtain ⟨rfl, rfl⟩ := hres
            refine ⟨⟨⟨ring, lst, henter.ticked⟩, fun p => ?_⟩, ?_⟩
            · rw [if_neg hno]
              exact hsaved p
            · rw [FrameKept, if_neg hno]
              exact ⟨rfl, rfl, fun p => rfl⟩
          · rw [hcall, Except.ok.injEq, Prod.mk.injEq] at hres
            obtain ⟨rfl, rfl⟩ := hres
            -- every block now holds what the record says, also the one switched to
            have hkept : ∀ p, ((switched ds z bm rs (s.ctx.enter now on lock)).tcbs p).regs =
                Function.update s.saved s.ctx.currProc rs p := by
              intro p
              rw [regs_switched]
              exact congrArg (fun f => Function.update f s.ctx.currProc rs p) (funext hsaved)
            refine ⟨⟨⟨_, _, henter.switched hs bm rs⟩, fun p => ?_⟩, ?_⟩
            · rw [if_pos hsw]
              exact hkept p
            · rw [FrameKept, if_pos hsw, if_pos hsw]
              exact ⟨⟨ds, hs.walk, hs.dead, hs.alive⟩, hkept z⟩

/-! ## The theorem -/

/-- On every ring that was built, and along every run on it: a call that meets the
guards switches to the first live process behind the current one and leaves the frame
that process was last switched out with, any other call leaves the current process and
all frames alone, and no call faults. -/
theorem ctxRuns_frames_kept {stub answer : Nat} (hanswer : answer ≠ 0) (rs : Regs) (c : Ctx)
    {build run : List (CtxCall × ProcState)}
    (hbuild : IsPath (BuildStep stub) (kernelStart answer rs c) build)
    (hrun : IsPath (RunStep stub) (endState (kernelStart answer rs c) build) run) :
    IsPath FrameKept (endState (kernelStart answer rs c) build) run ∧
      ∀ t ∈ visited (endState (kernelStart answer rs c) build) run, SchedulerReturns t := by
  have hbuildStep : ∀ u call v, RingInv u ∧ FramesSaved u → BuildStep stub u call v →
      RingInv v ∧ FramesSaved v := fun u call v => frameInv_build
  have hstart : RingInv (kernelStart answer rs c) ∧ FramesSaved (kernelStart answer rs c) :=
    ⟨ringInv_kernelStart hanswer rs c, framesSaved_kernelStart answer rs c⟩
  obtain ⟨⟨ring, hring, _⟩, hsaved⟩ :=
    hbuild.invariant hbuildStep hstart _ (endState_mem_visited _ build)
  have hinv : FrameInv (endState (kernelStart answer rs c) build) :=
    ⟨⟨ring, _, hring⟩, hsaved⟩
  have hrunStep : ∀ u call v, FrameInv u → RunStep stub u call v →
      FrameInv v ∧ FrameKept u call v := fun u call v => frameInv_run
  refine ⟨hrun.steps_of_invariant hrunStep hinv, fun t ht => ?_⟩
  have hkeeps : ∀ u call v, FrameInv u → RunStep stub u call v → FrameInv v :=
    fun u call v hu huv => (hrunStep u call v hu huv).1
  exact (hrun.invariant hkeeps hinv t ht).schedulerReturns

/-- The kernel spawns one process and the scheduler switches to it. -/
theorem ctxRuns_frames_kept_two : ∃ (s t : ProcState) (left : Regs),
    RunStep 0 s (.schedule default 11 true 0 left) t ∧ Switches (s.ctx.enter 11 true 0) ∧
      FrameKept s (.schedule default 11 true 0 left) t := by
  obtain ⟨s, hbuild, hring, hcurr, _, halive, hlast⟩ := exists_two
  have hsw := hring.switches 11 (by rw [hlast]; decide)
  obtain ⟨left, _, t, hstep, _, _⟩ :=
    exists_schedule 0 default hring (hring.shape_alive hcurr halive) hsw
  have hpathBuild : IsPath (BuildStep 0) (kernelStart 0x100004 default bootCtx) [(_, s)] :=
    ⟨⟨hbuild, trivial⟩, trivial⟩
  have hpathRun : IsPath (RunStep 0) s [(_, t)] := ⟨⟨hstep, not_false⟩, trivial⟩
  have hkept := ctxRuns_frames_kept (by decide) default bootCtx hpathBuild hpathRun
  exact ⟨s, t, left, ⟨hstep, not_false⟩, hsw, hkept.1.1⟩

end DonutOS.Kernel
