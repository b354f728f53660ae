import DonutOS.Foundation.NestLock
import DonutOS.Foundation.Path
import DonutOS.Kernel.CtxLinks
import DonutOS.Kernel.CtxRuns

set_option autoImplicit false

/-!
# Kernel: critical sections (`kernel/include/ctx.h`)

`CRITICAL_SECTION_START` and `CRITICAL_SECTION_END` are each a load and a store of
`lock_ctx`, a `uint8_t`.  The processes take these steps, the timer ticks between
any two of them, and the scheduler may switch; processes are spawned and finish.
-/

namespace DonutOS.Kernel

open DonutOS.Foundation

/-- The values of `lock_ctx`. -/
def lockLimit : Nat := 2 ^ 8

/-- The globals, and for each process where it is in a section. -/
structure SectionState where
  ctx : Ctx
  nest : Nat → Nest

inductive SectionEvent
  /-- `CRITICAL_SECTION_START` of the current process, nested below 256 -/
  | startLoad
  | startStore
  /-- `CRITICAL_SECTION_END` of the current process -/
  | endLoad
  | endStore
  | tick (rs : Regs)
  /-- the scheduler is turned on or off -/
  | toggle (on : Bool)
  | spawnKernel (rs : Regs) (answer : Nat)
  /-- `spawn_process` returns `0` -/
  | spawn (rs : Regs) (fn nPages answer : Nat)
  | finish

/-- One event. -/
inductive SectionStep (stub : Nat) : SectionState → SectionEvent → SectionState → Prop
  | startLoad {s : SectionState} {d : Nat} (hnest : s.nest s.ctx.currProc = ⟨.idle, d⟩)
      (hdepth : d + 1 < lockLimit) :
      SectionStep stub s .startLoad { s with
        nest := Function.update s.nest s.ctx.currProc ⟨.entering s.ctx.lockCtx, d⟩ }
  | startStore {s : SectionState} {v d : Nat}
      (hnest : s.nest s.ctx.currProc = ⟨.entering v, d⟩) :
      SectionStep stub s .startStore
        ⟨{ s.ctx with lockCtx := (v + 1) % lockLimit },
          Function.update s.nest s.ctx.currProc ⟨.idle, d + 1⟩⟩
  | endLoad {s : SectionState} {d : Nat} (hnest : s.nest s.ctx.currProc = ⟨.idle, d + 1⟩) :
      SectionStep stub s .endLoad { s with
        nest := Function.update s.nest s.ctx.currProc ⟨.leaving s.ctx.lockCtx, d + 1⟩ }
  | endStore {s : SectionState} {v d : Nat}
      (hnest : s.nest s.ctx.currProc = ⟨.leaving v, d + 1⟩) :
      SectionStep stub s .endStore
        ⟨{ s.ctx with lockCtx := (v + (lockLimit - 1)) % lockLimit },
          Function.update s.nest s.ctx.currProc ⟨.idle, d⟩⟩
  | tick {s : SectionState} {rs left : Regs} {c : Ctx}
      (hcall : timerHandler rs s.ctx = .ok (left, c)) :
      SectionStep stub s (.tick rs) { s with ctx := c }
  | toggle {s : SectionState} {on : Bool} :
      SectionStep stub s (.toggle on) { s with ctx := { s.ctx with schedulerOn := on } }
  | spawnKernel {s : SectionState} {rs : Regs} {answer : Nat} (hfirst : s.ctx.fstProc = 0)
      (hanswer : answer ≠ 0) :
      -- what ran so far goes on as the kernel process
      SectionStep stub s (.spawnKernel rs answer)
        ⟨(spawnKernelProcess answer rs s.ctx).2,
          Function.update (Function.update s.nest s.ctx.currProc ⟨.idle, 0⟩) answer
            (s.nest s.ctx.currProc)⟩
  | spawn {s : SectionState} {rs : Regs} {fn nPages answer : Nat} {c : Ctx}
      (hfresh : answer ∉ s.ctx.allocated)
      (hcall : spawnProcess stub answer rs fn nPages s.ctx = .ok (0, c)) :
      SectionStep stub s (.spawn rs fn nPages answer)
        ⟨c, Function.update s.nest answer ⟨.idle, 0⟩⟩
  | finish {s : SectionState} {c : Ctx} (hkernel : s.ctx.currProc ≠ s.ctx.fstProc)
      (hcall : stubFinish s.ctx = .ok c) :
      SectionStep stub s .finish { s with ctx := c }

/-- Nobody has touched the lock. -/
def sectionStart (c : Ctx) : SectionState := ⟨c, fun _ => ⟨.idle, 0⟩⟩

/-- Between its outermost `CRITICAL_SECTION_START` and the matching end. -/
def SectionState.Inside (s : SectionState) (p : Nat) : Prop := 0 < (s.nest p).depth

/-- What the lock is for. -/
structure SectionSafe (s : SectionState) : Prop where
  atMostOne : ∀ p q, s.Inside p → s.Inside q → p = q
  onlyRuns : ∀ p, s.Inside p → s.ctx.currProc = p ∧
    ∀ rs, ∃ c, timerHandler rs s.ctx = .ok (rs, c) ∧ c.currProc = p
  lockIsDepth : ∀ p, s.Inside p → s.ctx.lockCtx = (s.nest p).depth
  lockIsFree : (∀ p, ¬ s.Inside p) → s.ctx.lockCtx = 0

/-! ## The lock of the kernel as the lock of `Foundation.NestLock` -/

/-- The state as the lock sees it. -/
def SectionState.lockState (s : SectionState) : LockState Nat :=
  ⟨s.ctx.currProc, s.ctx.lockCtx, s.nest⟩

/-- A call of `scheduler` with the lock taken does not even look for a process. -/
theorem scheduler_of_locked {c : Ctx} (rs : Regs) (hlock : c.lockCtx ≠ 0) :
    scheduler rs c = .ok (rs, ticked c) := by
  by_cases hdue : Due c
  · rw [scheduler_of_due rs hdue, if_neg hlock]
  · exact scheduler_of_not_due rs hdue

/-- A tick leaves the lock alone, and changes the process only when the lock is
free. -/
theorem timerHandler_lock {c c' : Ctx} {rs left : Regs} (h : Linked c)
    (hcall : timerHandler rs c = .ok (left, c')) :
    Linked c' ∧ c'.lockCtx = c.lockCtx ∧ (c.lockCtx = 0 ∨ c'.currProc = c.currProc) := by
  have hsched : scheduler rs (c.atTick c.lockCtx) = .ok (left, c') := hcall
  obtain ⟨hlinked, hcase⟩ := scheduler_linked (h.atTick c.lockCtx) hsched
  refine ⟨hlinked, ?_⟩
  rcases hcase with ⟨_, _, rfl⟩ | ⟨hsw, ds, z, bm, _, rfl, _⟩
  · exact ⟨rfl, Or.inr rfl⟩
  · exact ⟨rfl, Or.inl hsw.2.1⟩

/-- The invariant of all runs. -/
structure SectionInv (s : SectionState) : Prop where
  linked : Linked s.ctx
  lockInv : LockInv lockLimit s.lockState

/-- Every event is a step of the lock, or none of its concern. -/
theorem lockStep_of_sectionStep {stub : Nat} {s t : SectionState} {event : SectionEvent}
    (h : Linked s.ctx) (hstep : SectionStep stub s event t) :
    Linked t.ctx ∧ (LockStep lockLimit s.lockState t.lockState ∨ t.lockState = s.lockState) := by
  cases hstep with
  | startLoad hnest hdepth => exact ⟨h, Or.inl (.enterLoad hnest hdepth)⟩
  | startStore hnest => exact ⟨h.congr rfl rfl rfl rfl rfl rfl, Or.inl (.enterStore hnest)⟩
  | endLoad hnest => exact ⟨h, Or.inl (.leaveLoad hnest)⟩
  | endStore hnest => exact ⟨h.congr rfl rfl rfl rfl rfl rfl, Or.inl (.leaveStore hnest)⟩
  | @tick _ _ c hcall =>
      obtain ⟨hlinked, hlock, hfree⟩ := timerHandler_lock h hcall
      have hstate : SectionState.lockState ⟨c, s.nest⟩ =
          { s.lockState with curr := c.currProc } := by
        rw [SectionState.lockState, hlock]
        rfl
      exact ⟨hlinked, Or.inl (hstate ▸ .switch hfree)⟩
  | toggle => exact ⟨h.congr rfl rfl rfl rfl rfl rfl, Or.inr rfl⟩
  | @spawnKernel rs answer hfirst hanswer =>
      have hnone : NoProcess s.ctx := by
        rcases h with hnone | ⟨ring, lst, hring, _⟩
        · exact hnone
        · exact absurd hfirst (hring.nonzero _ hring.isRing.fst_mem)
      refine ⟨linked_spawnKernel hnone answer rs, Or.inl ?_⟩
      rw [spawnKernelProcess, if_neg hanswer]
      exact .rename
  | @spawn rs fn nPages answer c hfresh hcall =>
      refine ⟨linked_spawnProcess h hfresh hcall, Or.inl ?_⟩
      obtain ⟨page, bm, _, hanswer, _, rfl⟩ := spawnProcess_ok hcall
      -- the block of the process that runs is not handed out again
      have hother : answer ≠ s.ctx.currProc := by
        rintro rfl
        rcases h with hnone | ⟨ring, lst, hring, _⟩
        · exact hanswer hnone.2.2
        · exact hfresh (hring.allocated _ hring.curr)
      exact .fresh hother
  | finish hkernel hcall =>
      obtain rfl := stubFinish_ok hcall
      exact ⟨linked_finished h hkernel, Or.inr rfl⟩

theorem sectionInv_step {stub : Nat} {s t : SectionState} {event : SectionEvent}
    (h : SectionInv s) (hstep : SectionStep stub s event t) : SectionInv t := by
  obtain ⟨hlinked, hlock⟩ := lockStep_of_sectionStep h.linked hstep
  rcases hlock with hlock | hsame
  · exact ⟨hlinked, h.lockInv.step hlock⟩
  · exact ⟨hlinked, hsame ▸ h.lockInv⟩

theorem sectionInv_start {c : Ctx} (hnone : NoProcess c) (hlock : c.lockCtx = 0) :
    SectionInv (sectionStart c) := by
  have hfits : Nest.Fits lockLimit ⟨.idle, 0⟩ 0 := ⟨rfl, by decide, trivial⟩
  refine ⟨Or.inl hnone, ⟨?_, fun _ _ => hfits⟩⟩
  change Nest.Fits lockLimit ⟨.idle, 0⟩ c.lockCtx
  rw [hlock]
  exact hfits

theorem SectionInv.safe {s : SectionState} (h : SectionInv s) : SectionSafe s where
  atMostOne := by
    intro p q hp hq
    exact (h.lockInv.inside hp).1.trans (h.lockInv.inside hq).1.symm
  onlyRuns := by
    intro p hp
    obtain ⟨hcurr, hdepth⟩ := h.lockInv.inside hp
    have hlock : s.ctx.lockCtx ≠ 0 := by
      have hpos : 0 < (s.nest p).depth := hp
      rw [← show s.ctx.lockCtx = (s.nest p).depth from hdepth] at hpos
      exact Nat.ne_of_gt hpos
    refine ⟨hcurr.symm, fun rs => ⟨_, scheduler_of_locked rs hlock, hcurr.symm⟩⟩
  lockIsDepth := fun p hp => (h.lockInv.inside hp).2
  lockIsFree := h.lockInv.lock_eq_zero

/-- From boot on, in every state that any interleaving reaches: at most one process
is inside a critical section, only that one can run, and the lock is its nesting
depth; with nobody inside the lock is free. -/
theorem sectionRuns_safe {stub : Nat} {c : Ctx} (hnone : NoProcess c) (hlock : c.lockCtx = 0)
    {path : List (SectionEvent × SectionState)}
    (hpath : IsPath (SectionStep stub) (sectionStart c) path) :
    ∀ t ∈ visited (sectionStart c) path, SectionSafe t := by
  have hstep : ∀ s event t, SectionInv s → SectionStep stub s event t → SectionInv t :=
    fun s event t h hstep => sectionInv_step h hstep
  intro t ht
  exact (hpath.invariant hstep (sectionInv_start hnone hlock) t ht).safe

/-! ## A process that is preempted at its first load -/

/-- A tick that switches, on a ring. -/
theorem exists_switchTick (stub : Nat) {s : SectionState} {ring : List Nat} {lst : Nat}
    {pre ds post : List Nat} {z : Nat} (h : OnRing ring lst s.ctx)
    (hs : SwitchShape ring s.ctx pre ds post z) (hlock : s.ctx.lockCtx = 0)
    (hsw : Switches (s.ctx.atTick 0)) :
    ∃ bm t, SectionStep stub s (.tick default) t ∧ t.nest = s.nest ∧
      t.ctx = switched ds z bm default (s.ctx.atTick 0) ∧
      OnRing (pre ++ s.ctx.currProc :: post) (if post = [] then s.ctx.currProc else lst)
        t.ctx := by
  have hs' : SwitchShape ring (s.ctx.atTick 0) pre ds post z :=
    ⟨hs.split, hs.walk, hs.dead, hs.alive, hs.rest⟩
  have hatTick := h.atTick 0
  obtain ⟨bm, hcall⟩ := scheduler_of_switches default hatTick hs' hsw
  have htick : timerHandler default s.ctx = scheduler default (s.ctx.atTick 0) := by
    rw [Ctx.atTick, ← hlock]
    rfl
  exact ⟨bm, _, .tick (htick.trans hcall), rfl, rfl, hatTick.switched hs' bm default⟩

theorem OnRing.switches_atTick {k a : Nat} {c : Ctx} (h : OnRing [k, a] a c)
    (hon : c.schedulerOn = true)
    (hdue : (c.lastTicks + quantum) % 2 ^ 32 < (c.ticks + 1) % 2 ^ 32) :
    Switches (c.atTick 0) := by
  have hsw := h.switches _ hdue
  rw [Ctx.enter, ← hon] at hsw
  exact hsw

/-- The current process goes through a section. -/
theorem exists_section (stub : Nat) {s : SectionState}
    (hidle : s.nest s.ctx.currProc = ⟨.idle, 0⟩) (hlock : s.ctx.lockCtx = 0) :
    ∃ s₁ s₂ s₃ t, IsPath (SectionStep stub) s
        [(.startLoad, s₁), (.startStore, s₂), (.endLoad, s₃), (.endStore, t)] ∧
      s₂.Inside s.ctx.currProc ∧ (∀ q, q ≠ s.ctx.currProc → s₂.nest q = s.nest q) ∧
      t.ctx = s.ctx ∧ ∀ q, q ≠ s.ctx.currProc → t.nest q = s.nest q := by
  have hself : ∀ (n : Nat → Nest) (v : Nest),
      Function.update n s.ctx.currProc v s.ctx.currProc = v := fun n v => Function.update_self ..
  refine ⟨_, _, _, _, ⟨.startLoad hidle (by decide), .startStore (hself _ _),
    .endLoad (hself _ _), .endStore (hself _ _), trivial⟩, ?_, fun q hq => ?_, ?_,
    fun q hq => ?_⟩
  · exact lt_of_lt_of_eq (Nat.succ_pos 0) (congrArg Nest.depth (hself _ ⟨.idle, 1⟩)).symm
  · simp only [Function.update_of_ne hq]
  · have hback : ((s.ctx.lockCtx + 1) % lockLimit + (lockLimit - 1)) % lockLimit =
        s.ctx.lockCtx := by
      rw [hlock]
      decide
    exact congrArg (fun lock => { s.ctx with lockCtx := lock }) hback
  · simp only [Function.update_of_ne hq]

/-- The process `k` is preempted between the load and the store of its
`CRITICAL_SECTION_START`.  The other one goes through a section of its own, and then `k`
stores; the tick inside does not switch. -/
theorem exists_preempted (stub : Nat) {s : SectionState} {k a : Nat}
    (h : OnRing [k, a] a s.ctx) (hcurr : s.ctx.currProc = k)
    (halive : (s.ctx.tcbs a).dead = false) (hk : s.nest k = ⟨.idle, 0⟩)
    (ha : s.nest a = ⟨.idle, 0⟩) (hon : s.ctx.schedulerOn = true) (hlock : s.ctx.lockCtx = 0)
    (hlast : s.ctx.lastTicks = 0) (hticks : s.ctx.ticks = 2 ^ 32 - 11) :
    ∃ path : List (SectionEvent × SectionState),
      path.map Prod.fst = [.startLoad, .tick default, .startLoad, .startStore, .endLoad,
        .endStore, .tick default, .startStore, .tick default] ∧
      IsPath (SectionStep stub) s path ∧
      (∃ t ∈ visited s path, t.Inside a ∧ t.nest k = ⟨.entering 0, 0⟩) ∧
      (endState s path).Inside k := by
  have hne : k ≠ a := h.ne
  -- `k` loads
  obtain ⟨s₁, hstep₁, hctx₁, hk₁, ha₁⟩ : ∃ s₁, SectionStep stub s .startLoad s₁ ∧
      s₁.ctx = s.ctx ∧ s₁.nest k = ⟨.entering 0, 0⟩ ∧ s₁.nest a = ⟨.idle, 0⟩ := by
    refine ⟨_, .startLoad (hcurr ▸ hk) (by decide), rfl, ?_, ?_⟩
    · simp only [hcurr, hlock, Function.update_self]
    · simp only [hcurr, Function.update_of_ne hne.symm, ha]
  rw [← hctx₁] at h hcurr halive hon hlock hlast hticks
  -- the switch to the other process
  obtain ⟨bm₂, s₂, hstep₂, hnest₂, hctx₂, h₂⟩ := exists_switchTick stub h
    (h.shape_alive hcurr halive) hlock
    (h.switches_atTick hon (by rw [hlast, hticks]; decide))
  rw [hcurr] at h₂
  have hcurr₂ : s₂.ctx.currProc = a := by rw [hctx₂]; rfl
  have hlock₂ : s₂.ctx.lockCtx = 0 := by rw [hctx₂]; rfl
  -- its section
  obtain ⟨s₃, s₄, s₅, s₆, hsection, hinside, hkept₄, hctx₆, hkept₆⟩ :=
    exists_section stub (by rw [hcurr₂, hnest₂]; exact ha₁) hlock₂
  rw [hcurr₂] at hinside hkept₄ hkept₆
  rw [← hctx₆] at h₂ hcurr₂ hlock₂ hctx₂
  -- and the switch back
  obtain ⟨bm₇, s₇, hstep₇, hnest₇, hctx₇, -⟩ := exists_switchTick stub h₂
    (h₂.shape_other hcurr₂) hlock₂
    (h₂.switches_atTick (by rw [hctx₂]; exact hon) (by
      have hlast₂ : s₆.ctx.lastTicks = (s₁.ctx.ticks + 1) % 2 ^ 32 := by rw [hctx₂]; rfl
      have hticks₂ : s₆.ctx.ticks = (s₁.ctx.ticks + 1) % 2 ^ 32 := by rw [hctx₂]; rfl
      rw [hlast₂, hticks₂, hticks]
      decide))
  have hcurr₇ : s₇.ctx.currProc = k := by rw [hctx₇]; rfl
  have hk₇ : s₇.nest s₇.ctx.currProc = ⟨.entering 0, 0⟩ := by
    rw [hcurr₇, hnest₇, hkept₆ k hne, hnest₂, hk₁]
  have hk₄ : s₄.nest k = ⟨.entering 0, 0⟩ := by
    rw [hkept₄ k hne, hnest₂, hk₁]
  have hone : (0 + 1) % lockLimit ≠ 0 := by decide
  have hlocked : timerHandler default { s₇.ctx with lockCtx := (0 + 1) % lockLimit } =
      .ok (default, _) := scheduler_of_locked default hone
  obtain ⟨s₈, s₉, hstep₈, hstep₉, hend⟩ : ∃ s₈ s₉, SectionStep stub s₇ .startStore s₈ ∧
      SectionStep stub s₈ (.tick default) s₉ ∧ s₉.Inside k := by
    refine ⟨_, _, .startStore hk₇, .tick hlocked, ?_⟩
    have hnest : Function.update s₇.nest s₇.ctx.currProc ⟨.idle, 0 + 1⟩ k = ⟨.idle, 1⟩ := by
      rw [hcurr₇, Function.update_self]
    exact lt_of_lt_of_eq (Nat.succ_pos 0) (congrArg Nest.depth hnest).symm
  obtain ⟨hstep₃, hstep₄, hstep₅, hstep₆, -⟩ := hsection
  refine ⟨[(_, s₁), (_, s₂), (_, s₃), (_, s₄), (_, s₅), (_, s₆), (_, s₇), (_, s₈), (_, s₉)], rfl,
    ⟨hstep₁, hstep₂, hstep₃, hstep₄, hstep₅, hstep₆, hstep₇, hstep₈, hstep₉, trivial⟩,
    ⟨s₄, ?_, hinside, hk₄⟩, hend⟩
  simp

/-- Eleven ticks before `ticks` wraps, so that the switch back comes at the next tick. -/
def lateCtx : Ctx := { bootCtx with ticks := 2 ^ 32 - 11 }

/-- From boot on: while the kernel is between load and store, the other process is inside. -/
theorem sectionRuns_safe_preempted : ∃ path : List (SectionEvent × SectionState),
    path.map Prod.fst = [.spawnKernel default 0x100004, .spawn default 0 1 0x100061,
      .toggle true, .startLoad, .tick default, .startLoad, .startStore, .endLoad, .endStore,
      .tick default, .startStore, .tick default] ∧
    (∃ t ∈ visited (sectionStart lateCtx) path,
      t.Inside 0x100061 ∧ t.nest 0x100004 = ⟨.entering 0, 0⟩) ∧
    (endState (sectionStart lateCtx) path).Inside 0x100004 ∧
    ∀ t ∈ visited (sectionStart lateCtx) path, SectionSafe t := by
  obtain ⟨page, bm, hspawn, hring⟩ := exists_two_spawned (c := lateCtx) rfl
  obtain ⟨s₁, s₂, s₃, hstep₁, hstep₂, hstep₃, hctx, hk, ha⟩ : ∃ s₁ s₂ s₃,
      SectionStep 0 (sectionStart lateCtx) (.spawnKernel default 0x100004) s₁ ∧
      SectionStep 0 s₁ (.spawn default 0 1 0x100061) s₂ ∧ SectionStep 0 s₂ (.toggle true) s₃ ∧
      s₃.ctx = { spawned 0 0x100061 page bm default 0 1
        (spawnKernelProcess 0x100004 default lateCtx).2 with schedulerOn := true } ∧
      s₃.nest 0x100004 = ⟨.idle, 0⟩ ∧ s₃.nest 0x100061 = ⟨.idle, 0⟩ := by
    exact ⟨_, _, _, .spawnKernel rfl (by decide), .spawn (by decide) hspawn, .toggle, rfl, rfl,
      rfl⟩
  have hring₃ : OnRing [0x100004, 0x100061] 0x100061 s₃.ctx := by
    rw [hctx]
    exact hring.congr rfl rfl rfl rfl rfl
  have halive : (s₃.ctx.tcbs 0x100061).dead = false := by
    rw [hctx]
    simp [spawned]
  obtain ⟨path, hlabels, hpath, hinside, hend⟩ := exists_preempted 0 hring₃ (by rw [hctx]; rfl)
    halive hk ha (by rw [hctx]) (by rw [hctx]; rfl) (by rw [hctx]; rfl) (by rw [hctx]; rfl)
  have hall : IsPath (SectionStep 0) (sectionStart lateCtx)
      ((_, s₁) :: (_, s₂) :: (_, s₃) :: path) := ⟨hstep₁, hstep₂, hstep₃, hpath⟩
  refine ⟨(_, s₁) :: (_, s₂) :: (_, s₃) :: path, ?_, ?_, hend,
    sectionRuns_safe ⟨rfl, rfl, rfl⟩ rfl hall⟩
  · rw [List.map_cons, List.map_cons, List.map_cons, hlabels]
  · obtain ⟨t, ht, hboth⟩ := hinside
    exact ⟨t, List.mem_cons_of_mem _ (List.mem_cons_of_mem _ (List.mem_cons_of_mem _ ht)), hboth⟩

end DonutOS.Kernel
