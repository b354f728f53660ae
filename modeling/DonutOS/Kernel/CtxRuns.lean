import DonutOS.Foundation.Path
import DonutOS.Kernel.CtxSpec
import DonutOS.Kernel.PagingSpec

set_option autoImplicit false

/-!
# Kernel: the processes over whole runs

After `spawn_kernel_process`: processes are spawned, finish, and are switched
between and reaped by `scheduler`, in any order.  Beside the state the machine
keeps two ghost records that no code reads: the processes that are owed a place
on the ring, and for each process the frame it was last switched out with.
-/

namespace DonutOS.Kernel

open DonutOS.Foundation

/-- The globals, and the two records.  `owed`: the processes whose spawn returned
`0`, less those that died and whose block was freed.  `saved p`: the frame that
was in `*rs` when `p` was last switched out, and before that the frame made for
`p` when it was spawned. -/
structure ProcState where
  ctx : Ctx
  owed : List Nat
  saved : Nat → Regs

/-- What happens to the processes. -/
inductive CtxCall
  /-- `spawn_process` returns `0`; `answer` is the address of the new block -/
  | spawn (rs : Regs) (fn nPages answer : Nat)
  /-- the current process returns into `__stub` -/
  | finish
  /-- `scheduler` is called with the frame `rs` and leaves the frame `left` -/
  | schedule (rs : Regs) (now : Nat) (on : Bool) (lock : Nat) (left : Regs)

/-- A call of `spawn_process`. -/
def CtxCall.IsSpawn : CtxCall → Prop
  | .spawn _ _ _ _ => True
  | _ => False

/-- The globals as a call of `scheduler` finds them: the tick counter, the switch
and the lock are written by others. -/
def Ctx.enter (c : Ctx) (now : Nat) (on : Bool) (lock : Nat) : Ctx :=
  { c with ticks := now, schedulerOn := on, lockCtx := lock }

/-- The processes still owed a place after a call that left the state `c`. -/
def ProcState.settle (s : ProcState) (c : Ctx) : List Nat :=
  s.owed.filter fun p => ¬ ((s.ctx.tcbs p).dead = true ∧ p ∉ c.allocated)

/-- One call. -/
inductive CtxStep (stub : Nat) : ProcState → CtxCall → ProcState → Prop
  | spawn {s : ProcState} {rs : Regs} {fn nPages answer : Nat} {c : Ctx}
      (hfresh : answer ∉ s.ctx.allocated)
      (hcall : spawnProcess stub answer rs fn nPages s.ctx = .ok (0, c)) :
      CtxStep stub s (.spawn rs fn nPages answer)
        ⟨c, answer :: s.owed, Function.update s.saved answer (c.tcbs answer).regs⟩
  | finish {s : ProcState} {c : Ctx} (hkernel : s.ctx.currProc ≠ s.ctx.fstProc)
      (hcall : stubFinish s.ctx = .ok c) :
      CtxStep stub s .finish ⟨c, s.owed, s.saved⟩
  | schedule {s : ProcState} {rs left : Regs} {now lock : Nat} {on : Bool} {c : Ctx}
      (hcall : scheduler rs (s.ctx.enter now on lock) = .ok (left, c)) :
      CtxStep stub s (.schedule rs now on lock left)
        ⟨c, s.settle c,
          if Switches (s.ctx.enter now on lock) then
            Function.update s.saved s.ctx.currProc rs
          else s.saved⟩

/-- The machine right after `spawn_kernel_process`, whose block is at
`answer`. -/
def kernelStart (answer : Nat) (rs : Regs) (c : Ctx) : ProcState :=
  ⟨(spawnKernelProcess answer rs c).2, [answer],
    fun p => ((spawnKernelProcess answer rs c).2.tcbs p).regs⟩

/-! ## The ring -/

/-- Following `next` from `fst_proc` visits exactly the processes owed a place,
each once, ends at `lst_proc` and returns to `fst_proc`; all their blocks are
allocated. -/
def RingOk (s : ProcState) : Prop :=
  ∃ ring, IsRing (nextOf s.ctx) s.ctx.fstProc ring s.ctx.lstProc ∧
    (∀ p, p ∈ ring ↔ p ∈ s.owed) ∧ ∀ p ∈ ring, p ∈ s.ctx.allocated

/-- All the processes behind the current one, up to and with `lst_proc`, are
dead. -/
def DeadUpToLast (c : Ctx) : Prop :=
  ∃ l, Walk (nextOf c) (nextOf c c.currProc) l c.lstProc ∧
    ∀ p ∈ l ++ [c.lstProc], (c.tcbs p).dead = true

/-- The condition on a call, read in the state before it: a call of `scheduler`
that switches must find a live process behind the current one before the end of
the list. -/
def LastKept (s : ProcState) : CtxCall → Prop
  | .schedule _ now on lock _ =>
      Switches (s.ctx.enter now on lock) → ¬ DeadUpToLast s.ctx
  | _ => True

/-- The invariant of runs that never reap the last process. -/
def RingInv (s : ProcState) : Prop :=
  ∃ ring, OnRing ring s.ctx.lstProc s.ctx ∧ ∀ p, p ∈ ring ↔ p ∈ s.owed

theorem RingInv.ringOk {s : ProcState} (h : RingInv s) : RingOk s := by
  obtain ⟨ring, hring, howed⟩ := h
  exact ⟨ring, hring.isRing, howed, hring.allocated⟩

theorem ringInv_kernelStart {answer : Nat} (hanswer : answer ≠ 0) (rs : Regs) (c : Ctx) :
    RingInv (kernelStart answer rs c) := by
  refine ⟨[answer], ?_, fun p => Iff.rfl⟩
  have hlst : (spawnKernelProcess answer rs c).2.lstProc = answer := by
    rw [spawnKernelProcess, if_neg hanswer]
  rw [kernelStart, hlst]
  exact onRing_spawnKernelProcess hanswer rs c

theorem OnRing.enter {ring : List Nat} {lst : Nat} {c : Ctx} (h : OnRing ring lst c)
    (now : Nat) (on : Bool) (lock : Nat) : OnRing ring lst (c.enter now on lock) :=
  h.congr rfl rfl rfl rfl rfl

/-- The dead blocks reach up to the last one just when the call that reaps them
leaves nothing behind the current process. -/
theorem deadUpToLast_iff {ring : List Nat} {c : Ctx} {pre ds post : List Nat} {z : Nat}
    (h : OnRing ring c.lstProc c) (hs : SwitchShape ring c pre ds post z) :
    DeadUpToLast c ↔ post = [] ∧ c.lstProc ∈ ds := by
  have hring := h.isRing
  rw [hs.split] at hring
  constructor
  · rintro ⟨l, hwalk, hdead⟩
    have hwalk' : Walk (nextOf c) (nextOf c c.currProc) (l ++ [c.lstProc])
        (nextOf c c.lstProc) := walk_append.mpr ⟨c.lstProc, hwalk, rfl, rfl⟩
    have hmem : c.lstProc ∈ ds := by
      rcases hwalk'.prefix_or hs.walk with hcont | ⟨t, ht⟩
      · exact hcont.subset (List.mem_append_right _ List.mem_cons_self)
      · cases t with
        | nil =>
            rw [List.append_nil] at ht
            rw [ht]
            exact List.mem_append_right _ List.mem_cons_self
        | cons a t =>
            -- the walk would go past `z`, which is alive
            rw [← ht] at hwalk' hdead
            obtain ⟨w, hds, hrest⟩ := walk_append.mp hwalk'
            obtain rfl := hs.walk.end_unique hds
            have hz := hdead a (List.mem_append_right _ List.mem_cons_self)
            rw [← hrest.1, hs.alive] at hz
            exact Bool.noConfusion hz
    refine ⟨?_, hmem⟩
    by_contra hpost
    have hlast := hring.last_behind (List.append_ne_nil_of_right_ne_nil ds hpost)
    rw [List.getLast?_append_of_ne_nil _ hpost] at hlast
    have hnodup := hring.nodup
    rw [List.nodup_append, List.nodup_cons, List.nodup_append] at hnodup
    exact hnodup.2.1.2.2.2 _ hmem _ (List.mem_of_getLast? hlast) rfl
  · rintro ⟨rfl, hmem⟩
    rw [List.append_nil] at hring
    have hds : ds = ds.dropLast ++ [c.lstProc] :=
      (List.dropLast_append_getLast? _ (hring.last_behind (List.ne_nil_of_mem hmem))).symm
    have hwalk := hs.walk
    rw [hds] at hwalk
    obtain ⟨w, hinit, hw, _⟩ := walk_append.mp hwalk
    refine ⟨ds.dropLast, hw ▸ hinit, ?_⟩
    rw [← hds]
    exact hs.dead

/-- Where a live process is found in time, the last block stays the last. -/
theorem last_kept {ring : List Nat} {c : Ctx} {pre ds post : List Nat} {z : Nat}
    (h : OnRing ring c.lstProc c) (hs : SwitchShape ring c pre ds post z)
    (hkept : ¬ DeadUpToLast c) :
    (if post = [] then c.currProc else c.lstProc) = c.lstProc := by
  rcases hs.last_cases h with hlast | hreaped
  · exact hlast
  · exact absurd ((deadUpToLast_iff h hs).mpr hreaped) hkept

/-! ## Every call on the ring -/

/-- What is owed after a call that reaped `ds`: all but `ds`. -/
theorem mem_settle_switched {ring : List Nat} {s : ProcState} {c : Ctx}
    {pre ds post : List Nat} {z : Nat} {bm : PageBitmap} {rs : Regs} {lst : Nat}
    (h : OnRing ring lst c) (hs : SwitchShape ring c pre ds post z)
    (hctx : c.tcbs = s.ctx.tcbs) (howed : ∀ p, p ∈ ring ↔ p ∈ s.owed) (p : Nat) :
    p ∈ pre ++ c.currProc :: post ↔ p ∈ s.settle (switched ds z bm rs c) := by
  rw [ProcState.settle, List.mem_filter, decide_eq_true_eq, ← howed]
  constructor
  · intro hp
    refine ⟨hs.mem_ring hp, fun hgone => hgone.2 ?_⟩
    exact List.mem_filter.mpr ⟨h.allocated p (hs.mem_ring hp),
      decide_eq_true (hs.not_reaped h hp)⟩
  · rintro ⟨hp, hkept⟩
    rw [hs.split] at hp
    simp only [List.mem_append, List.mem_cons] at hp ⊢
    rcases hp with hp | hp | hp | hp
    · exact Or.inl hp
    · exact Or.inr (Or.inl hp)
    · refine absurd ⟨hctx ▸ hs.dead p hp, fun hmem => ?_⟩ hkept
      exact of_decide_eq_true (List.mem_filter.mp hmem).2 hp
    · exact Or.inr (Or.inr hp)

theorem mem_settle_of_allocated {s : ProcState} {c : Ctx}
    (halloc : ∀ p ∈ s.owed, p ∈ c.allocated) (p : Nat) : p ∈ s.settle c ↔ p ∈ s.owed := by
  rw [ProcState.settle, List.mem_filter, decide_eq_true_eq]
  exact ⟨And.left, fun hp => ⟨hp, fun hgone => hgone.2 (halloc p hp)⟩⟩

theorem ringInv_spawn {stub : Nat} {s t : ProcState} {rs : Regs} {fn nPages answer : Nat}
    (h : RingInv s) (hstep : CtxStep stub s (.spawn rs fn nPages answer) t) :
    RingInv t := by
  obtain ⟨ring, hring, howed⟩ := h
  cases hstep with
  | spawn hfresh hcall =>
      obtain ⟨hnew, _⟩ := spawnProcess_ring hring hfresh hcall
      refine ⟨ring ++ [answer], hnew, fun p => ?_⟩
      rw [List.mem_append, List.mem_singleton, List.mem_cons, howed p]
      exact or_comm

theorem ringInv_step {stub : Nat} {s t : ProcState} {call : CtxCall} (h : RingInv s)
    (hkept : LastKept s call) (hstep : CtxStep stub s call t) : RingInv t := by
  cases call with
  | spawn rs fn nPages answer => exact ringInv_spawn h hstep
  | finish =>
      obtain ⟨ring, hring, howed⟩ := h
      cases hstep with
      | finish hkernel hcall =>
          obtain rfl := stubFinish_ok hcall
          exact ⟨ring, hring.finished hkernel, howed⟩
  | schedule rs now on lock left =>
      obtain ⟨ring, hring, howed⟩ := h
      cases hstep with
      | schedule hcall =>
          have henter := hring.enter now on lock
          rcases scheduler_cases henter rs with
            ⟨_, hres⟩ | ⟨hsw, pre, ds, post, z, bm, hs, hres⟩
          · rw [hcall, Except.ok.injEq, Prod.mk.injEq] at hres
            obtain ⟨rfl, rfl⟩ := hres
            have halloc : ∀ q ∈ s.owed, q ∈ s.ctx.allocated :=
              fun q hq => hring.allocated q ((howed q).mpr hq)
            exact ⟨ring, henter.ticked, fun p =>
              (howed p).trans (mem_settle_of_allocated halloc p).symm⟩
          · rw [hcall, Except.ok.injEq, Prod.mk.injEq] at hres
            obtain ⟨rfl, rfl⟩ := hres
            have hlast := last_kept henter hs (hkept hsw)
            have hnew := henter.switched hs bm rs
            refine ⟨pre ++ s.ctx.currProc :: post, hlast ▸ hnew, fun p => ?_⟩
            exact mem_settle_switched henter hs rfl howed p

/-- A call that reaps up to the last block leaves `lst_proc` off the ring. -/
theorem not_ringOk_step {stub : Nat} {s t : ProcState} {call : CtxCall} (h : RingInv s)
    (hlost : ¬ LastKept s call) (hstep : CtxStep stub s call t) : ¬ RingOk t := by
  cases call with
  | spawn rs fn nPages answer => exact absurd trivial hlost
  | finish => exact absurd trivial hlost
  | schedule rs now on lock left =>
      obtain ⟨ring, hring, _⟩ := h
      have hboth : Switches (s.ctx.enter now on lock) ∧ DeadUpToLast s.ctx := by
        by_contra hnot
        exact hlost fun hsw hdead => hnot ⟨hsw, hdead⟩
      obtain ⟨hsw, hdead⟩ := hboth
      cases hstep with
      | schedule hcall =>
          have henter := hring.enter now on lock
          rcases scheduler_cases henter rs with
            ⟨hno, _⟩ | ⟨_, pre, ds, post, z, bm, hs, hres⟩
          · exact absurd hsw hno
          · rw [hcall, Except.ok.injEq, Prod.mk.injEq] at hres
            obtain ⟨rfl, rfl⟩ := hres
            obtain ⟨hpost, hmem⟩ := (deadUpToLast_iff henter hs).mp hdead
            rintro ⟨ring', hring', _⟩
            have hnew := (henter.switched hs bm rs).isRing
            have heq := hnew.unique hring'
            have hlst : s.ctx.lstProc ∈ pre ++ s.ctx.currProc :: post :=
              heq ▸ hring'.lst_mem
            exact hs.not_reaped henter hlst hmem

/-- Along a run from `spawn_kernel_process` the ring holds exactly the processes
owed a place if and only if no call of `scheduler` reaps the process at the end
of the list. -/
theorem ctxRuns_ringOk_iff {stub answer : Nat} (hanswer : answer ≠ 0) (rs : Regs) (c : Ctx)
    {path : List (CtxCall × ProcState)}
    (hpath : IsPath (CtxStep stub) (kernelStart answer rs c) path) :
    (∀ t ∈ visited (kernelStart answer rs c) path, RingOk t) ↔
      StepsMeet LastKept (kernelStart answer rs c) path := by
  refine IsPath.forall_iff_stepsMeet (fun _ => RingInv.ringOk) ?_ ?_
    (ringInv_kernelStart hanswer rs c) hpath
  · intro u call t hinv hkept hstep
    exact ringInv_step hinv hkept hstep
  · intro u call t hinv hlost hstep
    exact not_ringOk_step hinv hlost hstep

/-! ## A run that loses the end of the list

The kernel spawns one process, which runs, finishes, and is reaped. -/

theorem exists_allocPages_one : ∃ page bm, allocPages 1 (fun _ => 0) = (some page, bm) := by
  refine ⟨_, _, allocPages_of_accepts ?_⟩
  rw [acceptsRun_iff (Nat.le_refl 1) (by decide) (by decide)]
  have hzero : ∀ i, marked (fun _ => 0) i = false := fun i => BitVec.getLsbD_zero
  exact ⟨hzero _, fun k _ _ _ => hzero k⟩

/-- A switch from a sound ring, as a step. -/
theorem exists_schedule (stub : Nat) {s : ProcState} {ring : List Nat} {lst now : Nat}
    {pre ds post : List Nat} {z : Nat} (rs : Regs) (h : OnRing ring lst s.ctx)
    (hs : SwitchShape ring s.ctx pre ds post z) (hsw : Switches (s.ctx.enter now true 0)) :
    ∃ left bm t, CtxStep stub s (.schedule rs now true 0 left) t ∧
      t.ctx = switched ds z bm rs (s.ctx.enter now true 0) ∧
      OnRing (pre ++ s.ctx.currProc :: post) (if post = [] then s.ctx.currProc else lst)
        t.ctx := by
  have hs' : SwitchShape ring (s.ctx.enter now true 0) pre ds post z :=
    ⟨hs.split, hs.walk, hs.dead, hs.alive, hs.rest⟩
  have henter := h.enter now true 0
  obtain ⟨bm, hcall⟩ := scheduler_of_switches rs henter hs' hsw
  exact ⟨_, bm, _, .schedule hcall, rfl, henter.switched hs' bm rs⟩

section TwoCells

variable {k a : Nat} {c : Ctx}

theorem OnRing.links (h : OnRing [k, a] a c) :
    c.fstProc = k ∧ nextOf c k = a ∧ nextOf c a = k := by
  obtain ⟨hfst, hk, ha⟩ := h.isRing.walk
  exact ⟨hfst, hk, hfst ▸ ha⟩

theorem OnRing.ne (h : OnRing [k, a] a c) : k ≠ a := by
  rintro rfl
  exact (List.nodup_cons.mp h.isRing.nodup).1 List.mem_cons_self

/-- Both processes are alive and the kernel runs. -/
theorem OnRing.shape_alive (h : OnRing [k, a] a c) (hcurr : c.currProc = k)
    (halive : (c.tcbs a).dead = false) : SwitchShape [k, a] c [] [] [a] a := by
  obtain ⟨hfst, hk, ha⟩ := h.links
  refine ⟨?_, ?_, ?_, halive, rfl, ha.trans hfst.symm⟩
  · rw [hcurr]
    rfl
  · rw [hcurr]
    exact hk
  · intro d hd
    exact absurd hd List.not_mem_nil

/-- The other process runs. -/
theorem OnRing.shape_other (h : OnRing [k, a] a c) (hcurr : c.currProc = a) :
    SwitchShape [k, a] c [k] [] [] k := by
  obtain ⟨hfst, hk, ha⟩ := h.links
  refine ⟨?_, ?_, ?_, hfst ▸ h.kernel, hfst.symm⟩
  · rw [hcurr]
    rfl
  · rw [hcurr]
    exact ha
  · intro d hd
    exact absurd hd List.not_mem_nil

/-- The other process is dead and the kernel runs. -/
theorem OnRing.shape_dead (h : OnRing [k, a] a c) (hcurr : c.currProc = k)
    (hdead : (c.tcbs a).dead = true) : SwitchShape [k, a] c [] [a] [] k := by
  obtain ⟨hfst, hk, ha⟩ := h.links
  refine ⟨?_, ?_, ?_, hfst ▸ h.kernel, hfst.symm⟩
  · rw [hcurr]
    rfl
  · rw [hcurr]
    exact ⟨hk, ha⟩
  · intro d hd
    rw [List.mem_singleton.mp hd]
    exact hdead

theorem OnRing.switches (h : OnRing [k, a] a c) (now : Nat)
    (hnow : (c.lastTicks + quantum) % 2 ^ 32 < now) : Switches (c.enter now true 0) := by
  obtain ⟨_, hk, ha⟩ := h.links
  refine ⟨⟨rfl, hnow⟩, rfl, ?_⟩
  have hcurr := h.curr
  simp only [List.mem_cons, List.not_mem_nil, or_false] at hcurr
  change nextOf c c.currProc ≠ c.currProc
  rcases hcurr with hcurr | hcurr
  · rw [hcurr, hk]
    exact h.ne.symm
  · rw [hcurr, ha]
    exact h.ne

end TwoCells

/-- The kernel switches to the other process, which finishes; the switch back and
the one after it reap its block. -/
theorem exists_lost (stub : Nat) {s : ProcState} {k a : Nat}
    (h : OnRing [k, a] a s.ctx) (hcurr : s.ctx.currProc = k) (hlst : s.ctx.lstProc = a)
    (halive : (s.ctx.tcbs a).dead = false) (hlast : s.ctx.lastTicks = 0) :
    ∃ path : List (CtxCall × ProcState), IsPath (CtxStep stub) s path ∧
      (endState s path).ctx.lstProc = a ∧ a ∉ (endState s path).ctx.allocated := by
  obtain ⟨left₂, bm₂, s₂, hstep₂, hctx₂, h₂⟩ := exists_schedule stub default h
    (h.shape_alive hcurr halive) (h.switches 11 (by rw [hlast]; decide))
  rw [hcurr] at h₂
  have hcurr₂ : s₂.ctx.currProc = a := by rw [hctx₂]; rfl
  have hkernel : s₂.ctx.currProc ≠ s₂.ctx.fstProc := by
    rw [hcurr₂, h₂.links.1]
    exact h₂.ne.symm
  -- the process finishes
  have hne : s₂.ctx.currProc ≠ 0 := h₂.nonzero _ h₂.curr
  have h₃ := h₂.finished hkernel
  obtain ⟨s₃, hstep₃, hctx₃⟩ : ∃ s₃, CtxStep stub s₂ .finish s₃ ∧ s₃.ctx = finished s₂.ctx :=
    ⟨_, .finish hkernel (modifyTcb_of_ne hne), rfl⟩
  rw [← hctx₃] at h₃
  have hcurr₃ : s₃.ctx.currProc = a := by rw [hctx₃]; exact hcurr₂
  have hlast₃ : s₃.ctx.lastTicks = 11 := by rw [hctx₃]; exact congrArg Ctx.lastTicks hctx₂
  -- the switch back to the kernel
  obtain ⟨left₄, bm₄, s₄, hstep₄, hctx₄, h₄⟩ := exists_schedule stub default h₃
    (h₃.shape_other hcurr₃) (h₃.switches 22 (by rw [hlast₃]; decide))
  rw [hcurr₃] at h₄
  have hcurr₄ : s₄.ctx.currProc = k := by rw [hctx₄]; rfl
  have hlast₄ : s₄.ctx.lastTicks = 22 := by rw [hctx₄]; rfl
  have hdead₄ : (s₄.ctx.tcbs a).dead = true := by
    rw [hctx₄, dead_switched]
    change (s₃.ctx.tcbs a).dead = true
    rw [hctx₃, finished, hcurr₂]
    simp
  -- and the one that reaps
  obtain ⟨left₅, bm₅, s₅, hstep₅, hctx₅, _⟩ := exists_schedule stub default h₄
    (h₄.shape_dead hcurr₄ hdead₄) (h₄.switches 33 (by rw [hlast₄]; decide))
  refine ⟨[(_, s₂), (_, s₃), (_, s₄), (_, s₅)], ⟨hstep₂, hstep₃, hstep₄, hstep₅, trivial⟩,
    ?_, ?_⟩
  · change s₅.ctx.lstProc = a
    rw [hctx₅, switched, Ctx.enter, hctx₄, switched, Ctx.enter, hctx₃, finished, hctx₂]
    exact hlst
  · change a ∉ s₅.ctx.allocated
    rw [hctx₅]
    intro hmem
    exact of_decide_eq_true (List.mem_filter.mp hmem).2 List.mem_cons_self

/-- The kernel's block at `0x100004`, one process at `0x100061`. -/
theorem exists_two_spawned {c : Ctx} (hfree : c.pageBitmap = fun _ => 0) :
    ∃ page bm, spawnProcess 0 0x100061 default 0 1 (spawnKernelProcess 0x100004 default c).2 =
        .ok (0, spawned 0 0x100061 page bm default 0 1
          (spawnKernelProcess 0x100004 default c).2) ∧
      OnRing [0x100004, 0x100061] 0x100061 (spawned 0 0x100061 page bm default 0 1
        (spawnKernelProcess 0x100004 default c).2) := by
  obtain ⟨page, bm, halloc⟩ := exists_allocPages_one
  rw [← hfree] at halloc
  have hstart : OnRing [0x100004] 0x100004 (spawnKernelProcess 0x100004 default c).2 :=
    onRing_spawnKernelProcess (by decide) default c
  have hfresh : 0x100061 ∉ [0x100004] := by decide
  have hnonzero : 0x100061 ≠ 0 := by decide
  exact ⟨page, bm, spawnProcess_of_allocPages halloc hnonzero (Nat.succ_ne_zero _),
    hstart.spawned hfresh hnonzero⟩

theorem exists_two : ∃ s : ProcState,
    CtxStep 0 (kernelStart 0x100004 default bootCtx) (.spawn default 0 1 0x100061) s ∧
      OnRing [0x100004, 0x100061] 0x100061 s.ctx ∧ s.ctx.currProc = 0x100004 ∧
      s.ctx.lstProc = 0x100061 ∧ (s.ctx.tcbs 0x100061).dead = false ∧
      s.ctx.lastTicks = 0 := by
  obtain ⟨page, bm, hcall, hring⟩ := exists_two_spawned (c := bootCtx) rfl
  refine ⟨_, .spawn (by decide) hcall, hring, rfl, rfl, ?_, rfl⟩
  simp [spawned]

/-- After the process was spawned, ran, finished and was reaped, `lst_proc` still
points to its block. -/
theorem exists_lostRun : ∃ path : List (CtxCall × ProcState),
    IsPath (CtxStep 0) (kernelStart 0x100004 default bootCtx) path ∧
      (endState (kernelStart 0x100004 default bootCtx) path).ctx.lstProc = 0x100061 ∧
      0x100061 ∉ (endState (kernelStart 0x100004 default bootCtx) path).ctx.allocated := by
  obtain ⟨s, hstep, hring, hcurr, hlst, halive, hlast⟩ := exists_two
  obtain ⟨path, hpath, hend⟩ := exists_lost 0 hring hcurr hlst halive hlast
  exact ⟨(_, s) :: path, ⟨hstep, hpath⟩, hend⟩

/-- A process runs, finishes and is reaped, and the ring no longer ends at
`lst_proc`. -/
theorem ctxRuns_last_reaped : ∃ path : List (CtxCall × ProcState),
    IsPath (CtxStep 0) (kernelStart 0x100004 default bootCtx) path ∧
      ¬ RingOk (endState (kernelStart 0x100004 default bootCtx) path) := by
  obtain ⟨path, hpath, hlst, hfreed⟩ := exists_lostRun
  refine ⟨path, hpath, ?_⟩
  rintro ⟨ring, hring, _, halloc⟩
  exact hfreed (hlst ▸ halloc _ hring.lst_mem)

theorem ctxRuns_ringOk_iff_lost : ∃ path : List (CtxCall × ProcState),
    IsPath (CtxStep 0) (kernelStart 0x100004 default bootCtx) path ∧
      ((∀ t ∈ visited (kernelStart 0x100004 default bootCtx) path, RingOk t) ↔
        StepsMeet LastKept (kernelStart 0x100004 default bootCtx) path) := by
  obtain ⟨path, hpath, _⟩ := exists_lostRun
  exact ⟨path, hpath, ctxRuns_ringOk_iff (by decide) default bootCtx hpath⟩

end DonutOS.Kernel
