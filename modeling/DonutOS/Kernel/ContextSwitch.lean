import DonutOS.Foundation.Path
import DonutOS.Kernel.CtxFrames
import DonutOS.Kernel.CtxLinks
import DonutOS.Kernel.IsrSpec

set_option autoImplicit false

/-!
# Kernel: the registers over whole runs

From boot on: the current process runs, processes are spawned and finish, and the
timer interrupts.  A ghost record keeps, for each process, the registers it had
when it was last interrupted and switched out.
-/

namespace DonutOS.Kernel

open DonutOS.Foundation

/-- The registers a process is spawned with, its spawn-time `esp` included. -/
def spawnCpu (regs : Regs) (ss : Selector) : Cpu := restored regs regs.esp ss

/-- The machine, and the record.  `last p`: the registers `p` had when it was last
switched out, and before that those it was spawned with. -/
structure ProcMachine where
  machine : Machine
  last : Nat → Cpu

inductive MachineEvent
  /-- the current process, or a device other than the timer, changes registers,
  stack, switch and lock -/
  | run (cpu : Cpu) (mem : Word → Word) (on : Bool) (lock : Nat)
  | spawnKernel (rs : Regs) (answer : Nat)
  /-- `spawn_process` returns `0` -/
  | spawn (rs : Regs) (fn nPages answer : Nat)
  | finish
  | timer (left : Scratch)

/-- The globals as `scheduler` finds them at the next timer interrupt. -/
def ProcMachine.atTick (s : ProcMachine) : Ctx :=
  s.machine.ctx.atTick s.machine.ctx.lockCtx

/-- One event.  `stub`, `irqs` and `entry`: the address of `__stub` of `ctx.c`, the
handlers of the other interrupts, and the address of `_isr32`. -/
inductive MachineStep (stub : Nat) (irqs : HandlerTable) (entry : Word) :
    ProcMachine → MachineEvent → ProcMachine → Prop
  | run {s : ProcMachine} {cpu : Cpu} {mem : Word → Word} {on : Bool} {lock : Nat} :
      MachineStep stub irqs entry s (.run cpu mem on lock)
        { s with machine := ⟨cpu, mem, s.machine.ctx.enter s.machine.ctx.ticks on lock⟩ }
  | spawnKernel {s : ProcMachine} {rs : Regs} {answer : Nat}
      (hfirst : s.machine.ctx.fstProc = 0) :
      MachineStep stub irqs entry s (.spawnKernel rs answer)
        ⟨{ s.machine with ctx := (spawnKernelProcess answer rs s.machine.ctx).2 },
          Function.update s.last answer
            (spawnCpu ((spawnKernelProcess answer rs s.machine.ctx).2.tcbs answer).regs
              s.machine.cpu.ss)⟩
  | spawn {s : ProcMachine} {rs : Regs} {fn nPages answer : Nat} {c : Ctx}
      (hfresh : answer ∉ s.machine.ctx.allocated)
      (hcall : spawnProcess stub answer rs fn nPages s.machine.ctx = .ok (0, c)) :
      MachineStep stub irqs entry s (.spawn rs fn nPages answer)
        ⟨{ s.machine with ctx := c },
          Function.update s.last answer (spawnCpu (c.tcbs answer).regs s.machine.cpu.ss)⟩
  | finish {s : ProcMachine} {c : Ctx}
      (hkernel : s.machine.ctx.currProc ≠ s.machine.ctx.fstProc)
      (hcall : stubFinish s.machine.ctx = .ok c) :
      MachineStep stub irqs entry s .finish { s with machine := { s.machine with ctx := c } }
  | timer {s : ProcMachine} {left : Scratch} {m : Machine}
      (hcall : timerInterrupt irqs entry left s.machine = .ok m) :
      MachineStep stub irqs entry s (.timer left)
        ⟨m, if Switches s.atTick then
            Function.update s.last s.machine.ctx.currProc s.machine.cpu
          else s.last⟩

/-- The machine before any process was spawned. -/
def machineStart (m : Machine) : ProcMachine :=
  ⟨m, fun p => spawnCpu (m.ctx.tcbs p).regs m.cpu.ss⟩

/-- The registers after a timer interrupt: those of the process switched to when
it was last interrupted, and those of the interrupted process when there is no
switch. -/
def ContextKept (s : ProcMachine) : MachineEvent → ProcMachine → Prop
  | .timer _, t =>
      t.machine.cpu =
        if Switches s.atTick then t.last t.machine.ctx.currProc else s.machine.cpu
  | _, _ => True

/-- The condition on an event, read in the state before it: the interrupted
process is on the stack that the process switched to was on, or goes on itself. -/
def StackShared (s : ProcMachine) : MachineEvent → Prop
  | .timer _ =>
      Switches s.atTick → ∀ q, IsTarget s.machine.ctx q → q ≠ s.machine.ctx.currProc →
        (s.last q).esp = s.machine.cpu.esp ∧ (s.last q).ss = s.machine.cpu.ss
  | _ => True

/-! ## The frames and the registers -/

/-- Every block holds a frame that restores to the registers on record, but for the
stack. -/
def CpusSaved (s : ProcMachine) : Prop :=
  ∀ p, restored (s.machine.ctx.tcbs p).regs (s.last p).esp (s.last p).ss = s.last p

/-- The invariant of all runs. -/
structure MachineInv (s : ProcMachine) : Prop where
  linked : Linked s.machine.ctx
  saved : CpusSaved s

theorem machineInv_start {m : Machine} (h : NoProcess m.ctx) : MachineInv (machineStart m) :=
  ⟨Or.inl h, fun _ => rfl⟩

/-- A block that gets a new frame, with the registers it restores to on record. -/
theorem cpusSaved_update {s t : ProcMachine} {p : Nat} {cpu : Cpu} (h : CpusSaved s)
    (hlast : t.last = Function.update s.last p cpu)
    (hself : restored (t.machine.ctx.tcbs p).regs cpu.esp cpu.ss = cpu)
    (hother : ∀ q, q ≠ p → (t.machine.ctx.tcbs q).regs = (s.machine.ctx.tcbs q).regs) :
    CpusSaved t := by
  intro q
  rw [hlast]
  by_cases hq : q = p
  · rw [hq, Function.update_self]
    exact hself
  · rw [Function.update_of_ne hq, hother q hq]
    exact h q

theorem regs_spawnKernel (answer : Nat) (rs : Regs) (c : Ctx) {q : Nat} (hq : q ≠ answer) :
    ((spawnKernelProcess answer rs c).2.tcbs q).regs = (c.tcbs q).regs := by
  by_cases hanswer : answer = 0
  · rw [spawnKernelProcess, if_pos hanswer]
  · rw [spawnKernelProcess, if_neg hanswer]
    exact congrArg Tcb.regs (Function.update_of_ne hq _ _)

/-- The interrupt keeps the invariant, and the registers are as they should be
exactly when the stack was shared. -/
theorem machineInv_timer {stub : Nat} {irqs : HandlerTable} {entry : Word}
    {s t : ProcMachine} {left : Scratch} (h : MachineInv s)
    (hstep : MachineStep stub irqs entry s (.timer left) t) :
    MachineInv t ∧ (ContextKept s (.timer left) t ↔ StackShared s (.timer left)) := by
  cases hstep with
  | @timer _ m hcall =>
      obtain ⟨frame, htimer, hcpu⟩ := timerInterrupt_ok hcall
      have hsched : scheduler (frameOf s.machine.cpu) s.atTick = .ok (frame, m.ctx) := htimer
      have hlinkedTick : Linked s.atTick := h.linked.atTick _
      obtain ⟨hlinked, hcase⟩ := scheduler_linked hlinkedTick hsched
      rcases hcase with ⟨hno, rfl, hctx⟩ | ⟨hsw, ds, z, bm, htarget, hctx, hleft⟩
      · rw [if_neg hno]
        refine ⟨⟨hlinked, fun p => ?_⟩, iff_of_true ?_ fun hsw => absurd hsw hno⟩
        · rw [hctx]
          exact h.saved p
        · rw [ContextKept, if_neg hno, hcpu]
          exact restored_frameOf s.machine.cpu
      · rw [if_pos hsw]
        have hsaved : CpusSaved ⟨m, Function.update s.last s.machine.ctx.currProc
            s.machine.cpu⟩ := by
          have hself : (m.ctx.tcbs s.machine.ctx.currProc).regs = frameOf s.machine.cpu := by
            rw [hctx]
            exact (regs_switched _ _ _ _ _ _).trans (Function.update_self _ _ _)
          refine cpusSaved_update h.saved rfl ?_ fun q hq => ?_
          · rw [hself, restored_frameOf]
          · rw [hctx]
            exact (regs_switched _ _ _ _ _ _).trans (Function.update_of_ne hq _ _)
        refine ⟨⟨hlinked, hsaved⟩, ?_⟩
        have hcurr : m.ctx.currProc = z := congrArg Ctx.currProc hctx
        have hz := hsaved z
        rw [ContextKept, if_pos hsw, hcpu, hcurr, hleft, StackShared]
        constructor
        · intro hkept _ q hq hne
          obtain rfl : q = z := hq.unique htarget
          have hlast : Function.update s.last s.machine.ctx.currProc s.machine.cpu q =
              s.last q := Function.update_of_ne hne _ _
          have hcpus := hkept.trans hlast
          exact ⟨(congrArg Cpu.esp hcpus).symm, (congrArg Cpu.ss hcpus).symm⟩
        · intro hshared
          have hstack : (Function.update s.last s.machine.ctx.currProc s.machine.cpu z).esp =
              s.machine.cpu.esp ∧
              (Function.update s.last s.machine.ctx.currProc s.machine.cpu z).ss =
              s.machine.cpu.ss := by
            by_cases hne : z = s.machine.ctx.currProc
            · rw [hne, Function.update_self]
              exact ⟨rfl, rfl⟩
            · rw [Function.update_of_ne hne]
              exact hshared hsw z htarget hne
          rw [← hstack.1, ← hstack.2]
          exact hz

theorem machineInv_step {stub : Nat} {irqs : HandlerTable} {entry : Word}
    {s t : ProcMachine} {event : MachineEvent} (h : MachineInv s)
    (hstep : MachineStep stub irqs entry s event t) :
    MachineInv t ∧ (ContextKept s event t ↔ StackShared s event) := by
  cases event with
  | run cpu mem on lock =>
      refine ⟨?_, Iff.rfl⟩
      cases hstep with
      | run =>
          refine ⟨?_, h.saved⟩
          exact h.linked.congr rfl rfl rfl rfl rfl rfl
  | spawnKernel rs answer =>
      refine ⟨?_, Iff.rfl⟩
      cases hstep with
      | spawnKernel hfirst =>
          have hnone : NoProcess s.machine.ctx := by
            rcases h.linked with hnone | ⟨ring, lst, hring, _⟩
            · exact hnone
            · exact absurd hfirst (hring.nonzero _ hring.isRing.fst_mem)
          refine ⟨linked_spawnKernel hnone answer rs, cpusSaved_update h.saved rfl rfl ?_⟩
          exact fun q hq => regs_spawnKernel answer rs _ hq
  | spawn rs fn nPages answer =>
      refine ⟨?_, Iff.rfl⟩
      cases hstep with
      | spawn hfresh hcall =>
          refine ⟨linked_spawnProcess h.linked hfresh hcall,
            cpusSaved_update h.saved rfl rfl fun q hq => ?_⟩
          obtain ⟨page, bm, _, _, _, rfl⟩ := spawnProcess_ok hcall
          exact regs_spawned hq
  | finish =>
      refine ⟨?_, Iff.rfl⟩
      cases hstep with
      | finish hkernel hcall =>
          obtain rfl := stubFinish_ok hcall
          refine ⟨linked_finished h.linked hkernel, fun p => ?_⟩
          change restored ((finished s.machine.ctx).tcbs p).regs _ _ = _
          rw [regs_finished]
          exact h.saved p
  | timer left => exact machineInv_timer h hstep

/-- From boot on: every timer interrupt leaves the registers it should if and only
if every switch goes to a process that was on the stack of the interrupted one. -/
theorem machineRuns_contextKept_iff {stub : Nat} {irqs : HandlerTable} {entry : Word}
    {m : Machine} {path : List (MachineEvent × ProcMachine)} (hboot : NoProcess m.ctx)
    (hpath : IsPath (MachineStep stub irqs entry) (machineStart m) path) :
    IsPath ContextKept (machineStart m) path ↔
      StepsMeet StackShared (machineStart m) path := by
  refine IsPath.steps_iff_stepsMeet (fun s event t h hstep => ?_) (machineInv_start hboot)
    hpath
  exact machineInv_step h hstep

/-! ## A switch to a process that was on another stack -/

/-- The kernel runs on its stack at `0x7c000`, ten ticks after boot. -/
def kernelMachine : Machine :=
  ⟨{ (default : Cpu) with esp := 0x7c000 }, fun _ => 0, { bootCtx with ticks := 10 }⟩

/-- The kernel spawns a process and turns the scheduler on, which switches to the
process at the next tick. -/
theorem exists_switchRun : ∃ s₁ s₂ s₃ s₄ left,
    IsPath (MachineStep 0 (fun _ => none) 0) (machineStart kernelMachine)
        [(.spawnKernel default 0x100004, s₁), (.spawn default 0 1 0x100061, s₂),
          (.run kernelMachine.cpu (fun _ => 0) true 0, s₃), (.timer left, s₄)] ∧
      Switches s₃.atTick ∧ s₄.machine.ctx.currProc = 0x100061 ∧
      s₄.machine.cpu.esp = 0x7c000 ∧ (s₄.last 0x100061).esp.toNat ≤ 15 := by
  obtain ⟨c, hcall, hring, hcurr, halive, hlast, hticks, hesp⟩ : ∃ c,
      spawnProcess 0 0x100061 default 0 1
        (spawnKernelProcess 0x100004 default kernelMachine.ctx).2 = .ok (0, c) ∧
      OnRing [0x100004, 0x100061] 0x100061 c ∧ c.currProc = 0x100004 ∧
      (c.tcbs 0x100061).dead = false ∧ c.lastTicks = 0 ∧ c.ticks = 10 ∧
      (c.tcbs 0x100061).regs.esp.toNat ≤ 15 := by
    obtain ⟨page, bm, hcall, hring⟩ := exists_two_spawned (c := kernelMachine.ctx) rfl
    refine ⟨_, hcall, hring, rfl, ?_, rfl, rfl, ?_⟩
    · simp [spawned]
    · simp only [spawned, Function.update_self, spawnRegs, BitVec.toNat_ofNat]
      exact (Nat.mod_le _ _).trans Nat.and_le_right
  -- the scheduler is turned on, and the next tick switches
  have htick : (c.enter c.ticks true 0).atTick 0 = c.enter 11 true 0 := by
    rw [hticks]
    rfl
  have hdue : (c.lastTicks + quantum) % 2 ^ 32 < 11 := by
    rw [hlast]
    decide
  have hsw := hring.switches 11 hdue
  rw [← htick] at hsw
  have hatTick := (hring.enter c.ticks true 0).atTick 0
  obtain ⟨bm, hsched⟩ := scheduler_of_switches (frameOf kernelMachine.cpu) hatTick
    (hatTick.shape_alive hcurr halive) hsw
  obtain ⟨mem, htimer⟩ := timerInterrupt_of_timerHandler (fun _ => none) 0
    ⟨0, 0, 0, 0, fun _ => 0⟩ (m := ⟨kernelMachine.cpu, fun _ => 0, c.enter c.ticks true 0⟩)
    hsched
  obtain ⟨s₁, s₂, s₃, hstep₁, hstep₂, hstep₃, hmachine, hspawned⟩ : ∃ s₁ s₂ s₃,
      MachineStep 0 (fun _ => none) 0 (machineStart kernelMachine)
        (.spawnKernel default 0x100004) s₁ ∧
      MachineStep 0 (fun _ => none) 0 s₁ (.spawn default 0 1 0x100061) s₂ ∧
      MachineStep 0 (fun _ => none) 0 s₂ (.run kernelMachine.cpu (fun _ => 0) true 0) s₃ ∧
      s₃.machine = ⟨kernelMachine.cpu, fun _ => 0, c.enter c.ticks true 0⟩ ∧
      s₃.last 0x100061 = spawnCpu (c.tcbs 0x100061).regs kernelMachine.cpu.ss := by
    refine ⟨_, _, _, .spawnKernel rfl, .spawn (by decide) hcall, .run, rfl, ?_⟩
    simp only [Function.update_self]
    rfl
  have hsw₃ : Switches s₃.atTick := by
    rw [ProcMachine.atTick, hmachine]
    exact hsw
  rw [← hmachine] at htimer
  refine ⟨s₁, s₂, s₃, _, _, ⟨hstep₁, hstep₂, hstep₃, .timer htimer, trivial⟩, hsw₃, rfl, ?_, ?_⟩
  · rw [hmachine]
    rfl
  · have hcurr₃ : s₃.machine.ctx.currProc = 0x100004 := by
      rw [hmachine]
      exact hcurr
    have hother : Function.update s₃.last 0x100004 s₃.machine.cpu 0x100061 =
        s₃.last 0x100061 := Function.update_of_ne (by decide) _ _
    rw [if_pos hsw₃, hcurr₃]
    simp only [hother, hspawned]
    exact hesp

/-- The process switched to finds the stack of the kernel. -/
theorem machineRuns_foreign_stack : ∃ path : List (MachineEvent × ProcMachine),
    IsPath (MachineStep 0 (fun _ => none) 0) (machineStart kernelMachine) path ∧
      ¬ IsPath ContextKept (machineStart kernelMachine) path := by
  obtain ⟨s₁, s₂, s₃, s₄, left, hpath, hsw, hcurr, hesp, hlast⟩ := exists_switchRun
  refine ⟨_, hpath, fun hkept => ?_⟩
  have hcpu : s₄.machine.cpu = _ := hkept.2.2.2.1
  rw [if_pos hsw, hcurr] at hcpu
  rw [← hcpu, hesp] at hlast
  exact absurd hlast (by decide)

theorem machineRuns_contextKept_iff_switch : ∃ path : List (MachineEvent × ProcMachine),
    IsPath (MachineStep 0 (fun _ => none) 0) (machineStart kernelMachine) path ∧
      (IsPath ContextKept (machineStart kernelMachine) path ↔
        StepsMeet StackShared (machineStart kernelMachine) path) := by
  obtain ⟨s₁, s₂, s₃, s₄, left, hpath, _⟩ := exists_switchRun
  exact ⟨_, hpath, machineRuns_contextKept_iff ⟨rfl, rfl, rfl⟩ hpath⟩

end DonutOS.Kernel
