import DonutOS.Foundation.Path
import DonutOS.Kernel.CtxSpec

set_option autoImplicit false

/-!
# Kernel: the scheduler from boot on

From boot on the right shift key is released, the shell's `process` command is
given and the timer ticks, in any order.  The first of the three spawns the
kernel process and two others on its first occurrence, and toggles the scheduler
on every later one; the second turns the scheduler on whether or not there is
anything to schedule.
-/

namespace DonutOS.Kernel

open DonutOS.Foundation

/-- The globals, `fst_press`, and what stopped the kernel. -/
structure BootState where
  ctx : Ctx
  fstPress : Bool
  fault : Option Fault

inductive BootEvent
  | press (blocks : DummyBlocks) (rs : Regs)
  | process
  | tick (rs : Regs) (lock : Nat)

/-- The state after a timer tick. -/
def tickState (rs : Regs) (lock : Nat) (s : BootState) : BootState :=
  match timerHandler rs { s.ctx with lockCtx := lock } with
  | .ok (_, c) => { s with ctx := c }
  | .error f => { s with fault := some f }

/-- The three blocks are new ones. -/
def DummyBlocks.Fresh (blocks : DummyBlocks) (c : Ctx) : Prop :=
  blocks.kernel ∉ c.allocated ∧ blocks.x ∉ blocks.kernel :: c.allocated ∧
    blocks.y ∉ blocks.x :: blocks.kernel :: c.allocated

/-- One event.  Nothing happens after a fault, and all allocations succeed. -/
inductive BootStep (code : CodeAddrs) : BootState → BootEvent → BootState → Prop
  | press {s : BootState} {blocks : DummyBlocks} {rs : Regs} {fstPress : Bool} {c : Ctx}
      (hrun : s.fault = none) (hfresh : s.fstPress = true → blocks.Fresh s.ctx)
      (hcall : procKbDebug code blocks rs s.fstPress s.ctx = .ok (false, fstPress, c)) :
      BootStep code s (.press blocks rs) ⟨c, fstPress, none⟩
  | process {s : BootState} (hrun : s.fault = none) :
      BootStep code s .process { s with ctx := processTest s.ctx }
  | tick {s : BootState} {rs : Regs} {lock : Nat} (hrun : s.fault = none) :
      BootStep code s (.tick rs lock) (tickState rs lock s)

/-- The globals of `ctx.c` and the tick counter as they are initialised; the page
bitmap and the blocks allocated so far are what the rest of the kernel made
them. -/
structure AtBoot (s : BootState) : Prop where
  fstPress : s.fstPress = true
  fault : s.fault = none
  schedulerOn : s.ctx.schedulerOn = false
  fstProc : s.ctx.fstProc = 0
  currProc : s.ctx.currProc = 0
  lastTicks : s.ctx.lastTicks = 0
  ticks : s.ctx.ticks = 0

/-! ## The property and the condition -/

/-- `curr_proc` points to one of the control blocks on the ring, which are all
allocated. -/
def CurrOnRing (c : Ctx) : Prop :=
  c.currProc ≠ 0 ∧ ∃ ring lst, IsRing (nextOf c) c.fstProc ring lst ∧ c.currProc ∈ ring ∧
    ∀ p ∈ ring, p ∈ c.allocated

/-- At a tick that finds the scheduler on and the quantum expired, `curr_proc` is
on the ring. -/
def TickSafe (s : BootState) : BootEvent → Prop
  | .tick _ lock => Due (s.ctx.atTick lock) → CurrOnRing (s.ctx.atTick lock)
  | _ => True

/-- Nothing is dereferenced that should not be, and every tick is safe. -/
def NeverNull (s : BootState) (path : List (BootEvent × BootState)) : Prop :=
  (∀ t ∈ visited s path, t.fault = none) ∧ StepsMeet TickSafe s path

/-- The order of events that the scheduler needs: no tick that comes before the
first right shift release and after a `process` command has a count above
`QUANTUM`.  `asked` says whether there was such a command, `n` counts the ticks
so far. -/
def PressedInTime : Bool → Nat → List BootEvent → Prop
  | _, _, [] => True
  | _, _, .press _ _ :: _ => True
  | _, n, .process :: rest => PressedInTime true n rest
  | asked, n, .tick _ _ :: rest =>
      (asked = true → (n + 1) % 2 ^ 32 ≤ quantum) ∧ PressedInTime asked (n + 1) rest

/-! ## After the first release -/

/-- There is a ring. -/
structure Started (s : BootState) : Prop where
  fstPress : s.fstPress = false
  fault : s.fault = none
  onRing : ∃ ring lst, OnRing ring lst s.ctx

theorem OnRing.currOnRing {ring : List Nat} {lst : Nat} {c : Ctx} (h : OnRing ring lst c) :
    CurrOnRing c :=
  ⟨h.nonzero _ h.curr, ring, lst, h.isRing, h.curr, h.allocated⟩

theorem OnRing.processTest {ring : List Nat} {lst : Nat} {c : Ctx} (h : OnRing ring lst c) :
    OnRing ring lst (processTest c) :=
  ⟨h.isRing, h.isRing.fst_mem, h.nonzero, h.allocated, h.kernel⟩

theorem spawnDummyProcesses_ok {code : CodeAddrs} {blocks : DummyBlocks} {rs : Regs}
    {c c' : Ctx} (hfresh : blocks.Fresh c)
    (hcall : spawnDummyProcesses code blocks rs c = .ok (false, c')) :
    ∃ ring, OnRing ring c'.lstProc c' := by
  unfold spawnDummyProcesses at hcall
  simp only [bind_eq_ok, Prod.exists, Except.ok.injEq, Prod.mk.injEq, Bool.or_eq_false_iff,
    decide_eq_false_iff_not, not_not] at hcall
  obtain ⟨x, c₁, hx, y, c₂, hy, ⟨⟨hk, rfl⟩, rfl⟩, rfl⟩ := hcall
  have hkernel : blocks.kernel ≠ 0 := by
    intro hnull
    rw [spawnKernelProcess, if_pos hnull] at hk
    exact Nat.one_ne_zero hk
  have hlst : (spawnKernelProcess blocks.kernel rs c).2.lstProc = blocks.kernel ∧
      (spawnKernelProcess blocks.kernel rs c).2.allocated = blocks.kernel :: c.allocated := by
    rw [spawnKernelProcess, if_neg hkernel]
    exact ⟨rfl, rfl⟩
  have hringK : OnRing [blocks.kernel] (spawnKernelProcess blocks.kernel rs c).2.lstProc
      (spawnKernelProcess blocks.kernel rs c).2 := by
    rw [hlst.1]
    exact onRing_spawnKernelProcess hkernel rs c
  obtain ⟨hringX, hallocX⟩ := spawnProcess_ring hringK (hlst.2 ▸ hfresh.2.1) hx
  rw [hlst.2] at hallocX
  obtain ⟨hringY, _⟩ := spawnProcess_ring hringX (hallocX ▸ hfresh.2.2) hy
  exact ⟨_, hringY⟩

theorem tickState_of_ok {s : BootState} {rs left : Regs} {lock : Nat} {c : Ctx}
    (h : scheduler rs (s.ctx.atTick lock) = .ok (left, c)) :
    tickState rs lock s = { s with ctx := c } := by
  unfold tickState timerHandler
  change (match scheduler rs (s.ctx.atTick lock) with
    | .ok (_, c) => { s with ctx := c }
    | .error f => { s with fault := some f }) = _
  rw [h]

theorem tickState_of_error {s : BootState} {rs : Regs} {lock : Nat} {f : Fault}
    (h : scheduler rs (s.ctx.atTick lock) = .error f) :
    tickState rs lock s = { s with fault := some f } := by
  unfold tickState timerHandler
  change (match scheduler rs (s.ctx.atTick lock) with
    | .ok (_, c) => { s with ctx := c }
    | .error f => { s with fault := some f }) = _
  rw [h]

theorem started_tick {s : BootState} (h : Started s) (rs : Regs) (lock : Nat) :
    Started (tickState rs lock s) := by
  obtain ⟨hpress, hrun, ring, lst, hring⟩ := h
  have htick := hring.atTick lock
  rcases scheduler_cases htick rs with ⟨_, hres⟩ | ⟨_, pre, ds, post, z, bm, hs, hres⟩
  · rw [tickState_of_ok hres]
    exact ⟨hpress, hrun, ring, lst, htick.ticked⟩
  · rw [tickState_of_ok hres]
    exact ⟨hpress, hrun, _, _, htick.switched hs bm rs⟩

/-- Every event keeps the ring, and every tick on it is safe. -/
theorem started_step {code : CodeAddrs} {s t : BootState} {event : BootEvent}
    (h : Started s) (hstep : BootStep code s event t) : Started t ∧ TickSafe s event := by
  obtain ⟨hpress, hrun, ring, lst, hring⟩ := h
  cases event with
  | press blocks rs =>
      cases hstep with
      | press _ _ hcall =>
          rw [hpress, procKbDebug, if_neg Bool.false_ne_true, Except.ok.injEq,
            Prod.mk.injEq, Prod.mk.injEq] at hcall
          obtain ⟨_, rfl, rfl⟩ := hcall
          exact ⟨⟨rfl, rfl, ring, lst, hring.congr rfl rfl rfl rfl rfl⟩, trivial⟩
  | process =>
      cases hstep with
      | process => exact ⟨⟨hpress, hrun, ring, lst, hring.processTest⟩, trivial⟩
  | tick rs lock =>
      cases hstep with
      | tick =>
          exact ⟨started_tick ⟨hpress, hrun, ring, lst, hring⟩ rs lock,
            fun _ => (hring.atTick lock).currOnRing⟩

theorem Started.neverNull {code : CodeAddrs} {s : BootState}
    {path : List (BootEvent × BootState)} (h : Started s)
    (hpath : IsPath (BootStep code) s path) : NeverNull s path := by
  induction path generalizing s with
  | nil =>
      refine ⟨fun t ht => ?_, trivial⟩
      rw [List.mem_singleton.mp ht]
      exact h.fault
  | cons head rest ih =>
      obtain ⟨event, t⟩ := head
      obtain ⟨hstarted, hsafe⟩ := started_step h hpath.1
      obtain ⟨hfaults, hticks⟩ := ih hstarted hpath.2
      refine ⟨fun u hu => ?_, hsafe, hticks⟩
      rw [visited_cons, List.mem_cons] at hu
      rcases hu with rfl | hu
      · exact h.fault
      · exact hfaults u hu

/-- The first release starts the ring. -/
theorem started_firstPress {code : CodeAddrs} {s t : BootState} {blocks : DummyBlocks}
    {rs : Regs} (hpress : s.fstPress = true)
    (hstep : BootStep code s (.press blocks rs) t) : Started t := by
  cases hstep with
  | press _ hfresh hcall =>
      rw [procKbDebug, if_pos hpress] at hcall
      simp only [bind_eq_ok, Prod.exists, Except.ok.injEq, Prod.mk.injEq] at hcall
      obtain ⟨failed, c, hdummy, rfl, rfl, rfl⟩ := hcall
      obtain ⟨ring, hring⟩ := spawnDummyProcesses_ok (hfresh hpress) hdummy
      exact ⟨rfl, rfl, ring, _, hring⟩

/-! ## Before the first release -/

/-- There is no process yet: `asked` and `n` are as in `PressedInTime`, and no
tick has found the quantum expired. -/
structure Idle (asked : Bool) (n : Nat) (s : BootState) : Prop where
  fstPress : s.fstPress = true
  fault : s.fault = none
  schedulerOn : s.ctx.schedulerOn = asked
  fstProc : s.ctx.fstProc = 0
  currProc : s.ctx.currProc = 0
  lastTicks : s.ctx.lastTicks = 0
  ticks : s.ctx.ticks = n % 2 ^ 32

theorem AtBoot.idle {s : BootState} (h : AtBoot s) : Idle false 0 s :=
  ⟨h.fstPress, h.fault, h.schedulerOn, h.fstProc, h.currProc, h.lastTicks, h.ticks⟩

theorem Idle.due_iff {asked : Bool} {n : Nat} {s : BootState} (h : Idle asked n s)
    (lock : Nat) :
    Due (s.ctx.atTick lock) ↔ asked = true ∧ quantum < (n + 1) % 2 ^ 32 := by
  have hticks : (s.ctx.atTick lock).ticks = (n + 1) % 2 ^ 32 := by
    change (s.ctx.ticks + 1) % 2 ^ 32 = _
    rw [h.ticks, Nat.mod_add_mod]
  have hlast : ((s.ctx.atTick lock).lastTicks + quantum) % 2 ^ 32 = quantum := by
    change (s.ctx.lastTicks + quantum) % 2 ^ 32 = _
    rw [h.lastTicks]
    rfl
  rw [Due, hticks, hlast]
  exact and_congr_left fun _ => by rw [← h.schedulerOn]; rfl

theorem Idle.process {asked : Bool} {n : Nat} {s : BootState} (h : Idle asked n s) :
    Idle true n { s with ctx := processTest s.ctx } :=
  ⟨h.fstPress, h.fault, rfl, h.fstProc, h.fstProc, h.lastTicks, h.ticks⟩

/-- A tick before the quantum expires only counts. -/
theorem Idle.tick {asked : Bool} {n : Nat} {s : BootState} (h : Idle asked n s) (rs : Regs)
    {lock : Nat} (hdue : ¬ Due (s.ctx.atTick lock)) :
    Idle asked (n + 1) (tickState rs lock s) := by
  rw [tickState_of_ok (scheduler_of_not_due rs hdue)]
  refine ⟨h.fstPress, h.fault, h.schedulerOn, h.fstProc, h.currProc, ?_, ?_⟩
  · change (ticked (s.ctx.atTick lock)).lastTicks = 0
    rw [ticked, if_neg hdue]
    exact h.lastTicks
  · change (s.ctx.ticks + 1) % 2 ^ 32 = _
    rw [h.ticks, Nat.mod_add_mod]

/-- Before the first release no tick that finds the quantum expired is safe. -/
theorem Idle.not_currOnRing {asked : Bool} {n : Nat} {s : BootState} (h : Idle asked n s)
    (lock : Nat) : ¬ CurrOnRing (s.ctx.atTick lock) := fun hcurr => hcurr.1 h.currProc

theorem neverNull_cons {s t : BootState} {event : BootEvent}
    {rest : List (BootEvent × BootState)} (hfault : s.fault = none)
    (hsafe : TickSafe s event) : NeverNull s ((event, t) :: rest) ↔ NeverNull t rest := by
  constructor
  · rintro ⟨hfaults, hticks⟩
    exact ⟨fun u hu => hfaults u (List.mem_cons_of_mem _ hu), hticks.2⟩
  · rintro ⟨hfaults, hticks⟩
    refine ⟨fun u hu => ?_, hsafe, hticks⟩
    rw [visited_cons, List.mem_cons] at hu
    rcases hu with rfl | hu
    · exact hfault
    · exact hfaults u hu

theorem Idle.neverNull_iff {code : CodeAddrs} {path : List (BootEvent × BootState)} :
    ∀ {asked : Bool} {n : Nat} {s : BootState}, Idle asked n s →
      IsPath (BootStep code) s path →
      (NeverNull s path ↔ PressedInTime asked n (path.map Prod.fst)) := by
  induction path with
  | nil =>
      intro asked n s h _
      refine iff_of_true ⟨fun t ht => ?_, trivial⟩ trivial
      rw [List.mem_singleton.mp ht]
      exact h.fault
  | cons head rest ih =>
      obtain ⟨event, t⟩ := head
      intro asked n s h hpath
      obtain ⟨hstep, hrest⟩ := hpath
      cases event with
      | press blocks rs =>
          have hstarted := started_firstPress h.fstPress hstep
          have hsafe : TickSafe s (.press blocks rs) := trivial
          refine iff_of_true ?_ trivial
          exact (neverNull_cons h.fault hsafe).mpr (hstarted.neverNull hrest)
      | process =>
          cases hstep with
          | process =>
              have hsafe : TickSafe s .process := trivial
              exact (neverNull_cons h.fault hsafe).trans (ih h.process hrest)
      | tick rs lock =>
          cases hstep with
          | tick =>
              by_cases hdue : Due (s.ctx.atTick lock)
              · refine iff_of_false ?_ ?_
                · rintro ⟨_, hsafe, _⟩
                  exact h.not_currOnRing lock (hsafe hdue)
                · rintro ⟨hearly, _⟩
                  obtain ⟨hasked, hlate⟩ := (h.due_iff lock).mp hdue
                  exact absurd (hearly hasked) (Nat.not_le.mpr hlate)
              · have hsafe : TickSafe s (.tick rs lock) := fun hd => absurd hd hdue
                rw [neverNull_cons h.fault hsafe, ih (h.tick rs hdue) hrest]
                refine (and_iff_right fun hasked => Nat.not_lt.mp fun hlate => ?_).symm
                exact hdue ((h.due_iff lock).mpr ⟨hasked, hlate⟩)

/-- From boot on, whatever the order of the events: `scheduler` finds `curr_proc`
on the ring whenever the quantum has expired if and only if the right shift key
is released in time. -/
theorem bootRuns_neverNull_iff {code : CodeAddrs} {s : BootState}
    {path : List (BootEvent × BootState)} (hboot : AtBoot s)
    (hpath : IsPath (BootStep code) s path) :
    NeverNull s path ↔ PressedInTime false 0 (path.map Prod.fst) :=
  hboot.idle.neverNull_iff hpath

/-! ## A run that dereferences `NULL` -/

/-- The kernel at boot, with nothing allocated. -/
def bootState : BootState := ⟨bootCtx, true, none⟩

theorem atBoot_bootState : AtBoot bootState := ⟨rfl, rfl, rfl, rfl, rfl, rfl, rfl⟩

/-- The first tick after the quantum has expired reads the block of no process. -/
theorem Idle.tick_faults {n : Nat} {s : BootState} (h : Idle true n s) (rs : Regs)
    (hlate : quantum < (n + 1) % 2 ^ 32) :
    (tickState rs 0 s).fault = some .nullDeref := by
  have hdue : Due (s.ctx.atTick 0) := (h.due_iff 0).mpr ⟨rfl, hlate⟩
  have hnull : readTcb (ticked (s.ctx.atTick 0)) (s.ctx.atTick 0).currProc =
      .error .nullDeref := if_pos h.currProc
  have hcall : scheduler rs (s.ctx.atTick 0) = .error .nullDeref := by
    have hlock : (s.ctx.atTick 0).lockCtx = 0 := rfl
    rw [scheduler_of_due rs hdue, if_pos hlock, hnull]
    rfl
  rw [tickState_of_error hcall]

/-- Ticks up to and with the first one that finds the quantum expired. -/
theorem Idle.exists_fault (code : CodeAddrs) (k : Nat) :
    ∀ {n : Nat} {s : BootState}, Idle true n s → n + k = quantum →
      ∃ path : List (BootEvent × BootState), IsPath (BootStep code) s path ∧
        path.map Prod.fst = List.replicate (k + 1) (.tick default 0) ∧
        (endState s path).fault = some .nullDeref := by
  induction k with
  | zero =>
      intro n s h hn
      have hlate : quantum < (n + 1) % 2 ^ 32 := by
        rw [show n = quantum from hn]
        decide
      exact ⟨[(_, _)], ⟨.tick h.fault, trivial⟩, rfl, h.tick_faults default hlate⟩
  | succ k ih =>
      intro n s h hn
      have hearly : ¬ Due (s.ctx.atTick 0) := by
        rw [h.due_iff, not_and, Nat.not_lt]
        intro _
        have hle : n + 1 ≤ quantum := by omega
        exact (Nat.mod_le _ _).trans hle
      obtain ⟨path, hpath, hevents, hfault⟩ := ih (h.tick default hearly) (by omega)
      refine ⟨(_, _) :: path, ⟨.tick h.fault, hpath⟩, ?_, hfault⟩
      rw [List.map_cons, hevents]
      rfl

/-- A `process` command and eleven ticks, before the right shift key was ever
released. -/
theorem exists_nullRun : ∃ path : List (BootEvent × BootState),
    IsPath (BootStep ⟨0, 0, 0⟩) bootState path ∧
      path.map Prod.fst = .process :: List.replicate 11 (.tick default 0) ∧
      (endState bootState path).fault = some .nullDeref := by
  obtain ⟨path, hpath, hevents, hfault⟩ :=
    atBoot_bootState.idle.process.exists_fault ⟨0, 0, 0⟩ quantum (Nat.zero_add _)
  refine ⟨(.process, _) :: path, ⟨.process rfl, hpath⟩, ?_, hfault⟩
  rw [List.map_cons, hevents]
  rfl

theorem bootRuns_process_first : ∃ path : List (BootEvent × BootState),
    IsPath (BootStep ⟨0, 0, 0⟩) bootState path ∧
      path.map Prod.fst = .process :: List.replicate 11 (.tick default 0) ∧
      (endState bootState path).fault = some .nullDeref ∧ ¬ NeverNull bootState path := by
  obtain ⟨path, hpath, hevents, hfault⟩ := exists_nullRun
  refine ⟨path, hpath, hevents, hfault, fun hnever => ?_⟩
  have hnone := hnever.1 _ (endState_mem_visited bootState path)
  rw [hfault] at hnone
  exact Option.noConfusion rfl (heq_of_eq hnone)

theorem bootRuns_neverNull_iff_process_first : ∃ path : List (BootEvent × BootState),
    path.map Prod.fst = .process :: List.replicate 11 (.tick default 0) ∧
      (NeverNull bootState path ↔ PressedInTime false 0 (path.map Prod.fst)) := by
  obtain ⟨path, hpath, hevents, _⟩ := exists_nullRun
  exact ⟨path, hevents, bootRuns_neverNull_iff atBoot_bootState hpath⟩

end DonutOS.Kernel
