import DonutOS.Foundation.Rotation
import DonutOS.Kernel.CtxFrames

set_option autoImplicit false

/-!
# Kernel: the processes take turns (`kernel/src/ctx.c`)

Seen from behind the current process, the ring is a queue: a call that switches drops
the dead processes in front, and the one it switches to goes to the end.  So the
scheduler refines the rotation of `Foundation.Rotation`, and its processes get their
turns as the members of such a queue do.
-/

namespace DonutOS.Kernel

open DonutOS.Foundation

/-! ## The ring as a queue -/

/-- The queue of `r` is the ring from behind the current process round to it, and the
dead are those whose flag is set. -/
structure RunsAs (s : ProcState) (r : Rota Nat) : Prop where
  ring : ∃ pre rest lst, OnRing (pre ++ s.ctx.currProc :: rest) lst s.ctx ∧
    r.queue = rest ++ pre ++ [s.ctx.currProc]
  dead : r.dead = fun p => (s.ctx.tcbs p).dead = true

/-- The process that a call switches to, if it switches. -/
def turnOf (s : ProcState) (call : CtxCall) (t : ProcState) : Option Nat :=
  match call with
  | .schedule _ now on lock _ =>
      if Switches (s.ctx.enter now on lock) then some t.ctx.currProc else none
  | _ => none

/-- The process that has the turn is the current one. -/
theorem currProc_of_turnOf {s t : ProcState} {call : CtxCall} {p : Nat}
    (h : turnOf s call t = some p) : t.ctx.currProc = p := by
  cases call with
  | schedule rs now on lock left =>
      rw [turnOf] at h
      split at h
      · exact Option.some.inj h
      · exact nomatch h
  | spawn rs fn nPages answer => exact nomatch h
  | finish => exact nomatch h

theorem runsAs_of_onRing {s : ProcState} {ring : List Nat} {lst : Nat}
    (h : OnRing ring lst s.ctx) : ∃ r, RunsAs s r := by
  obtain ⟨pre, rest, rfl⟩ := List.append_of_mem h.curr
  exact ⟨⟨_, _⟩, ⟨pre, rest, lst, h, rfl⟩, rfl⟩

/-- The links determine the ring. -/
theorem OnRing.ring_unique {ring ring' : List Nat} {lst lst' : Nat} {c : Ctx}
    (h : OnRing ring lst c) (h' : OnRing ring' lst' c) : ring = ring' :=
  h.isRing.unique h'.isRing

theorem RunsAs.perm {s : ProcState} {r : Rota Nat} {ring : List Nat} {lst : Nat}
    (h : RunsAs s r) (hring : OnRing ring lst s.ctx) : r.queue.Perm ring := by
  obtain ⟨pre, rest, lst', hring', hqueue⟩ := h.ring
  rw [hring.ring_unique hring', hqueue]
  refine List.Perm.trans ?_ List.perm_middle.symm
  exact (List.perm_append_singleton _ _).trans ((List.perm_append_comm).cons _)

theorem RunsAs.nodup {s : ProcState} {r : Rota Nat} (h : RunsAs s r) : r.queue.Nodup := by
  obtain ⟨pre, rest, lst, hring, -⟩ := h.ring
  exact (h.perm hring).nodup_iff.mpr hring.isRing.nodup

/-- A process of a ring stands at one place in it. -/
theorem OnRing.split_unique {pre rest pre' rest' : List Nat} {lst lst' : Nat} {c : Ctx}
    (h : OnRing (pre ++ c.currProc :: rest) lst c)
    (h' : OnRing (pre' ++ c.currProc :: rest') lst' c) : pre = pre' ∧ rest = rest' := by
  have heq := h.ring_unique h'
  have hnodup := h'.isRing.nodup
  rw [List.nodup_append, List.nodup_cons] at hnodup
  obtain ⟨-, ⟨hrest, -⟩, hpre⟩ := hnodup
  have hnot : c.currProc ∉ pre' := fun hmem => hpre _ hmem _ List.mem_cons_self rfl
  have hparts := (List.append_cons_inj_of_notMem hnot hrest).mp heq.symm
  exact ⟨hparts.1.symm, hparts.2.2.symm⟩

/-- A switch is a turn. -/
theorem runsAs_switched {s t : ProcState} {r : Rota Nat} {ring pre ds post : List Nat}
    {lst z now lock : Nat} {on : Bool} {bm : PageBitmap} {rs : Regs} (h : RunsAs s r)
    (hring : OnRing ring lst (s.ctx.enter now on lock))
    (hs : SwitchShape ring (s.ctx.enter now on lock) pre ds post z)
    (ht : t.ctx = switched ds z bm rs (s.ctx.enter now on lock)) :
    ∃ r', RotaStep r (some z) r' ∧ RunsAs t r' := by
  obtain ⟨pre', rest', lst', hring', hqueue⟩ := h.ring
  obtain ⟨last, hnew⟩ : ∃ last, OnRing (pre ++ s.ctx.currProc :: post) last t.ctx := by
    rw [ht]
    exact ⟨_, hring.switched hs bm rs⟩
  rw [hs.split] at hring
  obtain ⟨rfl, rfl⟩ := hring.split_unique (hring'.enter now on lock)
  have hcurr : t.ctx.currProc = z := congrArg Ctx.currProc ht
  have hflags : (fun p => (t.ctx.tcbs p).dead = true) =
      fun p => (s.ctx.tcbs p).dead = true := by
    funext p
    rw [ht, dead_switched]
    rfl
  obtain ⟨queue, dead⟩ := r
  obtain rfl : dead = _ := h.dead
  obtain rfl : queue = _ := hqueue
  have hdead : ∀ d ∈ ds, (s.ctx.tcbs d).dead = true := hs.dead
  have halive : ¬ (s.ctx.tcbs z).dead = true := by
    have hz : (s.ctx.tcbs z).dead = false := hs.alive
    rw [hz]
    exact Bool.false_ne_true
  cases post with
  | cons a post =>
      obtain rfl : z = a := hs.rest.1
      refine ⟨⟨post ++ pre ++ [s.ctx.currProc] ++ [z], _⟩, ?_,
        ⟨pre ++ [s.ctx.currProc], post, last, ?_, ?_⟩, hflags.symm⟩
      · rw [List.append_assoc ds, List.append_assoc ds, List.cons_append, List.cons_append]
        exact .turn hdead halive
      · rw [hcurr, ← List.append_cons]
        exact hnew
      · rw [hcurr, ← List.append_assoc]
  | nil =>
      -- the walk came round to the kernel, which the ring starts with
      obtain ⟨m, hm⟩ := hnew.isRing.walk.head_eq hnew.isRing.ne_nil
      have hfst : t.ctx.fstProc = z := by
        rw [ht]
        exact (walk_nil.mp hs.rest).symm
      rw [hfst] at hm
      refine ⟨⟨m ++ [z], _⟩, ?_, ⟨[], m, last, ?_, ?_⟩, hflags.symm⟩
      · rw [List.append_nil, List.append_assoc, hm]
        exact .turn hdead halive
      · rw [hcurr, List.nil_append, ← hm]
        exact hnew
      · rw [hcurr, List.append_nil]

/-- Every call that is no spawn is a step of the rotation. -/
theorem runsAs_step {stub : Nat} {s t : ProcState} {call : CtxCall} {r : Rota Nat}
    (h : RunsAs s r) (hrun : RunStep stub s call t) :
    ∃ r', RotaStep r (turnOf s call t) r' ∧ RunsAs t r' := by
  obtain ⟨hstep, hspawn⟩ := hrun
  obtain ⟨pre, rest, lst, hring, hqueue⟩ := h.ring
  cases hstep with
  | spawn hfresh hcall => exact absurd trivial hspawn
  | finish hkernel hcall =>
      obtain rfl := stubFinish_ok hcall
      obtain ⟨queue, dead⟩ := r
      obtain rfl : dead = _ := h.dead
      refine ⟨⟨queue, fun p => ((finished s.ctx).tcbs p).dead = true⟩, .wane fun p hp => ?_,
        ⟨pre, rest, lst, hring.finished hkernel, hqueue⟩, rfl⟩
      unfold finished
      by_cases hcurr : p = s.ctx.currProc
      · rw [hcurr]
        simp
      · simpa [Function.update_of_ne hcurr] using hp
  | @schedule rs left now lock on c hcall =>
      have henter := hring.enter now on lock
      rcases scheduler_cases henter rs with
        ⟨hno, hres⟩ | ⟨hsw, pre', ds, post, z, bm, hs, hres⟩
      · rw [hcall, Except.ok.injEq, Prod.mk.injEq] at hres
        obtain ⟨rfl, rfl⟩ := hres
        refine ⟨r, ?_, ⟨pre, rest, lst, henter.ticked, hqueue⟩, h.dead⟩
        rw [turnOf, if_neg hno]
        exact .wane fun _ hp => hp
      · rw [hcall, Except.ok.injEq, Prod.mk.injEq] at hres
        obtain ⟨rfl, rfl⟩ := hres
        rw [turnOf, if_pos hsw]
        exact runsAs_switched h henter hs rfl

/-! ## Turns -/

/-- The processes that the calls of a run switch to, in order. -/
def switchedIn (s : ProcState) (path : List (CtxCall × ProcState)) : List Nat :=
  (observed turnOf s path).reduceOption

/-- `q` is a live process of the ring. -/
def LiveOnRing (s : ProcState) (q : Nat) : Prop :=
  (s.ctx.tcbs q).dead = false ∧ ∃ ring lst, OnRing ring lst s.ctx ∧ q ∈ ring

theorem OnRing.live_kernel {ring : List Nat} {lst : Nat} {s : ProcState}
    (h : OnRing ring lst s.ctx) : LiveOnRing s s.ctx.fstProc :=
  ⟨h.kernel, ring, lst, h, h.isRing.fst_mem⟩

theorem LiveOnRing.mem_queue {s : ProcState} {r : Rota Nat} {q : Nat} (h : LiveOnRing s q)
    (hr : RunsAs s r) : q ∈ r.queue := by
  obtain ⟨-, ring, lst, hring, hq⟩ := h
  exact (hr.perm hring).mem_iff.mpr hq

theorem LiveOnRing.not_dead {s : ProcState} {r : Rota Nat} {q : Nat} (h : LiveOnRing s q)
    (hr : RunsAs s r) : ¬ r.dead q := by
  rw [hr.dead]
  simp [h.1]

/-- A run of the processes is a run of the rotation with the same turns. -/
theorem runsAs_path {stub : Nat} {s : ProcState} {r : Rota Nat}
    {path : List (CtxCall × ProcState)} (h : RunsAs s r)
    (hpath : IsPath (RunStep stub) s path) :
    ∃ path', IsPath RotaStep r path' ∧ turns path' = switchedIn s path ∧
      RunsAs (endState s path) (endState r path') := by
  obtain ⟨path', hpath', hlabels, hend⟩ :=
    hpath.simulate (R := RunsAs) (fun _ _ _ _ hr hstep => runsAs_step hr hstep) h
  exact ⟨path', hpath', congrArg List.reduceOption hlabels, hend⟩

/-- Between two consecutive switches to `p`, every other process that is alive and on
the ring throughout is switched to exactly once. -/
theorem count_switchedIn_between {stub : Nat} {s t t' : ProcState} {ring : List Nat} {lst p q : Nat}
    {before between : List (CtxCall × ProcState)} {call call' : CtxCall}
    (h : OnRing ring lst s.ctx)
    (hpath : IsPath (RunStep stub) s (before ++ (call, t) :: (between ++ [(call', t')])))
    (hin : turnOf (endState s before) call t = some p)
    (hin' : turnOf (endState t between) call' t' = some p)
    (hnot : p ∉ switchedIn t between) (hq : q ≠ p)
    (hlive : ∀ u ∈ visited t (between ++ [(call', t')]), LiveOnRing u q) :
    (switchedIn t between).count q = 1 := by
  obtain ⟨r₀, hr₀⟩ := runsAs_of_onRing h
  obtain ⟨hbefore, hfirst, hrest⟩ := isPath_append.mp hpath
  obtain ⟨hbetween, hlast, -⟩ := isPath_append.mp hrest
  obtain ⟨path₀, -, -, hr₁⟩ := runsAs_path hr₀ hbefore
  obtain ⟨r, hturn, hr⟩ := runsAs_step hr₁ hfirst
  obtain ⟨path, hrun, hturns, hend⟩ := runsAs_path hr hbetween
  obtain ⟨r', hturn', hr'⟩ := runsAs_step hend hlast
  rw [hin'] at hturn'
  -- `p` runs, so it is the last of the queue
  obtain ⟨pre, rest, lst', hring, hqueue⟩ := hr.ring
  rw [currProc_of_turnOf hin] at hqueue
  let keep : Nat → Bool := fun a => !(t'.ctx.tcbs a).dead
  have hkeep : ∀ a, keep a = true → ¬ r'.dead a := by
    intro a ha hdead
    rw [hr'.dead] at hdead
    simp [keep, show (t'.ctx.tcbs a).dead = true from hdead] at ha
  have hp : keep p = true := by
    have halive := hturn'.not_dead
    rw [hr'.dead] at halive
    simpa [keep] using halive
  have hqlive : keep q = true := by
    have hend := endState_mem_visited t (between ++ [(call', t')])
    rw [endState_append] at hend
    simp [keep, (hlive t' hend).1]
  have hmem : q ∈ rest ++ pre := by
    have hq' := (hlive t (start_mem_visited t _)).mem_queue hr
    rw [hqueue, List.mem_append, List.mem_singleton] at hq'
    exact hq'.resolve_right hq
  rw [← hturns]
  exact count_turns_between hrun hqueue hr.nodup (hturns ▸ hnot) hturn' hkeep hp hmem hqlive

/-- A process that is alive and on the ring throughout is switched to before there were
as many switches as there are processes. -/
theorem mem_switchedIn_of_length_le {stub : Nat} {s : ProcState} {ring : List Nat} {lst q : Nat}
    {path : List (CtxCall × ProcState)} (h : OnRing ring lst s.ctx)
    (hpath : IsPath (RunStep stub) s path)
    (hlive : ∀ u ∈ visited s path, LiveOnRing u q)
    (hlong : ring.length ≤ (switchedIn s path).length) : q ∈ switchedIn s path := by
  obtain ⟨r, hr⟩ := runsAs_of_onRing h
  obtain ⟨path', hrun, hturns, hend⟩ := runsAs_path hr hpath
  obtain ⟨front, back, hqueue⟩ :=
    List.append_of_mem ((hlive s (start_mem_visited s path)).mem_queue hr)
  have halive := (hlive _ (endState_mem_visited s path)).not_dead hend
  have hlength := (hr.perm h).length_eq
  by_contra hnot
  have hle := turns_length_le hrun halive (hturns ▸ hnot) hqueue
  rw [hqueue, List.length_append, List.length_cons] at hlength
  rw [← hturns] at hlong
  omega

/-- Every process that is alive and on the ring throughout is switched to exactly once
between two consecutive switches to another one, and at least once in a run with as many
switches as the ring had processes. -/
theorem ctxRuns_fair {stub : Nat} {s : ProcState} {ring : List Nat} {lst : Nat}
    (h : OnRing ring lst s.ctx) :
    (∀ (before between : List (CtxCall × ProcState)) (call call' : CtxCall)
        (t t' : ProcState) (p q : Nat),
      IsPath (RunStep stub) s (before ++ (call, t) :: (between ++ [(call', t')])) →
      turnOf (endState s before) call t = some p →
      turnOf (endState t between) call' t' = some p →
      p ∉ switchedIn t between → q ≠ p →
      (∀ u ∈ visited t (between ++ [(call', t')]), LiveOnRing u q) →
      (switchedIn t between).count q = 1) ∧
    ∀ (path : List (CtxCall × ProcState)) (q : Nat),
      IsPath (RunStep stub) s path → (∀ u ∈ visited s path, LiveOnRing u q) →
      ring.length ≤ (switchedIn s path).length → q ∈ switchedIn s path := by
  refine ⟨fun before between call call' t t' p q hpath hin hin' hnot hq hlive => ?_,
    fun path q hpath hlive hlong => ?_⟩
  · exact count_switchedIn_between h hpath hin hin' hnot hq hlive
  · exact mem_switchedIn_of_length_le h hpath hlive hlong

/-- A switch from a sound ring, as a step of a run. -/
theorem exists_turn (stub : Nat) {s : ProcState} {ring : List Nat} {lst now : Nat}
    {pre ds post : List Nat} {z : Nat} (h : OnRing ring lst s.ctx)
    (hs : SwitchShape ring s.ctx pre ds post z) (hsw : Switches (s.ctx.enter now true 0)) :
    ∃ call t, RunStep stub s call t ∧ turnOf s call t = some z ∧
      (t.ctx.currProc = z ∧ t.ctx.lastTicks = now ∧
        ∀ p, (t.ctx.tcbs p).dead = (s.ctx.tcbs p).dead) ∧
      OnRing (pre ++ s.ctx.currProc :: post) (if post = [] then s.ctx.currProc else lst)
        t.ctx := by
  obtain ⟨left, bm, t, hstep, hctx, hring⟩ := exists_schedule stub default h hs hsw
  refine ⟨_, t, ⟨hstep, not_false⟩, ?_, ⟨?_, ?_, fun p => ?_⟩, hring⟩
  · rw [turnOf, if_pos hsw, hctx]
    rfl
  · rw [hctx]
    rfl
  · rw [hctx]
    rfl
  · rw [hctx]
    exact dead_switched ds z bm default _ p

/-- The kernel and one process take turns. -/
theorem exists_turns : ∃ (s s₁ s₂ s₃ : ProcState) (call₁ call₂ call₃ : CtxCall),
    OnRing [0x100004, 0x100061] 0x100061 s.ctx ∧
    IsPath (RunStep 0) s [(call₁, s₁), (call₂, s₂), (call₃, s₃)] ∧
    turnOf s call₁ s₁ = some 0x100061 ∧ turnOf s₁ call₂ s₂ = some 0x100004 ∧
      turnOf s₂ call₃ s₃ = some 0x100061 ∧
    ∀ u ∈ [s, s₁, s₂, s₃], LiveOnRing u 0x100004 := by
  obtain ⟨s, -, h, hcurr, -, halive, hlast⟩ := exists_two
  obtain ⟨call₁, s₁, hstep₁, hturn₁, ⟨hcurr₁, hlast₁, hdead₁⟩, h₁⟩ := exists_turn 0 h
    (h.shape_alive hcurr halive) (h.switches 11 (by rw [hlast]; decide))
  rw [hcurr] at h₁
  obtain ⟨call₂, s₂, hstep₂, hturn₂, ⟨hcurr₂, hlast₂, hdead₂⟩, h₂⟩ := exists_turn 0 h₁
    (h₁.shape_other hcurr₁) (h₁.switches 22 (by rw [hlast₁]; decide))
  rw [hcurr₁] at h₂
  have halive₂ : (s₂.ctx.tcbs 0x100061).dead = false := by rw [hdead₂, hdead₁, halive]
  obtain ⟨call₃, s₃, hstep₃, hturn₃, -, h₃⟩ := exists_turn 0 h₂
    (h₂.shape_alive hcurr₂ halive₂) (h₂.switches 33 (by rw [hlast₂]; decide))
  rw [hcurr₂] at h₃
  have hkernel : ∀ u : ProcState, OnRing [0x100004, 0x100061] 0x100061 u.ctx →
      LiveOnRing u 0x100004 := by
    intro u hu
    have hlive := hu.live_kernel
    rwa [hu.links.1] at hlive
  refine ⟨s, s₁, s₂, s₃, call₁, call₂, call₃, h, ⟨hstep₁, hstep₂, hstep₃, trivial⟩, hturn₁,
    hturn₂, hturn₃, ?_⟩
  simp only [List.forall_mem_cons, List.not_mem_nil, false_imp_iff, implies_true, and_true]
  exact ⟨hkernel s h, hkernel s₁ h₁, hkernel s₂ h₂, hkernel s₃ h₃⟩

theorem ctxRuns_fair_two : ∃ (s s₁ s₂ s₃ : ProcState) (call₁ call₂ call₃ : CtxCall),
    switchedIn s [(call₁, s₁), (call₂, s₂), (call₃, s₃)] = [0x100061, 0x100004, 0x100061] ∧
    (switchedIn s₁ [(call₂, s₂)]).count 0x100004 = 1 ∧
    0x100004 ∈ switchedIn s [(call₁, s₁), (call₂, s₂), (call₃, s₃)] := by
  obtain ⟨s, s₁, s₂, s₃, call₁, call₂, call₃, h, hpath, hturn₁, hturn₂, hturn₃, hlive⟩ :=
    exists_turns
  have hswitched : switchedIn s [(call₁, s₁), (call₂, s₂), (call₃, s₃)] =
      [0x100061, 0x100004, 0x100061] := by
    simp only [switchedIn, observed, hturn₁, hturn₂, hturn₃]
    rfl
  have hbetween : switchedIn s₁ [(call₂, s₂)] = [0x100004] := by
    simp only [switchedIn, observed, hturn₂]
    rfl
  obtain ⟨hcount, hturns⟩ := ctxRuns_fair h
  refine ⟨s, s₁, s₂, s₃, call₁, call₂, call₃, hswitched, ?_, ?_⟩
  · refine hcount [] [(call₂, s₂)] call₁ call₃ s₁ s₃ 0x100061 0x100004 hpath hturn₁ hturn₃ ?_
      (by decide) fun u hu => hlive u (List.mem_cons_of_mem s hu)
    rw [hbetween]
    decide
  · refine hturns _ _ hpath hlive ?_
    rw [hswitched]
    decide

end DonutOS.Kernel
