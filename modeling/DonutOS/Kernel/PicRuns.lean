import DonutOS.Kernel.CtxLinks
import DonutOS.Kernel.IsrSpec
import DonutOS.Kernel.Pic

set_option autoImplicit false

/-!
# Kernel: interrupt requests (`kernel/src/irq.c`)

`__stub` calls the handler of a line and then sends the end of interrupt, for the
number that the frame holds by then.  The timer's handler may have put another
process's frame there, whose number is that of the interrupt under which that
process was suspended or spawned.
-/

namespace DonutOS.Kernel

open DonutOS.Foundation

/-- The number that `__stub` passes to `pic_send_eoi`. -/
def eoiIrq (rs : Regs) : BitVec 8 := (rs.intNo - 32#32).setWidth 8

/-- The controllers, the globals of `ctx.c`, and the frame of the interrupt that is being
handled: gates of type `0x8E` keep all others out until the `iret`. -/
structure PicState where
  pics : Cascade
  ctx : Ctx
  frame : Option Regs

/-- What happens, in any order: a device raises a line; a line is masked or, by
`irq_install`, unmasked; an interrupt is taken and its frame built; its handler and the
rest of `__stub` run, on the table of handlers there is; the `process` command is run; a
critical section is entered or left. -/
inductive PicEvent
  | request (line : Nat)
  | setMask (line : Nat)
  | clearMask (line : Nat)
  | enter (rs : Regs)
  | finish (irqs : HandlerTable)
  | process
  | lock (n : Nat)

inductive PicStep : PicState → PicEvent → PicState → Prop
  | request {s : PicState} {line : Nat} (hline : line < 16) (hdevice : line ≠ 2) :
      PicStep s (.request line) { s with pics := s.pics.request line }
  | setMask {s : PicState} {line : Nat} (hline : line < 16) :
      PicStep s (.setMask line) { s with pics := picSetMask (BitVec.ofNat 8 line) s.pics }
  | clearMask {s : PicState} {line : Nat} (hline : line < 16) :
      PicStep s (.clearMask line) { s with pics := picClearMask (BitVec.ofNat 8 line) s.pics }
  | enter {s : PicState} {rs : Regs} {v : Nat} {pics : Cascade} (hfree : s.frame = none)
      (hintr : s.pics.acknowledge = some (v, pics)) (hint : rs.intNo = BitVec.ofNat 32 v) :
      PicStep s (.enter rs) { s with pics := pics, frame := some rs }
  | finish {s : PicState} {irqs : HandlerTable} {rs rs' : Regs} {c : Ctx}
      (hframe : s.frame = some rs)
      (hcall : isrHandler (irqInit irqs (isrInit fun _ => none)) rs s.ctx = .ok (rs', c)) :
      PicStep s (.finish irqs) ⟨picSendEoi (eoiIrq rs') s.pics, c, none⟩
  | process {s : PicState} (hfree : s.frame = none) :
      PicStep s .process { s with ctx := processTest s.ctx }
  | lock {s : PicState} {n : Nat} (hfree : s.frame = none) :
      PicStep s (.lock n) { s with ctx := { s.ctx with lockCtx := n } }

/-! ## The kernel's handlers -/

/-- `__kb_handler`, when it calls `__proc_kb_debug`. -/
def kbDebugHandler (code : CodeAddrs) (blocks : DummyBlocks) (fstPress : Bool) : Handler :=
  fun rs c => do
    let (_, _, c) ← procKbDebug code blocks rs fstPress c
    .ok (rs, c)

/-- A handler that leaves the frame and the processes alone: `__kb_handler` on the other
keys, and `rtl8139_irq`. -/
def deviceHandler : Handler := fun rs c => .ok (rs, c)

/-- What `timer_init`, `kb_init` and `rtl8139_init` install, by line. -/
inductive KernelHandler (code : CodeAddrs) : Nat → Handler → Prop
  | timer : KernelHandler code 0 timerHandler
  | kbDebug (blocks : DummyBlocks) (fstPress : Bool) :
      KernelHandler code 1 (kbDebugHandler code blocks fstPress)
  | device (i : Nat) : KernelHandler code i deviceHandler

/-- The handlers that run are the kernel's, as far as they are installed. -/
def PicEvent.OfKernel (code : CodeAddrs) : PicEvent → Prop
  | .finish irqs => ∀ i handler, irqs i = some handler → KernelHandler code i handler
  | _ => True

/-! ## The numbers in saved frames -/

/-- The number of an interrupt that the first controller serves alone. -/
def FromMaster (rs : Regs) : Prop := 32 ≤ rs.intNo.toNat ∧ rs.intNo.toNat < 40

/-- All processes that can be switched to were saved or spawned under such an interrupt:
`W` holds of the control blocks written so far, and links stay among them. -/
structure SavedFrames (W : Nat → Prop) (c : Ctx) : Prop where
  frame : ∀ p, W p → FromMaster (c.tcbs p).regs
  next : ∀ p, W p → (c.tcbs p).next = 0 ∨ W (c.tcbs p).next
  fst : c.fstProc = 0 ∨ W c.fstProc
  lst : c.lstProc = 0 ∨ W c.lstProc
  curr : c.currProc = 0 ∨ W c.currProc

section SavedFrames

variable {W : Nat → Prop} {c c' : Ctx}

theorem readTcb_ok {p : Nat} {t : Tcb} (h : readTcb c p = .ok t) : p ≠ 0 ∧ t = c.tcbs p := by
  unfold readTcb at h
  split at h
  · cases h
  · exact ⟨‹_›, (Except.ok.inj h).symm⟩

theorem modifyTcb_ok {p : Nat} {f : Tcb → Tcb} (h : modifyTcb p f c = .ok c') :
    p ≠ 0 ∧ c' = { c with tcbs := Function.update c.tcbs p (f (c.tcbs p)) } := by
  unfold modifyTcb at h
  split at h
  · cases h
  · exact ⟨‹_›, (Except.ok.inj h).symm⟩

/-- A block changed, or a new one written. -/
theorem SavedFrames.modify {W' : Nat → Prop} {p : Nat} {f : Tcb → Tcb} (h : SavedFrames W c)
    (hW : ∀ q, W' q ↔ W q ∨ q = p) (hcall : modifyTcb p f c = .ok c')
    (hframe : FromMaster (f (c.tcbs p)).regs)
    (hnext : (f (c.tcbs p)).next = 0 ∨ W' (f (c.tcbs p)).next) : SavedFrames W' c' := by
  obtain ⟨_, rfl⟩ := modifyTcb_ok hcall
  have hsub : ∀ q, W q → W' q := fun q hq => (hW q).mpr (.inl hq)
  refine ⟨fun q hq => ?_, fun q hq => ?_, h.fst.imp_right (hsub _), h.lst.imp_right (hsub _),
    h.curr.imp_right (hsub _)⟩
  · by_cases heq : q = p
    · simpa [heq] using hframe
    · simpa [heq] using h.frame q (((hW q).mp hq).resolve_right heq)
  · by_cases heq : q = p
    · simpa [heq] using hnext
    · simpa [heq] using (h.next q (((hW q).mp hq).resolve_right heq)).imp_right (hsub _)

/-- What is not a control block or a pointer to one does not matter. -/
theorem SavedFrames.congr (h : SavedFrames W c) (htcbs : c'.tcbs = c.tcbs)
    (hfst : c'.fstProc = c.fstProc) (hlst : c'.lstProc = c.lstProc)
    (hcurr : c'.currProc = c.currProc) : SavedFrames W c' := by
  refine ⟨?_, ?_, ?_, ?_, ?_⟩
  · rw [htcbs]
    exact h.frame
  · rw [htcbs]
    exact h.next
  · rw [hfst]
    exact h.fst
  · rw [hlst]
    exact h.lst
  · rw [hcurr]
    exact h.curr

theorem SavedFrames.reapLoop (h : SavedFrames W c) {fuel : Nat}
    (hcall : Kernel.reapLoop fuel c = .ok c') : SavedFrames W c' := by
  induction fuel generalizing c with
  | zero => cases hcall
  | succ fuel ih =>
      unfold Kernel.reapLoop at hcall
      simp only [bind_eq_ok] at hcall
      obtain ⟨curr, hcurr, tmp, htmp, hcall⟩ := hcall
      obtain ⟨hcurr0, rfl⟩ := readTcb_ok hcurr
      obtain ⟨htmp0, rfl⟩ := readTcb_ok htmp
      have hW := h.curr.resolve_left hcurr0
      have hnext : W (c.tcbs c.currProc).next := (h.next _ hW).resolve_left htmp0
      split at hcall
      · simp only [bind_eq_ok] at hcall
        obtain ⟨c₁, hmodify, hrest⟩ := hcall
        have hfreed : ∀ bm, SavedFrames W { c with pageBitmap := bm } := fun bm =>
          h.congr rfl rfl rfl rfl
        have hlinked : SavedFrames W c₁ :=
          (hfreed _).modify (fun q => ⟨.inl, fun hq => hq.elim id fun heq => heq ▸ hW⟩) hmodify
            (h.frame _ hW) (h.next _ hnext)
        have hafter : SavedFrames W (freeTcb (c.tcbs c.currProc).next c₁) :=
          hlinked.congr rfl rfl rfl rfl
        exact ih hafter hrest
      · cases hcall
        exact h

theorem SavedFrames.switchCtx (h : SavedFrames W c) {rs rs' : Regs} (hrs : FromMaster rs)
    (hcall : Kernel.switchCtx rs c = .ok (rs', c')) : FromMaster rs' ∧ SavedFrames W c' := by
  unfold Kernel.switchCtx at hcall
  simp only [bind_eq_ok, Except.ok.injEq, Prod.mk.injEq] at hcall
  obtain ⟨c₁, hmodify, curr, hcurr, curr', hcurr', rfl, rfl⟩ := hcall
  obtain ⟨hne, rfl⟩ := modifyTcb_ok hmodify
  have hW := h.curr.resolve_left hne
  have hsaved := h.modify (fun q => ⟨.inl, fun hq => hq.elim id fun heq => heq ▸ hW⟩) hmodify
    hrs (h.next _ hW)
  obtain ⟨_, rfl⟩ := readTcb_ok hcurr
  obtain ⟨hne', rfl⟩ := readTcb_ok hcurr'
  have hnext := hsaved.next _ hW
  exact ⟨hsaved.frame _ (hnext.resolve_left hne'), hsaved.frame, hsaved.next, hsaved.fst,
    hsaved.lst, hnext⟩

theorem SavedFrames.scheduler (h : SavedFrames W c) {rs rs' : Regs} (hrs : FromMaster rs)
    (hcall : Kernel.scheduler rs c = .ok (rs', c')) : FromMaster rs' ∧ SavedFrames W c' := by
  have hsame : ∀ {d : Ctx}, SavedFrames W d →
      (.ok (rs, d) : Except Fault (Regs × Ctx)) = .ok (rs', c') →
        FromMaster rs' ∧ SavedFrames W c' := by
    intro d hd heq
    obtain ⟨rfl, rfl⟩ := Prod.mk.inj (Except.ok.inj heq)
    exact ⟨hrs, hd⟩
  unfold Kernel.scheduler at hcall
  have hticked : SavedFrames W { c with lastTicks := c.ticks } := h.congr rfl rfl rfl rfl
  dsimp only at hcall
  split at hcall
  · split at hcall
    · simp only [bind_eq_ok] at hcall
      obtain ⟨curr, hcurr, hcall⟩ := hcall
      split at hcall
      · simp only [bind_eq_ok] at hcall
        obtain ⟨c₁, hreap, hswitch⟩ := hcall
        exact (hticked.reapLoop hreap).switchCtx hrs hswitch
      · exact hsame hticked hcall
    · exact hsame hticked hcall
  · exact hsame h hcall

theorem SavedFrames.spawnKernelProcess (h : SavedFrames W c) (answer : Nat) {rs : Regs}
    (hrs : FromMaster rs) : ∃ W', SavedFrames W' (Kernel.spawnKernelProcess answer rs c).2 := by
  unfold Kernel.spawnKernelProcess
  split
  · exact ⟨W, h.frame, h.next, h.fst, h.lst, .inl rfl⟩
  · refine ⟨fun q => W q ∨ q = answer, fun q hq => ?_, fun q hq => ?_, .inr (.inr rfl),
      .inr (.inr rfl), .inr (.inr rfl)⟩
    · by_cases heq : q = answer
      · simpa [heq] using hrs
      · simpa [heq] using h.frame q (hq.resolve_right heq)
    · by_cases heq : q = answer
      · exact .inr (.inr (by simp [heq]))
      · simpa [heq] using (h.next q (hq.resolve_right heq)).imp_right Or.inl

theorem SavedFrames.spawnProcess (h : SavedFrames W c) {stub answer fn nPages n : Nat} {rs : Regs}
    (hrs : FromMaster rs)
    (hcall : Kernel.spawnProcess stub answer rs fn nPages c = .ok (n, c')) :
    ∃ W', SavedFrames W' c' := by
  unfold Kernel.spawnProcess at hcall
  split at hcall
  · cases hcall
    exact ⟨W, h.congr rfl rfl rfl rfl⟩
  · rename_i page bm _
    simp only [bind_eq_ok, Except.ok.injEq, Prod.mk.injEq] at hcall
    obtain ⟨c₁, hnew, c₂, hlink, c₃, hclose, -, rfl⟩ := hcall
    have hnumbered : SavedFrames W
        { c with
          pageBitmap := bm
          allocated := answer :: c.allocated
          nextPid := (c.nextPid + 1) % 2 ^ 32 } := h.congr rfl rfl rfl rfl
    have hwritten : SavedFrames (fun q => W q ∨ q = answer) c₁ :=
      hnumbered.modify (fun q => Iff.rfl) hnew hrs (.inl rfl)
    have hlst := hwritten.lst.resolve_left (modifyTcb_ok hlink).1
    have hlinked : SavedFrames (fun q => W q ∨ q = answer) c₂ :=
      hwritten.modify (fun q => ⟨.inl, fun hq => hq.elim id fun heq => heq ▸ hlst⟩) hlink
        (hwritten.frame _ hlst) (.inr (.inr rfl))
    have hlast : SavedFrames (fun q => W q ∨ q = answer) { c₂ with lstProc := answer } :=
      ⟨hlinked.frame, hlinked.next, hlinked.fst, .inr (.inr rfl), hlinked.curr⟩
    exact ⟨_, hlast.modify (fun q => ⟨.inl, fun hq => hq.elim id .inr⟩) hclose
      (hlinked.frame _ (.inr rfl)) hlinked.fst⟩

theorem SavedFrames.procKbDebug (h : SavedFrames W c) {code : CodeAddrs} {blocks : DummyBlocks}
    {rs : Regs} {fstPress fst' failed : Bool} (hrs : FromMaster rs)
    (hcall : Kernel.procKbDebug code blocks rs fstPress c = .ok (failed, fst', c')) :
    ∃ W', SavedFrames W' c' := by
  unfold Kernel.procKbDebug at hcall
  split at hcall
  · unfold spawnDummyProcesses at hcall
    simp only [bind_eq_ok, Prod.exists, Except.ok.injEq, Prod.mk.injEq] at hcall
    obtain ⟨_, c₁, ⟨x, c₂, hx, y, c₃, hy, -, rfl⟩, -, -, rfl⟩ := hcall
    obtain ⟨W₁, hkernel⟩ := h.spawnKernelProcess blocks.kernel hrs
    obtain ⟨W₂, hfirst⟩ := hkernel.spawnProcess hrs hx
    exact hfirst.spawnProcess hrs hy
  · simp only [Except.ok.injEq, Prod.mk.injEq] at hcall
    obtain ⟨-, -, rfl⟩ := hcall
    exact ⟨W, h.congr rfl rfl rfl rfl⟩

end SavedFrames

/-! ## One call of a handler -/

theorem irqStub_of_line (irqs : HandlerTable) {rs : Regs} {line : Nat} (hline : line < 16)
    (hint : rs.intNo.toNat = 32 + line) (c : Ctx) :
    irqStub irqs rs c =
      match irqs line with
      | some handler => handler rs c
      | none => .ok (rs, c) := by
  have hvector : 32 ≤ rs.intNo.toNat ∧ rs.intNo.toNat ≤ 47 := by omega
  have hentry : rs.intNo.toNat - 32 = line := by omega
  cases hhandler : irqs line with
  | none => simp only [irqStub, if_pos hvector, hentry, hhandler]
  | some handler => simp only [irqStub, if_pos hvector, hentry, hhandler]

/-- The tables lead from the vector of a line to the handler of the line. -/
theorem isrHandler_irq (irqs : HandlerTable) {rs : Regs} {line : Nat} (hline : line < 16)
    (hint : rs.intNo.toNat = 32 + line) (c : Ctx) :
    isrHandler (irqInit irqs (isrInit fun _ => none)) rs c =
      match irqs line with
      | some handler => handler rs c
      | none => .ok (rs, c) := by
  have hentry : irqInit irqs (isrInit fun _ => none) (32 + line) = some (irqStub irqs) := by
    rw [irqInit, foldl_isrInstall, if_pos (by omega)]
  unfold isrHandler
  rw [hint, hentry]
  exact irqStub_of_line irqs hline hint c

/-- A handler of the kernel leaves a frame whose number is on the same controller as the
line it was called for. -/
theorem KernelHandler.keeps {code : CodeAddrs} {line : Nat} {handler : Handler} {W : Nat → Prop}
    {rs rs' : Regs} {c c' : Ctx} (hkind : KernelHandler code line handler)
    (hint : rs.intNo.toNat = 32 + line) (h : SavedFrames W c)
    (hcall : handler rs c = .ok (rs', c')) :
    (rs' = rs ∨ line < 8 ∧ FromMaster rs') ∧ ∃ W', SavedFrames W' c' := by
  cases hkind with
  | timer =>
      have hticked : SavedFrames W { c with ticks := (c.ticks + 1) % 2 ^ 32 } :=
        h.congr rfl rfl rfl rfl
      have hrs : FromMaster rs := ⟨by omega, by omega⟩
      obtain ⟨hrs', hsaved⟩ := hticked.scheduler hrs hcall
      exact ⟨.inr ⟨by decide, hrs'⟩, W, hsaved⟩
  | kbDebug blocks fstPress =>
      unfold kbDebugHandler at hcall
      simp only [bind_eq_ok, Prod.exists, Except.ok.injEq, Prod.mk.injEq] at hcall
      obtain ⟨failed, fst', c₁, hdebug, rfl, rfl⟩ := hcall
      exact ⟨.inl rfl, h.procKbDebug ⟨by omega, by omega⟩ hdebug⟩
  | device =>
      cases hcall
      exact ⟨.inl rfl, W, h⟩

/-! ## The machine and the lines -/

/-- The line of the frame an interrupt builds. -/
def lineOf (rs : Regs) : Nat := rs.intNo.toNat - 32

/-- What an event is for the lines. -/
def lineEvent (_ : PicState) (event : PicEvent) (_ : PicState) : LineEvent :=
  match event with
  | .request line => .request line
  | .setMask line => .mask line
  | .clearMask line => .unmask line
  | .enter rs => .enter (lineOf rs)
  | .finish _ => .finish
  | .process => .other
  | .lock _ => .other

/-- The controllers show the lines, and the frame is that of the line being served. -/
structure PicInv (s : PicState) (lines : Lines) : Prop where
  shown : Shows 0x20 0x28 s.pics lines
  saved : ∃ W, SavedFrames W s.ctx
  frame : lines.serving = s.frame.map lineOf
  intNo : ∀ rs, s.frame = some rs → ∃ line, line < 16 ∧ rs.intNo.toNat = 32 + line

theorem eoiIrq_toNat {rs : Regs} {line : Nat} (hline : line < 16)
    (hint : rs.intNo.toNat = 32 + line) : (eoiIrq rs).toNat = line := by
  rw [eoiIrq, BitVec.toNat_setWidth, BitVec.toNat_sub_of_le (BitVec.le_def.mpr (by simp; omega)),
    hint]
  simp
  omega

/-- The end of interrupt goes to the controllers on which the line is in service, though
its number may come from another frame. -/
theorem picSendEoi_of_handled {rs rs' : Regs} {line : Nat} (hline : line < 16)
    (hint : rs.intNo.toNat = 32 + line) (hleft : rs' = rs ∨ line < 8 ∧ FromMaster rs')
    (p : Cascade) : picSendEoi (eoiIrq rs') p = p.finish line := by
  rw [picSendEoi_eq]
  rcases hleft with rfl | ⟨hlow, hlo, hhi⟩
  · rw [eoiIrq_toNat hline hint]
  · have hint' : rs'.intNo.toNat = 32 + (rs'.intNo.toNat - 32) := by omega
    rw [eoiIrq_toNat (by omega) hint', Cascade.finish, if_pos (by omega), Cascade.finish,
      if_pos hlow]

/-- A step of the kernel, with its own handlers. -/
def KernelPicStep (code : CodeAddrs) (s : PicState) (event : PicEvent) (t : PicState) : Prop :=
  PicStep s event t ∧ event.OfKernel code

theorem picInv_step {code : CodeAddrs} {s t : PicState} {event : PicEvent} {lines : Lines}
    (h : PicInv s lines) (hstep : KernelPicStep code s event t) :
    ∃ lines', LineStep lines (lineEvent s event t) lines' ∧ PicInv t lines' := by
  obtain ⟨hstep, hkernel⟩ := hstep
  cases hstep with
  | @request line hline hdevice =>
      have hmem := Cascade.mem_priorityOrder.mpr ⟨hline, hdevice⟩
      exact ⟨_, .request, h.shown.request hmem, h.saved, h.frame, h.intNo⟩
  | @setMask line hline =>
      have hnat : (BitVec.ofNat 8 line).toNat = line := by
        rw [BitVec.toNat_ofNat]
        omega
      refine ⟨_, .mask, ?_, h.saved, h.frame, h.intNo⟩
      rw [picSetMask_eq h.shown.ready, hnat]
      exact h.shown.withMask true hline
  | @clearMask line hline =>
      have hnat : (BitVec.ofNat 8 line).toNat = line := by
        rw [BitVec.toNat_ofNat]
        omega
      refine ⟨_, .unmask, ?_, h.saved, h.frame, h.intNo⟩
      rw [picClearMask_eq h.shown.ready, hnat]
      exact h.shown.withMask false hline
  | @enter rs v pics hfree hintr hint =>
      have hserving : lines.serving = none := by rw [h.frame, hfree]; rfl
      rw [h.shown.acknowledge hserving, Option.map_eq_some_iff] at hintr
      obtain ⟨line, hasks, hpair⟩ := hintr
      obtain ⟨rfl, rfl⟩ := Prod.mk.inj hpair
      have hline : line < 16 :=
        (Cascade.mem_priorityOrder.mp (List.mem_of_find?_eq_some hasks)).1
      have hnumber : rs.intNo.toNat = 32 + line := by
        rw [hint, BitVec.toNat_ofNat, Cascade.vectorOf]
        split <;> omega
      have heq : lineOf rs = line := by rw [lineOf, hnumber, Nat.add_sub_cancel_left]
      refine ⟨_, ?_, h.shown.serve hserving hasks, h.saved, ?_, ?_⟩
      · change LineStep lines (.enter (lineOf rs)) _
        rw [heq]
        exact .enter hserving hasks
      · exact congrArg some heq.symm
      · rintro rs' hrs'
        cases hrs'
        exact ⟨line, hline, hnumber⟩
  | @finish irqs rs rs' c hframe hcall =>
      obtain ⟨line, hline, hint⟩ := h.intNo rs hframe
      have hserving : lines.serving = some line := by
        rw [h.frame, hframe, Option.map_some, lineOf, hint, Nat.add_sub_cancel_left]
      rw [isrHandler_irq irqs hline hint] at hcall
      obtain ⟨W, hsaved⟩ := h.saved
      have hkept : (rs' = rs ∨ line < 8 ∧ FromMaster rs') ∧ ∃ W', SavedFrames W' c := by
        cases hentry : irqs line with
        | none =>
            rw [hentry] at hcall
            cases hcall
            exact ⟨.inl rfl, W, hsaved⟩
        | some handler =>
            rw [hentry] at hcall
            exact (hkernel line handler hentry).keeps hint hsaved hcall
      refine ⟨_, .finish hserving, ?_, hkept.2, rfl, fun rs hrs => absurd hrs (by simp)⟩
      rw [picSendEoi_of_handled hline hint hkept.1]
      exact h.shown.finish hserving
  | process hfree =>
      obtain ⟨W, hsaved⟩ := h.saved
      exact ⟨_, .other, h.shown, ⟨W, hsaved.frame, hsaved.next, hsaved.fst, hsaved.lst,
        hsaved.fst⟩, h.frame, h.intNo⟩
  | lock hfree =>
      obtain ⟨W, hsaved⟩ := h.saved
      exact ⟨_, .other, h.shown, ⟨W, hsaved.congr rfl rfl rfl rfl⟩, h.frame, h.intNo⟩

/-- Every run of the kernel is one of the lines. -/
theorem picInv_run {code : CodeAddrs} {s : PicState} {lines : Lines}
    {path : List (PicEvent × PicState)} (h : PicInv s lines)
    (hpath : IsPath (KernelPicStep code) s path) :
    ∃ served, IsPath LineStep lines served ∧ served.map Prod.fst = observed lineEvent s path ∧
      PicInv (endState s path) (endState lines served) := by
  have hsim : ∀ s event t lines, PicInv s lines → KernelPicStep code s event t →
      ∃ lines', LineStep lines (lineEvent s event t) lines' ∧ PicInv t lines' :=
    fun s event t lines hinv hstep => picInv_step hinv hstep
  exact hpath.simulate hsim h

/-! ## Runs from `pic_init` on -/

/-- The machine after `pic_init`, before any process is spawned. -/
def picStart (p : Cascade) (c : Ctx) : PicState := ⟨picInit p, c, none⟩

/-- No line is raised, masked or served. -/
def noLines : Lines := ⟨fun _ => false, fun _ => false, none⟩

theorem picInv_start (p : Cascade) {c : Ctx} (h : NoProcess c) :
    PicInv (picStart p c) noLines :=
  ⟨shows_picInit p,
    ⟨fun _ => False, fun _ hp => hp.elim, fun _ hp => hp.elim, .inl h.1, .inl h.2.1,
      .inl h.2.2⟩, rfl, fun rs hrs => absurd hrs (by simp [picStart])⟩

/-- A pair that nobody has initialised. -/
def powerOn : Cascade :=
  let c : Controller := ⟨.mask, 0#8, 0#8, 0#8, 0#8, 0#8, 0#8, 0#8, false⟩
  ⟨c, c⟩

/-- The lines that wait, in the order of priority. -/
def waitingLines (p : Cascade) : List Nat := Cascade.priorityOrder.filter p.pending

theorem waitingLines_eq {p : Cascade} {lines : Lines} (h : Shows 0x20 0x28 p lines) :
    waitingLines p = lines.waiting := List.filter_congr fun _ hl => h.pending hl

/-- The interrupt of the line that the processor is asked for can be taken. -/
theorem exists_entered (code : CodeAddrs) {s : PicState} {lines : Lines} {line : Nat}
    (h : PicInv s lines) (hfree : s.frame = none) (hasks : lines.asks = some line) :
    ∃ rs, lineOf rs = line ∧ rs.intNo.toNat = 32 + line ∧
      KernelPicStep code s (.enter rs) ⟨s.pics.serve line, s.ctx, some rs⟩ := by
  have hserving : lines.serving = none := by rw [h.frame, hfree]; rfl
  have hline := (Cascade.mem_priorityOrder.mp (List.mem_of_find?_eq_some hasks)).1
  let rs : Regs := { (default : Regs) with intNo := BitVec.ofNat 32 (32 + line) }
  have hint : rs.intNo.toNat = 32 + line := by
    rw [BitVec.toNat_ofNat]
    omega
  have hvector : Cascade.vectorOf 0x20 0x28 line = 32 + line := by
    unfold Cascade.vectorOf
    split <;> omega
  have hintr : s.pics.acknowledge = some (32 + line, s.pics.serve line) := by
    rw [h.shown.acknowledge hserving, hasks, Option.map_some, hvector]
  exact ⟨rs, by rw [lineOf, hint, Nat.add_sub_cancel_left], hint, .enter hfree hintr rfl, trivial⟩

/-- Its handler runs, and `__stub` sends the end of interrupt. -/
theorem exists_served {code : CodeAddrs} {s : PicState} {lines : Lines} {line : Nat}
    {handler : Handler} (h : PicInv s lines) (hfree : s.frame = none)
    (hasks : lines.asks = some line) (hkind : KernelHandler code line handler)
    (hruns : ∀ rs, ∃ rs' c, handler rs s.ctx = .ok (rs', c)) :
    ∃ served, IsPath (KernelPicStep code) s served ∧
      observed lineEvent s served = [.enter line, .finish] ∧
      PicInv (endState s served)
        { lines with raised := Function.update lines.raised line false } ∧
      (endState s served).frame = none := by
  have hserving : lines.serving = none := by rw [h.frame, hfree]; rfl
  have hline := (Cascade.mem_priorityOrder.mp (List.mem_of_find?_eq_some hasks)).1
  obtain ⟨rs, hlineOf, hint, henter⟩ := exists_entered code h hfree hasks
  obtain ⟨rs', c, hreturns⟩ := hruns rs
  let irqs : HandlerTable := fun i => if i = line then some handler else none
  have hentry : irqs line = some handler := if_pos rfl
  have hcall : isrHandler (irqInit irqs (isrInit fun _ => none)) rs s.ctx = .ok (rs', c) := by
    rw [isrHandler_irq irqs hline hint, hentry]
    exact hreturns
  have hirqs : ∀ i f, irqs i = some f → KernelHandler code i f := by
    intro i f hinstalled
    by_cases hi : i = line
    · subst hi
      rw [hentry] at hinstalled
      cases hinstalled
      exact hkind
    · rw [show irqs i = none from if_neg hi] at hinstalled
      cases hinstalled
  have hfinish : KernelPicStep code ⟨s.pics.serve line, s.ctx, some rs⟩ (.finish irqs)
      ⟨picSendEoi (eoiIrq rs') (s.pics.serve line), c, none⟩ := ⟨.finish rfl hcall, hirqs⟩
  refine ⟨[(.enter rs, _), (.finish irqs, _)], ⟨henter, hfinish, trivial⟩, ?_, ?_, rfl⟩
  · simp only [observed, lineEvent, hlineOf]
  · obtain ⟨_, hstep₁, hinv₁⟩ := picInv_step h henter
    obtain ⟨_, hstep₂, hinv₂⟩ := picInv_step hinv₁ hfinish
    simp only [lineEvent, hlineOf] at hstep₁ hstep₂
    cases hstep₁
    cases hstep₂
    rw [← hserving] at hinv₂
    exact hinv₂

/-- All the lines that wait can be served, one after another. -/
theorem exists_servedAll (code : CodeAddrs) {s : PicState} {lines : Lines} (h : PicInv s lines)
    (hfree : s.frame = none) :
    ∃ rest, IsPath (KernelPicStep code) s rest ∧
      observed lineEvent s rest =
        (waitingLines s.pics).flatMap fun line => [.enter line, .finish] := by
  rw [waitingLines_eq h.shown]
  induction hwaiting : lines.waiting generalizing s lines with
  | nil => exact ⟨[], trivial, rfl⟩
  | cons line others ih =>
      have hasks : lines.asks = some line := by
        rw [Lines.asks, ← List.head?_filter]
        exact congrArg List.head? hwaiting
      obtain ⟨served, hserved, hevents, hinv, hfree'⟩ :=
        exists_served h hfree hasks (.device line) fun rs => ⟨rs, s.ctx, rfl⟩
      have hothers := hwaiting.symm.trans (Lines.waiting_of_asks hasks lines.serving)
      obtain ⟨rest, hrest, hevents'⟩ := ih hinv hfree' (List.cons_inj_right line |>.mp hothers).symm
      refine ⟨served ++ rest, isPath_append.mpr ⟨hserved, hrest⟩, ?_⟩
      rw [observed_append, hevents, hevents']
      rfl

/-- A device raises a line, the first thing that happens. -/
theorem exists_requested (code : CodeAddrs) (p : Cascade) {line : Nat}
    (hline : line ∈ Cascade.priorityOrder) :
    let s : PicState := ⟨(picInit p).request line, bootCtx, none⟩
    KernelPicStep code (picStart p bootCtx) (.request line) s ∧
      PicInv s ⟨Function.update (fun _ => false) line true, fun _ => false, none⟩ := by
  obtain ⟨hlt, hdevice⟩ := Cascade.mem_priorityOrder.mp hline
  have hrequest : KernelPicStep code (picStart p bootCtx) (.request line)
      ⟨(picInit p).request line, bootCtx, none⟩ := ⟨.request hlt hdevice, trivial⟩
  obtain ⟨_, hstep, hinv⟩ := picInv_step (picInv_start p ⟨rfl, rfl, rfl⟩) hrequest
  simp only [lineEvent] at hstep
  cases hstep
  exact ⟨hrequest, hinv⟩

/-- A timer tick. -/
theorem exists_tickRun (code : CodeAddrs) (p : Cascade) :
    ∃ path, IsPath (KernelPicStep code) (picStart p bootCtx) path ∧
      observed lineEvent (picStart p bootCtx) path = [.request 0, .enter 0, .finish] := by
  obtain ⟨hrequest, hinv⟩ := exists_requested code p (show 0 ∈ Cascade.priorityOrder by decide)
  obtain ⟨tick, htick, hevents, -⟩ :=
    exists_served hinv rfl rfl (.timer : KernelHandler code 0 timerHandler) fun rs => ⟨rs, _, rfl⟩
  exact ⟨(.request 0, _) :: tick, ⟨hrequest, htick⟩, congrArg (LineEvent.request 0 :: ·) hevents⟩

section Runs

variable {code : CodeAddrs} {c : Ctx} {path : List (PicEvent × PicState)}

/-- Whatever state the controllers are in before `pic_init`, and in whatever order devices
raise lines, handlers run and masks change: the controllers do what the lines do, one
line being served at a time. -/
theorem picRuns_lines (p : Cascade) (hboot : NoProcess c)
    (hpath : IsPath (KernelPicStep code) (picStart p c) path) :
    ∃ served, IsPath LineStep noLines served ∧
      served.map Prod.fst = observed lineEvent (picStart p c) path ∧
      Shows 0x20 0x28 (endState (picStart p c) path).pics (endState noLines served) ∧
      (endState noLines served).serving =
        (endState (picStart p c) path).frame.map lineOf := by
  obtain ⟨served, hserved, hevents, hend⟩ := picInv_run (picInv_start p hboot) hpath
  exact ⟨served, hserved, hevents, hend.shown, hend.frame⟩

theorem picRuns_lines_tick :
    ∃ (path : List (PicEvent × PicState)) (served : List (LineEvent × Lines)),
      IsPath LineStep noLines served ∧
      served.map Prod.fst = [.request 0, .enter 0, .finish] ∧
      Shows 0x20 0x28 (endState (picStart powerOn bootCtx) path).pics
        (endState noLines served) := by
  obtain ⟨path, hpath, hevents⟩ := exists_tickRun ⟨0, 0, 0⟩ powerOn
  obtain ⟨served, hserved, hlabels, hshown, -⟩ :=
    picRuns_lines powerOn ⟨rfl, rfl, rfl⟩ hpath
  exact ⟨_, served, hserved, hlabels.trans hevents, hshown⟩

/-- No request is lost and none is served twice. -/
theorem picRuns_requests (p : Cascade) (hboot : NoProcess c)
    (hpath : IsPath (KernelPicStep code) (picStart p c) path) {line : Nat}
    (hline : line ∈ Cascade.priorityOrder) :
    let s := endState (picStart p c) path
    let events := observed lineEvent (picStart p c) path
    s.pics.raised line = owed line false events ∧
      events.count (.enter line) + (s.pics.raised line).toNat ≤ events.count (.request line) ∧
      (s.frame = none → s.pics.raised line = true → s.pics.enabled line = true →
        s.pics.acknowledge.isSome = true) := by
  obtain ⟨served, hserved, hevents, ⟨hshown, -, hframe, -⟩⟩ :=
    picInv_run (picInv_start p hboot) hpath
  have hraised := hshown.raised line hline
  refine ⟨?_, ?_, fun hfree hup hopen => ?_⟩
  · rw [hraised, raised_endState hserved line, hevents]
    rfl
  · rw [hraised, ← hevents]
    exact count_enter_le hserved line
  · have hpending : (endState (picStart p c) path).pics.pending line = true := by
      rw [Cascade.pending_eq _ (Cascade.mem_priorityOrder.mp hline).1, hup, hopen]
      rfl
    rw [hshown.pending hline] at hpending
    rw [hshown.acknowledge (by rw [hframe, hfree]; rfl), Option.isSome_map, Lines.asks,
      List.find?_isSome]
    exact ⟨line, hline, hpending⟩

theorem picRuns_requests_tick : ∃ path : List (PicEvent × PicState),
    (endState (picStart powerOn bootCtx) path).pics.raised 0 =
      owed 0 false [.request 0, .enter 0, .finish] := by
  obtain ⟨path, hpath, hevents⟩ := exists_tickRun ⟨0, 0, 0⟩ powerOn
  have hline : 0 ∈ Cascade.priorityOrder := by decide
  have howed := (picRuns_requests powerOn ⟨rfl, rfl, rfl⟩ hpath hline).1
  rw [hevents] at howed
  exact ⟨_, howed⟩

/-- The two functions that read the controllers' registers have each other's: whenever
they are called, `pic_get_isr` has the bits of the lines that were raised since they were
last served, and `pic_get_irr` that of the line whose handler runs. -/
theorem picRuns_registers (p : Cascade) (hboot : NoProcess c)
    (hpath : IsPath (KernelPicStep code) (picStart p c) path) {line : Nat}
    (hline : line ∈ Cascade.priorityOrder) :
    let s := endState (picStart p c) path
    (picGetIsr s.pics).1.getLsbD line =
        owed line false (observed lineEvent (picStart p c) path) ∧
      (picGetIrr s.pics).1.getLsbD line = decide (s.frame.map lineOf = some line) := by
  obtain ⟨served, hserved, hevents, ⟨hshown, -, hframe, -⟩⟩ :=
    picInv_run (picInv_start p hboot) hpath
  obtain ⟨hisr, hirr⟩ := (picGet_of_shows hshown).1 line hline
  rw [raised_endState hserved line, hevents] at hisr
  rw [hframe] at hirr
  exact ⟨hisr, hirr⟩

/-- The keyboard's handler is interrupted by nobody, but line 3 is raised while it runs:
`pic_get_isr` reports line 3 and not the keyboard's, `pic_get_irr` the keyboard's. -/
theorem picRuns_registers_keyboard : ∃ path : List (PicEvent × PicState),
    let s := endState (picStart powerOn bootCtx) path
    observed lineEvent (picStart powerOn bootCtx) path = [.request 1, .enter 1, .request 3] ∧
      (picGetIsr s.pics).1.getLsbD 3 = true ∧ (picGetIsr s.pics).1.getLsbD 1 = false ∧
      (picGetIrr s.pics).1.getLsbD 1 = true := by
  have hkeyboard : 1 ∈ Cascade.priorityOrder := by decide
  have hthird : 3 ∈ Cascade.priorityOrder := by decide
  obtain ⟨hrequest, hinv⟩ := exists_requested ⟨0, 0, 0⟩ powerOn hkeyboard
  obtain ⟨rs, hlineOf, -, henter⟩ := exists_entered ⟨0, 0, 0⟩ hinv rfl rfl
  let pics := ((picInit powerOn).request 1).serve 1
  let path : List (PicEvent × PicState) :=
    [(.request 1, ⟨(picInit powerOn).request 1, bootCtx, none⟩),
      (.enter rs, ⟨pics, bootCtx, some rs⟩), (.request 3, ⟨pics.request 3, bootCtx, some rs⟩)]
  have hpath : IsPath (KernelPicStep ⟨0, 0, 0⟩) (picStart powerOn bootCtx) path :=
    ⟨hrequest, henter, ⟨.request (by decide) (by decide), trivial⟩, trivial⟩
  have hevents : observed lineEvent (picStart powerOn bootCtx) path =
      [.request 1, .enter 1, .request 3] := congrArg
    (fun line => [LineEvent.request 1, .enter line, .request 3]) hlineOf
  have hthree := picRuns_registers powerOn ⟨rfl, rfl, rfl⟩ hpath hthird
  have hone := picRuns_registers powerOn ⟨rfl, rfl, rfl⟩ hpath hkeyboard
  refine ⟨path, hevents, hthree.1.trans ?_, hone.1.trans ?_, hone.2.trans ?_⟩
  · rw [hevents]
    rfl
  · rw [hevents]
    rfl
  · exact decide_eq_true (congrArg some hlineOf)

/-- While no device raises a line and no mask changes, the lines that wait are served one
after another in the order of priority: 0, 1, those of the second controller, 3 to 7. -/
theorem picRuns_priority (p : Cascade) (hboot : NoProcess c) {rest : List (PicEvent × PicState)}
    (hpath : IsPath (KernelPicStep code) (picStart p c) (path ++ rest))
    (hquiet : ∀ e ∈ observed lineEvent (endState (picStart p c) path) rest, e.Quiet) :
    let s := endState (picStart p c) path
    waitingLines s.pics =
      (observed lineEvent s rest).filterMap LineEvent.entered ++
        waitingLines (endState s rest).pics := by
  obtain ⟨hfirst, hrest⟩ := isPath_append.mp hpath
  obtain ⟨_, -, -, hinv⟩ := picInv_run (picInv_start p hboot) hfirst
  obtain ⟨served, hserved, hevents, hend⟩ := picInv_run hinv hrest
  rw [← hevents] at hquiet
  dsimp only
  rw [waitingLines_eq hinv.shown, waitingLines_eq hend.shown, ← hevents]
  exact waiting_of_quiet hserved hquiet

/-- The keyboard's line waits, the network card's on the second controller and, raised
first, line 3. -/
theorem picRuns_priority_three : ∃ requests rest : List (PicEvent × PicState),
    let s := endState (picStart powerOn bootCtx) requests
    observed lineEvent (picStart powerOn bootCtx) requests =
        [.request 3, .request 11, .request 1] ∧
      waitingLines s.pics = [1, 11, 3] ∧
      observed lineEvent s rest =
        [.enter 1, .finish, .enter 11, .finish, .enter 3, .finish] ∧
      waitingLines s.pics =
        (observed lineEvent s rest).filterMap LineEvent.entered ++
          waitingLines (endState s rest).pics := by
  let pics := (((picInit powerOn).request 3).request 11).request 1
  let requests : List (PicEvent × PicState) :=
    [(.request 3, ⟨(picInit powerOn).request 3, bootCtx, none⟩),
      (.request 11, ⟨((picInit powerOn).request 3).request 11, bootCtx, none⟩),
      (.request 1, ⟨pics, bootCtx, none⟩)]
  have hrequests : IsPath (KernelPicStep ⟨0, 0, 0⟩) (picStart powerOn bootCtx) requests :=
    ⟨⟨.request (by decide) (by decide), trivial⟩, ⟨.request (by decide) (by decide), trivial⟩,
      ⟨.request (by decide) (by decide), trivial⟩, trivial⟩
  have hwaiting : waitingLines pics = [1, 11, 3] := by decide
  obtain ⟨_, -, -, hinv⟩ := picInv_run (picInv_start powerOn ⟨rfl, rfl, rfl⟩) hrequests
  obtain ⟨rest, hrest, hserved⟩ := exists_servedAll ⟨0, 0, 0⟩ hinv rfl
  have hevents : observed lineEvent (endState (picStart powerOn bootCtx) requests) rest =
      [.enter 1, .finish, .enter 11, .finish, .enter 3, .finish] := by
    rw [hserved]
    exact congrArg (List.flatMap fun line => [LineEvent.enter line, .finish]) hwaiting
  refine ⟨requests, rest, rfl, hwaiting, hevents, ?_⟩
  refine picRuns_priority powerOn ⟨rfl, rfl, rfl⟩ (isPath_append.mpr ⟨hrequests, hrest⟩) ?_
  rw [hevents]
  simp [LineEvent.Quiet]

end Runs

end DonutOS.Kernel
