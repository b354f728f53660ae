import DonutOS.Foundation.Mailbox
import DonutOS.Foundation.Path
import DonutOS.Kernel.TtySession

set_option autoImplicit false

/-!
# Kernel: the loop of `tty_read` and the keyboard interrupt (`kernel/src/tty.c`)

The interrupt leaves a key in `tty_last_key` and sets `tty_has_key_ready`; the loop
polls it, clears it and reads the key in three steps.
-/

namespace DonutOS.Kernel

open DonutOS.Foundation DonutOS.Libc

/-- What the main program does next. -/
inductive LoopPc
  /-- it is outside `tty_read` -/
  | outside
  /-- the condition of the loop, and `if(tty_has_key_ready)` -/
  | poll
  /-- `tty_has_key_ready = 0` -/
  | clear
  /-- `key = tty_last_key` -/
  | read
  /-- the rest of `__tty_handle_key` -/
  | edit (key : Byte)
  /-- what is behind the loop -/
  | leave
  deriving DecidableEq

/-- The globals, the array of the caller, and the keys that the interrupt has delivered
and the editor has processed, which no code reads. -/
structure TtyLoop where
  tty : Tty
  dest : Nat
  pc : LoopPc
  delivered : List Byte
  processed : List Byte

/-- The key that the interrupt of a scancode hands to `__tty_read_key`. -/
def keyOf (scancode : Byte) (kb : Kb) : Option Byte :=
  match (kbHandler scancode kb).2 with
  | .keyHandler key => some key
  | _ => none

/-- `__kb_handler`. -/
def interrupted (scancode : Byte) (s : TtyLoop) : TtyLoop :=
  let tty := { s.tty with kb := (kbHandler scancode s.tty.kb).1 }
  match keyOf scancode s.tty.kb with
  | some key => { s with tty := ttyReadKey key tty, delivered := s.delivered ++ [key] }
  | none => { s with tty := tty }

inductive LoopEvent
  | interrupt (scancode : Byte)
  | elsewhere
  | start (dest : Nat)
  | poll
  | clear
  | read
  | edit
  | leave

/-- The two variables of the mailbox. -/
def Tty.mail (s : Tty) : Bool × Byte := (s.hasKeyReady, s.lastKey)

inductive LoopStep : TtyLoop → LoopEvent → TtyLoop → Prop
  | interrupt {s : TtyLoop} (scancode : Byte) :
      LoopStep s (.interrupt scancode) (interrupted scancode s)
  /-- The rest of the kernel does not know of the mailbox. -/
  | elsewhere {s : TtyLoop} (hpc : s.pc = .outside) {tty : Tty} (hmail : tty.mail = s.tty.mail) :
      LoopStep s .elsewhere { s with tty := tty }
  | start {s : TtyLoop} (hpc : s.pc = .outside) (dest : Nat) :
      LoopStep s (.start dest) { s with tty := ttyReadStart s.tty, dest := dest, pc := .poll }
  | poll {s : TtyLoop} (hpc : s.pc = .poll) :
      LoopStep s .poll { s with
        pc := if s.tty.reads then if s.tty.hasKeyReady then .clear else .poll else .leave }
  | clear {s : TtyLoop} (hpc : s.pc = .clear) :
      LoopStep s .clear { s with tty := { s.tty with hasKeyReady := false }, pc := .read }
  | read {s : TtyLoop} (hpc : s.pc = .read) :
      LoopStep s .read { s with pc := .edit s.tty.lastKey }
  | edit {s : TtyLoop} {key : Byte} (hpc : s.pc = .edit key) :
      LoopStep s .edit { s with
        tty := ttyEditKey key s.tty, pc := .poll, processed := s.processed ++ [key] }
  | leave {s : TtyLoop} (hpc : s.pc = .leave) :
      LoopStep s .leave { s with tty := ttyReadEnd s.dest s.tty, pc := .outside }

/-- After `tty_init`. -/
def loopStart (boot : Tty) : TtyLoop where
  tty := ttyInit boot
  dest := 0
  pc := .outside
  delivered := []
  processed := []

/-- At an empty poll, the editor has processed all keys that were delivered. -/
def NoKeyLost (s : TtyLoop) : Prop :=
  s.pc = .poll → s.tty.hasKeyReady = false → s.processed = s.delivered

/-- An interrupt that delivers a key finds the mailbox empty and its last key read. -/
def FindsEmpty : TtyLoop → LoopEvent → Prop
  | s, .interrupt scancode =>
      (keyOf scancode s.tty.kb).isSome = true → s.tty.hasKeyReady = false ∧ s.pc ≠ .read
  | _, _ => True

/-! ## What leaves the mailbox alone -/

theorem mail_eq {s t : Tty} (hready : t.hasKeyReady = s.hasKeyReady)
    (hkey : t.lastKey = s.lastKey) : t.mail = s.mail := Prod.ext hready hkey

theorem mail_ttyReadStart (s : Tty) : (ttyReadStart s).mail = s.mail := by
  obtain ⟨mem, ptr, fst, lst, hnew⟩ := historyNewBuf_eq s
  rw [ttyReadStart, hnew]
  exact mail_eq rfl rfl

theorem mail_ttyReadEnd (dest : Nat) (s : Tty) : (ttyReadEnd dest s).mail = s.mail := by
  rw [ttyReadEnd, copyLine, closeLine]
  exact mail_eq rfl rfl

theorem mail_handleOther (key : Byte) (s : Tty) : (handleOther key s).mail = s.mail := by
  have hloop : ∀ t : Tty, t.mail = s.mail → ({ t with
      inputLen := t.inputLen + 1, mem := t.mem.put (t.inputBuf + t.inputPtr) key
      inputPtr := t.inputPtr + 1, screen := ttyPutc (key.setWidth 16) t.screen } : Tty).mail =
        s.mail := fun t ht => (mail_eq rfl rfl).trans ht
  rw [handleOther]
  refine hloop _ ?_
  split
  · next hin =>
      have hsum : s.inputPtr + (s.inputLen - s.inputPtr) = s.inputLen := by omega
      have hrounds := downLoop_invariant (fun _ t => t.mail = s.mail) (f := makeRoom)
        (s.inputLen - s.inputPtr) s.inputPtr s rfl fun i t _ _ ht => by
          rw [makeRoom]
          exact (mail_eq rfl rfl).trans ht
      rw [hsum] at hrounds
      exact hrounds
  · rfl

theorem mail_recallRow (r : Nat) (screen : Screen) (s : Tty) :
    (recallRow r screen s).mail = s.mail := by
  rw [recallRow]
  exact mail_eq rfl rfl

theorem mail_handleKey (key : Byte) (s : Tty) : (handleKey key s).mail = s.mail := by
  rw [handleKey]
  split
  · rcases historyPrevBuf_spec s with ⟨heq, -⟩ | ⟨-, screen, heq⟩
    · rw [heq]
    · rw [heq, mail_recallRow]
  split
  · rcases historyNextBuf_spec s with ⟨heq, -⟩ | ⟨-, screen, heq⟩
    · rw [heq]
    · rw [heq, mail_recallRow]
  split
  · rw [handleLeft]
    split
    · exact mail_eq rfl rfl
    · rfl
  split
  · rw [handleRight]
    split
    · exact mail_eq rfl rfl
    · rfl
  split
  · rw [handleHome]
    exact mail_eq rfl rfl
  split
  · rw [handleEnd]
    exact mail_eq rfl rfl
  split
  · rw [handleBackspace, backspaceInside]
    split
    · split
      · exact mail_eq rfl rfl
      · exact mail_eq rfl rfl
    · rfl
  split
  · rw [handleDelete]
    split
    · exact mail_eq rfl rfl
    · rfl
  · exact mail_handleOther key s

theorem mail_ttyEditKey (key : Byte) (s : Tty) : (ttyEditKey key s).mail = s.mail := by
  rw [ttyEditKey]
  split
  · exact mail_eq rfl rfl
  · refine Eq.trans ?_ ((mail_handleKey key _).trans (mail_eq (s := s)
      (t := ({ s with stopRead := key == keyEnter } : Tty).onScreen criticalSectionStart) rfl rfl))
    generalize handleKey key _ = t
    exact mail_eq rfl rfl

/-! ## The loop as the consumer of a mailbox -/

def LoopPc.consumer : LoopPc → Consumer Byte
  | .outside | .poll | .leave => .poll
  | .clear => .clear
  | .read => .read
  | .edit key => .handle key

theorem LoopPc.eq_read {pc : LoopPc} (h : pc.consumer = .read) : pc = .read := by
  cases pc with
  | read => rfl
  | _ => exact nomatch h

/-- The mailbox that the two variables make. -/
def TtyLoop.mailbox (s : TtyLoop) : Mailbox Byte where
  full := s.tty.mail.1
  slot := s.tty.mail.2
  consumer := s.pc.consumer
  sent := s.delivered
  handled := s.processed

/-- The key that an event delivers. -/
def deliveredKey (s : TtyLoop) : LoopEvent → Option Byte
  | .interrupt scancode => keyOf scancode s.tty.kb
  | _ => none

/-- Outside the mailbox anything may change. -/
theorem step_of_mail {s t : TtyLoop} (hmail : t.tty.mail = s.tty.mail)
    (hpc : t.pc.consumer = s.pc.consumer) (hdelivered : t.delivered = s.delivered)
    (hprocessed : t.processed = s.processed) : Mailbox.Step s.mailbox none t.mailbox := by
  have hsame : t.mailbox = s.mailbox := by
    unfold TtyLoop.mailbox
    rw [hmail, hpc, hdelivered, hprocessed]
  rw [hsame]
  exact .skip _

theorem mailboxStep_interrupted (scancode : Byte) (s : TtyLoop) :
    Mailbox.Step s.mailbox (keyOf scancode s.tty.kb) (interrupted scancode s).mailbox := by
  rw [interrupted]
  cases keyOf scancode s.tty.kb with
  | none => exact step_of_mail (mail_eq rfl rfl) rfl rfl rfl
  | some key => exact .put _ key

/-- Every step is one of the producer or the consumer of the mailbox, or no concern of it. -/
theorem LoopStep.mailboxStep {s t : TtyLoop} {event : LoopEvent} (h : LoopStep s event t) :
    Mailbox.Step s.mailbox (deliveredKey s event) t.mailbox := by
  cases h with
  | interrupt scancode => exact mailboxStep_interrupted scancode s
  | elsewhere _ hmail => exact step_of_mail hmail rfl rfl rfl
  | start hpc dest =>
      exact step_of_mail (mail_ttyReadStart s.tty) (congrArg LoopPc.consumer hpc.symm :) rfl rfl
  | poll hpc =>
      have hpoll : s.mailbox.consumer = .poll := congrArg LoopPc.consumer hpc
      split
      · split
        · next hready => exact .poll hpoll hready
        · exact step_of_mail rfl (congrArg LoopPc.consumer hpc.symm :) rfl rfl
      · exact step_of_mail rfl (congrArg LoopPc.consumer hpc.symm :) rfl rfl
  | clear hpc => exact .clear (congrArg LoopPc.consumer hpc)
  | read hpc => exact .read (congrArg LoopPc.consumer hpc)
  | @edit key hpc =>
      have hstep := Mailbox.Step.handle (m := s.mailbox) (congrArg LoopPc.consumer hpc)
      have hmail := mail_ttyEditKey key s.tty
      unfold TtyLoop.mailbox at hstep ⊢
      simp only [hmail]
      exact hstep
  | leave hpc =>
      exact step_of_mail (mail_ttyReadEnd s.dest s.tty) (congrArg LoopPc.consumer hpc.symm :)
        rfl rfl

theorem LoopStep.lossless {s t : TtyLoop} {event : LoopEvent} (hs : s.mailbox.Lossless)
    (hempty : FindsEmpty s event) (hstep : LoopStep s event t) : t.mailbox.Lossless := by
  refine hs.step (fun key hkey => ?_) hstep.mailboxStep
  cases event with
  | interrupt scancode =>
      obtain ⟨hflag, hpc⟩ := hempty (Option.isSome_iff_exists.mpr ⟨key, hkey⟩)
      exact ⟨hflag, fun hread => hpc (LoopPc.eq_read hread)⟩
  | _ => exact nomatch hkey

/-- While every key that an interrupt delivers finds the mailbox empty, and not between the
clearing and the reading, no key is lost, processed twice, or out of order. -/
theorem loopRuns_noKeyLost (boot : Tty) {path : List (LoopEvent × TtyLoop)}
    (hrun : IsPath LoopStep (loopStart boot) path)
    (hempty : StepsMeet FindsEmpty (loopStart boot) path) :
    ∀ s ∈ visited (loopStart boot) path, NoKeyLost s := by
  intro s hs hpoll hflag
  have hstart : (loopStart boot).mailbox.Lossless := Mailbox.lossless_start _
  have hstep : ∀ (s : TtyLoop) event t, s.mailbox.Lossless → FindsEmpty s event →
      LoopStep s event t → t.mailbox.Lossless :=
    fun _ _ _ hinv hok hone => LoopStep.lossless hinv hok hone
  have hkept := hrun.invariant_of_stepsMeet hstep hstart hempty s hs
  exact hkept.handled_eq (congrArg LoopPc.consumer hpoll) hflag

/-! ## Runs -/

/-- The main program is where the event happens. -/
def loopReady : LoopEvent → LoopPc → Bool
  | .interrupt _, _ | .elsewhere, .outside | .start _, .outside | .poll, .poll | .clear, .clear
  | .read, .read | .edit, .edit _ | .leave, .leave => true
  | _, _ => false

/-- The step of an event; the rest of the kernel does nothing. -/
def loopNext : LoopEvent → TtyLoop → TtyLoop
  | .interrupt scancode, s => interrupted scancode s
  | .elsewhere, s => s
  | .start dest, s => { s with tty := ttyReadStart s.tty, dest := dest, pc := .poll }
  | .poll, s =>
      { s with pc := if s.tty.reads then if s.tty.hasKeyReady then .clear else .poll else .leave }
  | .clear, s => { s with tty := { s.tty with hasKeyReady := false }, pc := .read }
  | .read, s => { s with pc := .edit s.tty.lastKey }
  | .edit, s =>
      match s.pc with
      | .edit key =>
          { s with tty := ttyEditKey key s.tty, pc := .poll, processed := s.processed ++ [key] }
      | _ => s
  | .leave, s => { s with tty := ttyReadEnd s.dest s.tty, pc := .outside }

theorem loopStep_next (event : LoopEvent) (s : TtyLoop) (h : loopReady event s.pc = true) :
    LoopStep s event (loopNext event s) := by
  obtain ⟨tty, dest, pc, delivered, processed⟩ := s
  cases event with
  | interrupt scancode => exact .interrupt scancode
  | elsewhere =>
      cases pc with
      | outside => exact .elsewhere rfl rfl
      | _ => exact nomatch h
  | start dest =>
      cases pc with
      | outside => exact .start rfl dest
      | _ => exact nomatch h
  | poll =>
      cases pc with
      | poll => exact .poll rfl
      | _ => exact nomatch h
  | clear =>
      cases pc with
      | clear => exact .clear rfl
      | _ => exact nomatch h
  | read =>
      cases pc with
      | read => exact .read rfl
      | _ => exact nomatch h
  | edit =>
      cases pc with
      | edit key => exact .edit rfl
      | _ => exact nomatch h
  | leave =>
      cases pc with
      | leave => exact .leave rfl
      | _ => exact nomatch h

instance FindsEmpty.decidable : ∀ s event, Decidable (FindsEmpty s event)
  | s, .interrupt scancode => inferInstanceAs (Decidable
      ((keyOf scancode s.tty.kb).isSome = true → s.tty.hasKeyReady = false ∧ s.pc ≠ .read))
  | _, .elsewhere | _, .start _ | _, .poll | _, .clear | _, .read | _, .edit | _, .leave =>
      .isTrue trivial

/-- The make codes of `a` and `b`. -/
def makeA : Byte := 0x1e
def makeB : Byte := 0x30

/-- `a`, and then `b` when `a` is on the screen. -/
def apart : List LoopEvent :=
  [.start 8192, .interrupt makeA, .poll, .clear, .read, .edit, .interrupt makeB, .poll, .clear,
    .read, .edit]

theorem loopRuns_noKeyLost_apart :
    (endState (loopStart bootTty) (trace loopNext apart (loopStart bootTty))).processed =
      (endState (loopStart bootTty) (trace loopNext apart (loopStart bootTty))).delivered := by
  have hrun : IsPath LoopStep (loopStart bootTty) (trace loopNext apart (loopStart bootTty)) :=
    isPath_trace loopStep_next (by decide +kernel)
  exact loopRuns_noKeyLost bootTty hrun (by decide +kernel) _ (endState_mem_visited _ _)
    (by decide +kernel) (by decide +kernel)

/-- `b`, between the clearing and the reading of `a`: it is processed twice, and `a` never. -/
theorem loopRuns_key_lost : ∃ path, IsPath LoopStep (loopStart bootTty) path ∧
    ¬ ∀ s ∈ visited (loopStart bootTty) path, NoKeyLost s := by
  refine ⟨trace loopNext [.start 8192, .interrupt makeA, .poll, .clear, .interrupt makeB, .read,
    .edit, .poll, .clear, .read, .edit] (loopStart bootTty),
    isPath_trace loopStep_next (by decide +kernel), fun hkept => ?_⟩
  have hlast := hkept _ (endState_mem_visited _ _) (by decide +kernel) (by decide +kernel)
  exact absurd hlast (by decide +kernel)

end DonutOS.Kernel
