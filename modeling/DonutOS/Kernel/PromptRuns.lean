import DonutOS.Foundation.Path
import DonutOS.Kernel.DonutScreen
import DonutOS.Kernel.KbSpec

set_option autoImplicit false

/-!
# Kernel: who gets the keys (`kernel/src/kb.c`, `tty.c`, `donut.c`, `kernel.c`)

There is one pointer to a function that gets the keys.  `tty_read` and the viewer of
packets put theirs there, and so does `donut`, whose function stops it.  The main program
takes its steps, and between any two of them scancodes may come.
-/

namespace DonutOS.Kernel

open DonutOS.Foundation

/-- The functions that `kb_set_key_handler` is given. -/
inductive KeyHandler
  | ttyReadKey
  | donutKeyHandler
  deriving DecidableEq

/-- The globals of `kb.c`, with the function that `kb_key_handler` points to. -/
structure Keys where
  kb : Kb
  handler : Option KeyHandler
  same : kb.keyHandler = handler.isSome

theorem kbSetKeyHandler_same {kb : Kb} {old : Option KeyHandler}
    (h : kb.keyHandler = old.isSome) (f : Option KeyHandler) :
    (kbSetKeyHandler f.isSome kb).keyHandler =
      (if old = none ∨ f = none then f else old).isSome := by
  unfold kbSetKeyHandler
  cases old with
  | none => simp [h]
  | some g =>
      cases f with
      | none => simp
      | some f => simp [h]

/-- `kb_set_key_handler`. -/
def Keys.set (f : Option KeyHandler) (k : Keys) : Keys where
  kb := kbSetKeyHandler f.isSome k.kb
  handler := if k.handler = none ∨ f = none then f else k.handler
  same := kbSetKeyHandler_same k.same f

/-- What the main program does next.  The number is `frame`, an `int`. -/
inductive PromptPc
  /-- it calls `tty_read`, or goes through the other code of `tty_prompt` -/
  | between
  | reading
  /-- a command begins, or `main` in front of `donut` -/
  | command
  /-- `kb_set_key_handler(__donut_key_handler)` -/
  | entering
  /-- `if(__quit)` -/
  | head (n : Int)
  /-- the call of `tty_set_color` in the loop -/
  | chosen (n : Int)
  /-- the rest of the round -/
  | drawing (n : Int)
  deriving DecidableEq

/-- The globals that the loop of `donut` and the keys share. -/
structure Prompt where
  keys : Keys
  quit : Bool
  ttyColor : BitVec 16
  saved : BitVec 16
  pc : PromptPc

/-- The colour that `__donut_key_handler` sets. -/
def restoredColor (saved : BitVec 16) : BitVec 16 :=
  vgaColor (saved.setWidth 32 &&& 0xff) ((saved.setWidth 32 >>> 16) &&& 0xff)

/-- The colour that a donut leaves. -/
def leftColor (saved : BitVec 16) : Option Int → Option (BitVec 16)
  | none => some (restoredColor saved)
  | some n => frameColor saved n

/-- Only the low byte of a colour is seen. -/
theorem vgaEntry_restoredColor (saved c : BitVec 16) :
    vgaEntry c (restoredColor saved) = vgaEntry c saved := by
  have hlow : restoredColor saved = saved &&& 0xff := by
    unfold restoredColor vgaColor
    ext i hi
    simp
  have hbyte : ∀ k < 8, (0xff : BitVec 16).getLsbD k = true := by decide
  have hshift : (saved &&& 0xff) <<< 8 = saved <<< 8 := by
    ext i hi
    rw [BitVec.getElem_shiftLeft, BitVec.getElem_shiftLeft]
    by_cases h8 : i < 8
    · simp [h8]
    · have hpos : i - 8 < 8 := by omega
      simp only [← BitVec.getLsbD_eq_getElem, BitVec.getLsbD_and, hbyte _ hpos, Bool.and_true]
  rw [vgaEntry, vgaEntry, hlow, hshift]

/-- `__donut_key_handler`. -/
def donutKeyHandler (s : Prompt) : Prompt :=
  { s with quit := true, keys := s.keys.set none, ttyColor := restoredColor s.saved }

/-- `__kb_handler`, as far as the keys matter here. -/
def Prompt.scancode (code : Byte) (s : Prompt) : Prompt :=
  let r := kbHandler code s.keys.kb
  let s := { s with
    keys := ⟨r.1, s.keys.handler, (kbHandler_keyHandler code s.keys.kb).1.trans s.keys.same⟩ }
  match r.2 with
  | .keyHandler _ => if s.keys.handler = some .donutKeyHandler then donutKeyHandler s else s
  | _ => s

inductive PromptEvent
  | scancode (code : Byte)
  /-- `tty_read` begins; the colour command calls it too -/
  | read
  | line
  /-- the colour command, behind its two lines -/
  | recolor (fg bg : Word)
  /-- the viewer of packets -/
  | view
  /-- any other command, and the end of one -/
  | back
  | donut
  | install
  | check
  | setColor
  | finish
  deriving DecidableEq

/-- A step that overflows an `int` does not exist. -/
inductive PromptStep : Prompt → PromptEvent → Prompt → Prop
  | scancode {s : Prompt} (code : Byte) : PromptStep s (.scancode code) (s.scancode code)
  | read {s : Prompt} (hpc : s.pc = .between ∨ s.pc = .command) :
      PromptStep s .read { s with keys := s.keys.set (some .ttyReadKey), pc := .reading }
  | line {s : Prompt} (hpc : s.pc = .reading) :
      PromptStep s .line { s with keys := s.keys.set none, pc := .command }
  | recolor {s : Prompt} (fg bg : Word) (hpc : s.pc = .command) :
      PromptStep s (.recolor fg bg) { s with ttyColor := vgaColor fg bg }
  | view {s : Prompt} (hpc : s.pc = .command) :
      PromptStep s .view { s with
        keys := s.keys.set (some .ttyReadKey), ttyColor := vgaColor 7 0, pc := .between }
  | back {s : Prompt} (hpc : s.pc = .command) : PromptStep s .back { s with pc := .between }
  | donut {s : Prompt} (hpc : s.pc = .command) :
      PromptStep s .donut { s with saved := s.ttyColor, pc := .entering }
  | install {s : Prompt} (hpc : s.pc = .entering) :
      PromptStep s .install { s with keys := s.keys.set (some .donutKeyHandler), pc := .head 0 }
  | stop {s : Prompt} {n : Int} (hpc : s.pc = .head n) (hquit : s.quit = true) :
      PromptStep s .check { s with quit := false, pc := .between }
  | goOn {s : Prompt} {n : Int} (hpc : s.pc = .head n) (hquit : s.quit = false) :
      PromptStep s .check { s with pc := .chosen n }
  | setColor {s : Prompt} {n : Int} {color : BitVec 16} (hpc : s.pc = .chosen n)
      (hcolor : frameColor s.saved n = some color) :
      PromptStep s .setColor { s with ttyColor := color, pc := .drawing n }
  | finish {s : Prompt} {n m : Int} (hpc : s.pc = .drawing n) (hnext : CInt.of n + 1 = .of m) :
      PromptStep s .finish { s with pc := .head m }

/-! ## The donut between two keys -/

/-- The donut as the keys see it.  A key may come when a frame has been chosen but has not
set its colour yet: then `late` is that frame. -/
inductive Spinner
  | idle
  | running
  | stopped (late : Option Int)

inductive SpinEvent
  | silent
  | start
  | caught (late : Option Int)
  | returned
  deriving DecidableEq

inductive SpinStep : Spinner → SpinEvent → Spinner → Prop
  | silent (u : Spinner) : SpinStep u .silent u
  | start : SpinStep .idle .start .running
  | caught (late : Option Int) : SpinStep .running (.caught late) (.stopped late)
  | returned (late : Option Int) : SpinStep (.stopped late) .returned .idle

/-- The frame that a key came late for. -/
def SpinEvent.late : SpinEvent → Option (Option Int)
  | .caught late => some late
  | _ => none

/-- A donut has been started and has not returned. -/
def Spinner.active : Spinner → Nat
  | .idle => 0
  | _ => 1

/-- A key has stopped it. -/
def Spinner.caught : Spinner → Nat
  | .stopped _ => 1
  | _ => 0

/-- The keys that stopped a donut, in order. -/
def lateFrames (events : List SpinEvent) : List (Option Int) := events.filterMap SpinEvent.late

theorem lateFrames_caught (late : Option Int) (events : List SpinEvent) :
    lateFrames (.caught late :: events) = late :: lateFrames events := rfl

theorem caught_ne_start (late : Option Int) : SpinEvent.caught late ≠ .start := nofun

theorem caught_ne_returned (late : Option Int) : SpinEvent.caught late ≠ .returned := nofun

/-- Every donut that has returned was started once and stopped by one key. -/
theorem spinPath_counts {u : Spinner} {path : List (SpinEvent × Spinner)}
    (hpath : IsPath SpinStep u path) :
    (path.map Prod.fst).count .start + u.active =
        (path.map Prod.fst).count .returned + (endState u path).active ∧
      (lateFrames (path.map Prod.fst)).length + u.caught =
        (path.map Prod.fst).count .returned + (endState u path).caught := by
  induction path generalizing u with
  | nil => exact ⟨rfl, rfl⟩
  | cons head rest ih =>
      obtain ⟨event, t⟩ := head
      obtain ⟨hstep, hrest⟩ := hpath
      obtain ⟨hstart, hcaught⟩ := ih hrest
      rw [endState, List.map_cons]
      cases hstep with
      | silent _ => exact ⟨hstart, hcaught⟩
      | start =>
          rw [List.count_cons_self, List.count_cons_of_ne (by decide)]
          exact ⟨hstart, hcaught⟩
      | caught late =>
          rw [List.count_cons_of_ne (caught_ne_start late),
            List.count_cons_of_ne (caught_ne_returned late), lateFrames_caught,
            List.length_cons]
          exact ⟨hstart, hcaught⟩
      | returned late =>
          rw [List.count_cons_of_ne (by decide), List.count_cons_self]
          exact ⟨(congrArg Nat.succ hstart).trans (Nat.succ_add _ _).symm,
            (congrArg Nat.succ hcaught).trans (Nat.succ_add _ _).symm⟩

/-- The last key that stopped a donut is the one it is stopped by. -/
theorem getLast?_lateFrames {u : Spinner} {path : List (SpinEvent × Spinner)}
    (hpath : IsPath SpinStep u path) {late : Option Int} (hend : endState u path = .stopped late) :
    (lateFrames (path.map Prod.fst)).getLast? = some late ∨
      lateFrames (path.map Prod.fst) = [] ∧ u = .stopped late := by
  induction path generalizing u with
  | nil => exact .inr ⟨rfl, hend⟩
  | cons head rest ih =>
      obtain ⟨event, t⟩ := head
      obtain ⟨hstep, hrest⟩ := hpath
      rw [List.map_cons]
      rcases ih hrest hend with hlast | ⟨hnone, rfl⟩
      · left
        cases hstep with
        | silent _ => exact hlast
        | start => exact hlast
        | caught _ =>
            rw [lateFrames_caught, List.getLast?_cons, hlast]
            rfl
        | returned _ => exact hlast
      · cases hstep with
        | silent _ => exact .inr ⟨hnone, rfl⟩
        | caught _ =>
            rw [lateFrames_caught, hnone]
            exact .inl rfl

/-- The colour that the last donut found; `saved` when there is none. -/
def foundColor (saved : BitVec 16) : Prompt → List (PromptEvent × Prompt) → BitVec 16
  | _, [] => saved
  | s, (.donut, t) :: rest => foundColor s.ttyColor t rest
  | _, (_, t) :: rest => foundColor saved t rest

/-! ## What the globals show of it -/

def PromptPc.lateFrame : PromptPc → Option Int
  | .chosen n => some n
  | _ => none

def KbCall.isKey : KbCall → Bool
  | .keyHandler _ => true
  | _ => false

/-- The scancode stops the donut. -/
def Prompt.stops (code : Byte) (s : Prompt) : Bool :=
  decide (s.keys.handler = some .donutKeyHandler) && (kbHandler code s.keys.kb).2.isKey

/-- What a step is to the donut. -/
def spinEvent (s : Prompt) (event : PromptEvent) (_ : Prompt) : SpinEvent :=
  match event with
  | .scancode code => if s.stops code then .caught s.pc.lateFrame else .silent
  | .install => .start
  | .check => if s.quit then .returned else .silent
  | _ => .silent

/-- Where the main program is outside the loop of `donut`, and who gets the keys there. -/
inductive Outside : PromptPc → Option KeyHandler → Prop
  | between {handler : Option KeyHandler} (h : handler ≠ some .donutKeyHandler) :
      Outside .between handler
  | reading : Outside .reading (some .ttyReadKey)
  | command : Outside .command none
  | entering : Outside .entering none

/-- Where it is in the loop. -/
inductive InLoop : PromptPc → Prop
  | head (n : Int) : InLoop (.head n)
  | chosen (n : Int) : InLoop (.chosen n)
  | drawing (n : Int) : InLoop (.drawing n)

/-- Where it is when a key has stopped the donut, and the colour. -/
inductive Stopped (saved : BitVec 16) : Option Int → PromptPc → BitVec 16 → Prop
  | head (n : Int) : Stopped saved none (.head n) (restoredColor saved)
  | drawing (n : Int) : Stopped saved none (.drawing n) (restoredColor saved)
  | late (n : Int) : Stopped saved (some n) (.chosen n) (restoredColor saved)
  | lateDrawing {n : Int} {color : BitVec 16} (h : frameColor saved n = some color) :
      Stopped saved (some n) (.drawing n) color
  | lateHead {n : Int} {color : BitVec 16} (h : frameColor saved n = some color) (m : Int) :
      Stopped saved (some n) (.head m) color

/-- The globals in a state of the donut. -/
inductive SpinShown (s : Prompt) : Spinner → Prop
  | idle (hquit : s.quit = false) (hpc : Outside s.pc s.keys.handler) : SpinShown s .idle
  | running (hquit : s.quit = false) (hpc : InLoop s.pc)
      (hhandler : s.keys.handler = some .donutKeyHandler) : SpinShown s .running
  | stopped {late : Option Int} (hquit : s.quit = true) (hhandler : s.keys.handler = none)
      (hpc : Stopped s.saved late s.pc s.ttyColor) : SpinShown s (.stopped late)

/-! ## One step -/

/-- What a scancode does to the globals here. -/
theorem scancode_eq (code : Byte) (s : Prompt) :
    ∃ keys : Keys, keys.handler = s.keys.handler ∧
      s.scancode code =
        if s.stops code then donutKeyHandler { s with keys } else { s with keys } := by
  have hsame := (kbHandler_keyHandler code s.keys.kb).1.trans s.keys.same
  refine ⟨⟨(kbHandler code s.keys.kb).1, s.keys.handler, hsame⟩, rfl, ?_⟩
  unfold Prompt.scancode Prompt.stops
  cases hcall : (kbHandler code s.keys.kb).2 with
  | none => simp [KbCall.isKey, hcall]
  | procKbDebug key => simp [KbCall.isKey, hcall]
  | keyHandler key => simp [KbCall.isKey, hcall]

/-- `__tty_color` is set by nothing else. -/
theorem saved_endState {s : Prompt} {path : List (PromptEvent × Prompt)}
    (hpath : IsPath PromptStep s path) : (endState s path).saved = foundColor s.saved s path := by
  induction path generalizing s with
  | nil => rfl
  | cons head rest ih =>
      obtain ⟨event, t⟩ := head
      obtain ⟨hstep, hrest⟩ := hpath
      rw [endState, ih hrest]
      cases hstep with
      | scancode code =>
          obtain ⟨keys, -, hscan⟩ := scancode_eq code s
          have hsaved : (s.scancode code).saved = s.saved := by
            rw [hscan]
            split <;> rfl
          rw [hsaved]
          rfl
      | _ => rfl

theorem handler_set_none (k : Keys) : (k.set none).handler = none := if_pos (Or.inr rfl)

theorem handler_set {k : Keys} {f : KeyHandler} (h : k.handler = none ∨ k.handler = some f) :
    (k.set (some f)).handler = some f := by
  rcases h with h | h
  · exact if_pos (Or.inl h)
  · unfold Keys.set
    dsimp only
    split
    · rfl
    · exact h

theorem Outside.ne_donut {pc : PromptPc} {handler : Option KeyHandler} (h : Outside pc handler) :
    handler ≠ some .donutKeyHandler := by
  cases h with
  | between h => exact h
  | reading => decide
  | command => decide
  | entering => decide

theorem InLoop.stopped {pc : PromptPc} (h : InLoop pc) (saved : BitVec 16) :
    Stopped saved pc.lateFrame pc (restoredColor saved) := by
  cases h with
  | head n => exact .head n
  | chosen n => exact .late n
  | drawing n => exact .drawing n

theorem Stopped.of_chosen {saved color : BitVec 16} {late : Option Int} {n : Int}
    (h : Stopped saved late (.chosen n) color) : late = some n := by
  cases h with
  | late n => rfl

theorem Stopped.of_drawing {saved color : BitVec 16} {late : Option Int} {n : Int}
    (h : Stopped saved late (.drawing n) color) (m : Int) :
    Stopped saved late (.head m) color := by
  cases h with
  | drawing n => exact .head m
  | lateDrawing hcolor => exact .lateHead hcolor m

/-- When the donut is about to return. -/
theorem Stopped.of_head {saved color : BitVec 16} {late : Option Int} {n : Int}
    (h : Stopped saved late (.head n) color) : leftColor saved late = some color := by
  cases h with
  | head n => rfl
  | lateHead hcolor n => exact hcolor

theorem SpinShown.scancode {s : Prompt} {u : Spinner} (h : SpinShown s u) (code : Byte) :
    ∃ u', SpinStep u (if s.stops code then .caught s.pc.lateFrame else .silent) u' ∧
      SpinShown (s.scancode code) u' := by
  obtain ⟨keys, hhandler, hscan⟩ := scancode_eq code s
  rw [hscan]
  cases hstops : s.stops code with
  | true =>
      rw [if_pos rfl, if_pos rfl]
      have hdonut : s.keys.handler = some .donutKeyHandler := by
        rw [Prompt.stops, Bool.and_eq_true, decide_eq_true_eq] at hstops
        exact hstops.1
      cases h with
      | idle hquit hpc => exact absurd hdonut hpc.ne_donut
      | running hquit hpc _ =>
          exact ⟨_, .caught _, .stopped rfl (handler_set_none _) (hpc.stopped s.saved)⟩
      | stopped hquit hnone hpc =>
          rw [hnone] at hdonut
          cases hdonut
  | false =>
      rw [if_neg Bool.false_ne_true, if_neg Bool.false_ne_true]
      refine ⟨u, .silent u, ?_⟩
      cases h with
      | idle hquit hpc => exact .idle hquit (by rwa [hhandler])
      | running hquit hpc hdonut => exact .running hquit hpc (hhandler.trans hdonut)
      | stopped hquit hnone hpc => exact .stopped hquit (hhandler.trans hnone) hpc

theorem Stopped.inLoop {saved : BitVec 16} {late : Option Int} {pc : PromptPc}
    {color : BitVec 16} (h : Stopped saved late pc color) : InLoop pc := by
  cases h with
  | head n => exact .head n
  | drawing n => exact .drawing n
  | late n => exact .chosen n
  | lateDrawing _ => exact .drawing _
  | lateHead _ m => exact .head m

/-- Outside the loop no donut runs. -/
theorem SpinShown.of_outside {s : Prompt} {u : Spinner} (h : SpinShown s u)
    (hout : ¬ InLoop s.pc) : u = .idle ∧ s.quit = false ∧ Outside s.pc s.keys.handler := by
  cases h with
  | idle hquit hpc => exact ⟨rfl, hquit, hpc⟩
  | running _ hpc _ => exact absurd hpc hout
  | stopped _ _ hpc => exact absurd hpc.inLoop hout

/-- In the loop it runs, or a key has stopped it. -/
theorem SpinShown.of_inLoop {s : Prompt} {u : Spinner} (h : SpinShown s u)
    (hin : InLoop s.pc) :
    (u = .running ∧ s.quit = false ∧ s.keys.handler = some .donutKeyHandler) ∨
      ∃ late, u = .stopped late ∧ s.quit = true ∧ s.keys.handler = none ∧
        Stopped s.saved late s.pc s.ttyColor := by
  cases h with
  | idle _ hpc =>
      generalize s.pc = pc at hpc hin
      cases hin <;> cases hpc
  | running hquit _ hhandler => exact .inl ⟨rfl, hquit, hhandler⟩
  | stopped hquit hhandler hpc => exact .inr ⟨_, rfl, hquit, hhandler, hpc⟩

/-- `tty_read` takes the keys over when it begins. -/
theorem Outside.free {pc : PromptPc} {handler : Option KeyHandler} (h : Outside pc handler)
    (hpc : pc = .between ∨ pc = .command) :
    handler = none ∨ handler = some .ttyReadKey := by
  cases h with
  | between h =>
      match handler, h with
      | none, _ => exact .inl rfl
      | some .ttyReadKey, _ => exact .inr rfl
      | some .donutKeyHandler, h => exact absurd rfl h
  | reading => exact .inr rfl
  | command => exact .inl rfl
  | entering => exact .inl rfl

/-- Between a command's line and the end of `donut`'s first lines nobody has the keys. -/
theorem Outside.handler {pc : PromptPc} {handler : Option KeyHandler} (h : Outside pc handler)
    (hpc : pc = .command ∨ pc = .entering) : handler = none := by
  cases h with
  | between _ => rcases hpc with hpc | hpc <;> cases hpc
  | reading => rcases hpc with hpc | hpc <;> cases hpc
  | command => rfl
  | entering => rfl

/-- One step of the main program or one scancode is at most one event of the donut. -/
theorem spinShown_step {s t : Prompt} {event : PromptEvent} {u : Spinner}
    (h : SpinShown s u) (hstep : PromptStep s event t) :
    ∃ u', SpinStep u (spinEvent s event t) u' ∧ SpinShown t u' := by
  obtain ⟨keys, quit, color, saved, pc⟩ := s
  cases hstep with
  | scancode code => exact h.scancode code
  | read hpc =>
      obtain ⟨rfl, hquit, hout⟩ := h.of_outside fun hin => by
        rcases hpc with rfl | rfl <;> cases hin
      refine ⟨_, .silent _, .idle hquit ?_⟩
      rw [handler_set (hout.free hpc)]
      exact .reading
  | line hpc =>
      cases hpc
      obtain ⟨rfl, hquit, -⟩ := h.of_outside fun hin => nomatch hin
      refine ⟨_, .silent _, .idle hquit ?_⟩
      rw [handler_set_none]
      exact .command
  | recolor fg bg hpc =>
      cases hpc
      obtain ⟨rfl, hquit, hout⟩ := h.of_outside fun hin => nomatch hin
      exact ⟨_, .silent _, .idle hquit hout⟩
  | view hpc =>
      obtain ⟨rfl, hquit, hout⟩ := h.of_outside fun hin => by cases hpc; cases hin
      refine ⟨_, .silent _, .idle hquit ?_⟩
      rw [handler_set (hout.free (.inr hpc))]
      exact .between (by decide)
  | back hpc =>
      obtain ⟨rfl, hquit, hout⟩ := h.of_outside fun hin => by cases hpc; cases hin
      exact ⟨_, .silent _, .idle hquit (.between hout.ne_donut)⟩
  | donut hpc =>
      obtain ⟨rfl, hquit, hout⟩ := h.of_outside fun hin => by cases hpc; cases hin
      have hnone : keys.handler = none := hout.handler (.inl hpc)
      refine ⟨_, .silent _, .idle hquit ?_⟩
      rw [hnone]
      exact .entering
  | install hpc =>
      obtain ⟨rfl, hquit, hout⟩ := h.of_outside fun hin => by cases hpc; cases hin
      exact ⟨_, .start, .running hquit (.head 0) (handler_set (.inl (hout.handler (.inr hpc))))⟩
  | @stop n hpc hquit =>
      cases hpc
      cases hquit
      rcases h.of_inLoop (.head n) with ⟨-, hfalse, -⟩ | ⟨late, rfl, -, hnone, -⟩
      · cases hfalse
      · refine ⟨_, .returned late, .idle rfl (.between ?_)⟩
        rw [hnone]
        decide
  | @goOn n hpc hquit =>
      cases hpc
      cases hquit
      rcases h.of_inLoop (.head n) with ⟨rfl, -, hhandler⟩ | ⟨late, rfl, htrue, -, -⟩
      · exact ⟨_, .silent _, .running rfl (.chosen n) hhandler⟩
      · cases htrue
  | @setColor n color hpc hcolor =>
      cases hpc
      rcases h.of_inLoop (.chosen n) with ⟨rfl, hquit, hhandler⟩ | ⟨late, rfl, hquit, hnone, hpc⟩
      · exact ⟨_, .silent _, .running hquit (.drawing n) hhandler⟩
      · cases hpc.of_chosen
        exact ⟨_, .silent _, .stopped hquit hnone (.lateDrawing hcolor)⟩
  | @finish n m hpc _ =>
      cases hpc
      rcases h.of_inLoop (.drawing n) with ⟨rfl, hquit, hhandler⟩ | ⟨late, rfl, hquit, hnone, hpc⟩
      · exact ⟨_, .silent _, .running hquit (.head m) hhandler⟩
      · exact ⟨_, .silent _, .stopped hquit hnone (hpc.of_drawing m)⟩

/-! ## Every run -/

/-- In front of the `donut` of `main`: `kb_key_handler` is `NULL` and `__quit` is 0. -/
def promptStart (kb : Kb) (h : kb.keyHandler = false) (color saved : BitVec 16) : Prompt :=
  ⟨⟨kb, none, h⟩, false, color, saved, .command⟩

theorem spinShown_start (kb : Kb) (h : kb.keyHandler = false) (color saved : BitVec 16) :
    SpinShown (promptStart kb h color saved) .idle := .idle rfl .command

section Runs

variable {kb : Kb} {hkb : kb.keyHandler = false} {color saved : BitVec 16}
  {path : List (PromptEvent × Prompt)}

theorem spinShown_run (hpath : IsPath PromptStep (promptStart kb hkb color saved) path) :
    ∃ spins, IsPath SpinStep .idle spins ∧
      spins.map Prod.fst = observed spinEvent (promptStart kb hkb color saved) path ∧
      SpinShown (endState (promptStart kb hkb color saved) path) (endState .idle spins) :=
  IsPath.simulate (R := SpinShown) (fun _ _ _ _ h hstep => spinShown_step h hstep)
    (spinShown_start kb hkb color saved) hpath

/-- Whatever is typed: `tty_read` gets the keys while it runs, and `donut` until one has
stopped it; every donut that has returned was stopped by one key, and no key stops a donut
that does not run. -/
theorem promptRuns_keys (hpath : IsPath PromptStep (promptStart kb hkb color saved) path) :
    let s := endState (promptStart kb hkb color saved) path
    let events := observed spinEvent (promptStart kb hkb color saved) path
    (s.pc = .reading → s.keys.handler = some .ttyReadKey) ∧
      (InLoop s.pc → s.keys.handler = if s.quit then none else some .donutKeyHandler) ∧
      (lateFrames events).length = events.count .returned + s.quit.toNat ∧
      (¬ InLoop s.pc → events.count .start = events.count .returned) := by
  obtain ⟨spins, hspins, hlabels, hshown⟩ := spinShown_run hpath
  obtain ⟨hstarts, hcaught⟩ := spinPath_counts hspins
  rw [hlabels] at hstarts hcaught
  dsimp only
  generalize endState (promptStart kb hkb color saved) path = s at hshown ⊢
  refine ⟨fun hpc => ?_, fun hin => ?_, ?_, fun hout => ?_⟩
  · obtain ⟨-, -, hout⟩ := hshown.of_outside (by rw [hpc]; exact fun hin => nomatch hin)
    rw [hpc] at hout
    generalize s.keys.handler = handler at hout
    cases hout
    rfl
  · rcases hshown.of_inLoop hin with ⟨-, hquit, hhandler⟩ | ⟨_, -, hquit, hhandler, -⟩
    · rw [hhandler, hquit]
      rfl
    · rw [hhandler, hquit]
      rfl
  · generalize endState Spinner.idle spins = u at hshown hcaught
    cases hshown with
    | idle hquit _ =>
        rw [hquit]
        exact hcaught
    | running hquit _ _ =>
        rw [hquit]
        exact hcaught
    | stopped hquit _ _ =>
        rw [hquit]
        exact hcaught
  · obtain ⟨hidle, -, -⟩ := hshown.of_outside hout
    rw [hidle] at hstarts
    exact hstarts

/-- The shell before a donut, with a blue background. -/
def bluePrompt : Prompt :=
  promptStart ⟨⟨false, false, false, false, false, false⟩, 0, false⟩ rfl 0x17 0

/-- `a` is pressed between the test of `__quit` and the call of `tty_set_color`, in the first
frame. -/
theorem exists_latePath :
    ∃ path, IsPath PromptStep bluePrompt path ∧
      path.map Prod.fst = [.donut, .install, .check, .scancode 0x1e, .setColor, .finish] ∧
      (endState bluePrompt path).pc = .head 1 ∧ (endState bluePrompt path).quit = true :=
  ⟨[(.donut, _), (.install, _), (.check, _), (.scancode 0x1e, _), (.setColor, _), (.finish, _)],
    ⟨.donut rfl, .install rfl, .goOn rfl rfl, .scancode _, .setColor rfl rfl, .finish rfl rfl,
      trivial⟩,
    rfl, rfl, rfl⟩

theorem promptRuns_keys_late :
    ∃ path, IsPath PromptStep bluePrompt path ∧
      (endState bluePrompt path).keys.handler = none ∧
      (lateFrames (observed spinEvent bluePrompt path)).length =
        (observed spinEvent bluePrompt path).count .returned + 1 := by
  obtain ⟨path, hpath, -, hpc, hquit⟩ := exists_latePath
  obtain ⟨-, hloop, hlate, -⟩ := promptRuns_keys hpath
  refine ⟨path, hpath, ?_, ?_⟩
  · refine (hloop ?_).trans (if_pos hquit)
    exact hpc.symm ▸ .head 1
  · exact hlate.trans (congrArg (fun q => _ + Bool.toNat q) hquit)

/-- A donut leaves the colour it found, in the bits that count, unless its key came between
the test of `__quit` and the call of `tty_set_color`: then it leaves the colour of that
frame. -/
theorem promptRuns_colour (hpath : IsPath PromptStep (promptStart kb hkb color saved) path)
    {n : Int} (hpc : (endState (promptStart kb hkb color saved) path).pc = .head n)
    (hquit : (endState (promptStart kb hkb color saved) path).quit = true) :
    let found := foundColor saved (promptStart kb hkb color saved) path
    ∃ late, (lateFrames (observed spinEvent (promptStart kb hkb color saved) path)).getLast? =
        some late ∧
      leftColor found late = some (endState (promptStart kb hkb color saved) path).ttyColor ∧
      ∀ c, vgaEntry c (restoredColor found) = vgaEntry c found := by
  obtain ⟨spins, hspins, hlabels, hshown⟩ := spinShown_run hpath
  have hfound := saved_endState hpath
  rcases hshown.of_inLoop (by rw [hpc]; exact .head n) with
    ⟨-, hfalse, -⟩ | ⟨late, hstopped, -, -, hcolor⟩
  · exact Bool.noConfusion (hquit.symm.trans hfalse)
  · rw [hpc, hfound] at hcolor
    rw [← hlabels]
    refine ⟨late, ?_, hcolor.of_head, vgaEntry_restoredColor _⟩
    rcases getLast?_lateFrames hspins hstopped with hlast | ⟨-, hidle⟩
    · exact hlast
    · cases hidle

/-- The frame that was chosen takes the blue away. -/
theorem promptRuns_colour_late :
    ∃ path, IsPath PromptStep bluePrompt path ∧
      ∃ late, (lateFrames (observed spinEvent bluePrompt path)).getLast? = some late ∧
        leftColor (foundColor 0 bluePrompt path) late =
          some (endState bluePrompt path).ttyColor := by
  obtain ⟨path, hpath, -, hpc, hquit⟩ := exists_latePath
  obtain ⟨late, hlast, hcolor, -⟩ := promptRuns_colour hpath hpc hquit
  exact ⟨path, hpath, late, hlast, hcolor⟩

end Runs

end DonutOS.Kernel
