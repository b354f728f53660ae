import DonutOS.Foundation.Path
import DonutOS.Kernel.TtyEdit

set_option autoImplicit false

/-!
# Kernel: calls of `tty_read` (`kernel/src/tty.c`)

A session is a call of `tty_read`: it starts, handles the keys that the keyboard
delivers one after another, and ends with the key after which its loop stops.
Between two sessions the rest of the kernel runs.
-/

namespace DonutOS.Kernel

open DonutOS.Foundation DonutOS.Libc

/-- An array of a caller of `tty_read`; `tty_history` is another object. -/
structure Dest where
  addr : Nat
  apart : sizeofTtyHistory ≤ addr

/-- The keyboard delivers a key, and the poll of `tty_read` finds it. -/
def pressKey (key : Byte) (s : Tty) : Tty := ttyHandleKey (ttyReadKey key s)

def pressKeys (keys : List Byte) (s : Tty) : Tty := keys.foldl (fun s key => pressKey key s) s

/-- The line editor, the caller that waits in `tty_read`, and the strings that
`tty_read` has delivered so far, the last one first, which no code reads. -/
structure Session where
  tty : Tty
  reader : Option Dest
  submitted : List (List Byte)

/-- The string at `a`. -/
def stringAt (m : Memory) (a : Nat) : List Byte :=
  (List.range (strlen m a)).map fun i => m (a + i)

inductive TtyEvent
  | elsewhere
  | read (dest : Dest)
  | key (key : Byte)

inductive SessionStep : Session → TtyEvent → Session → Prop
  /-- The rest of the kernel writes to the screen and to its own memory, and the
  modifiers of the keyboard change. -/
  | elsewhere {s : Tty} {submitted : List (List Byte)} (screen : Screen) (mods : Mods)
      (mem : Store) (promptPtr : Nat) (hmem : s.mem.Writes (sizeofTtyHistory ≤ ·) mem) :
      SessionStep ⟨s, none, submitted⟩ .elsewhere
        ⟨{ s with
            screen := screen, kb := { s.kb with mods := mods }, mem := mem
            promptPtr := promptPtr }, none, submitted⟩
  | read {s : Tty} {submitted : List (List Byte)} (dest : Dest) :
      SessionStep ⟨s, none, submitted⟩ (.read dest) ⟨ttyReadStart s, some dest, submitted⟩
  | key {s : Tty} {dest : Dest} {submitted : List (List Byte)} {key : Byte}
      (hreads : (pressKey key s).reads = true) :
      SessionStep ⟨s, some dest, submitted⟩ (.key key) ⟨pressKey key s, some dest, submitted⟩
  | last {s : Tty} {dest : Dest} {submitted : List (List Byte)} {key : Byte}
      (hends : (pressKey key s).reads = false) :
      SessionStep ⟨s, some dest, submitted⟩ (.key key)
        ⟨ttyReadEnd dest.addr (pressKey key s), none,
          stringAt (ttyReadEnd dest.addr (pressKey key s)).mem.bytes dest.addr :: submitted⟩

/-- After `tty_init`. -/
def sessionStart (boot : Tty) : Session := ⟨ttyInit boot, none, []⟩

/-- Before its loop, `tty_read` changes the history and selects the new line. -/
theorem historyNewBuf_eq (s : Tty) : ∃ mem ptr fst lst, historyNewBuf s = { s with
    mem := mem, historyPtr := ptr, historyFst := fst, historyLst := lst } := by
  rw [historyNewBuf]
  split
  · exact ⟨_, _, _, _, rfl⟩
  split
  · exact ⟨_, _, _, _, rfl⟩
  · rw [historyCommit]
    split
    · split
      · exact ⟨_, _, _, _, rfl⟩
      · exact ⟨_, _, _, _, rfl⟩
    · split
      · exact ⟨_, _, _, _, rfl⟩
      · exact ⟨_, _, _, _, rfl⟩

/-! ## A key -/

/-- The keys that have a `case` of their own, and Enter. -/
def controlKeys : List Byte :=
  [keyEnter, keyUp, keyDown, keyLeft, keyRight, keyHome, keyEnd, keyBackspace, keyDelete]

/-- `__tty_handle_key` has taken the key, and is in its critical section. -/
def takeKey (key : Byte) (s : Tty) : Tty :=
  { s with
    hasKeyReady := false, lastKey := key, stopRead := false
    screen := criticalSectionStart s.screen }

theorem pressKey_enter (s : Tty) :
    pressKey keyEnter s =
      { s with hasKeyReady := false, lastKey := keyEnter, stopRead := true } := rfl

theorem pressKey_of_ne {key : Byte} (hkey : key ≠ keyEnter) (s : Tty) :
    pressKey key s = (handleKey key (takeKey key s)).onScreen criticalSectionEnd := by
  have hstop : (key == keyEnter) = false := beq_eq_false_iff_ne.mpr hkey
  rw [pressKey, ttyHandleKey, ttyEditKey]
  change (if key = keyEnter then _ else _) = _
  rw [if_neg hkey]
  change (handleKey key { s with
    hasKeyReady := false, lastKey := key, stopRead := key == keyEnter
    screen := criticalSectionStart s.screen }).onScreen criticalSectionEnd = _
  rw [hstop]
  rfl

theorem mem_onScreen (f : Screen → Screen) (s : Tty) : (s.onScreen f).mem = s.mem := rfl

theorem inputLen_onScreen (f : Screen → Screen) (s : Tty) :
    (s.onScreen f).inputLen = s.inputLen := rfl

theorem keyEdit_of_inserted {key : Byte} (hkey : key ∉ controlKeys) :
    keyEdit key = .insert key := by
  simp only [controlKeys, List.mem_cons, List.not_mem_nil, or_false, not_or] at hkey
  obtain ⟨-, -, -, hleft, hright, hhome, hend, hbackspace, hdelete⟩ := hkey
  rw [keyEdit, if_neg hleft, if_neg hright, if_neg hhome, if_neg hend, if_neg hbackspace,
    if_neg hdelete]

/-- Only keys without a `case` of their own insert, and they insert themselves. -/
theorem keyEdit_eq_insert {key c : Byte} (henter : key ≠ keyEnter) (hup : key ≠ keyUp)
    (hdown : key ≠ keyDown) (h : keyEdit key = .insert c) : c = key ∧ key ∉ controlKeys := by
  by_cases hkey : key ∈ controlKeys
  · simp only [controlKeys, List.mem_cons, List.not_mem_nil, or_false] at hkey
    rcases hkey with rfl | rfl | rfl | rfl | rfl | rfl | rfl | rfl | rfl
    · exact absurd rfl henter
    · exact absurd rfl hup
    · exact absurd rfl hdown
    all_goals exact nomatch h
  · rw [keyEdit_of_inserted hkey] at h
    exact ⟨(Edit.insert.inj h).symm, hkey⟩

/-- The key has been taken; of the rest only the screen differs. -/
theorem Editing.takeKey {s : Tty} {l : Line Byte} (h : Editing s l) (key : Byte) :
    Editing (takeKey key s) l := ⟨h.len, h.ptr, h.text⟩

/-- A key that edits the line, from the delivery to the end of its handler. -/
theorem pressKey_spec {key : Byte} (henter : key ≠ keyEnter) (hup : key ≠ keyUp)
    (hdown : key ≠ keyDown) {s : Tty} {l : Line Byte} (h : Editing s l) :
    Editing (pressKey key s) (l.apply (keyEdit key)) ∧
      Edited (keyEdit key) (takeKey key s) (pressKey key s) := by
  obtain ⟨hediting, hedited⟩ := handleKey_spec hup hdown (h.takeKey key)
  rw [pressKey_of_ne henter]
  exact ⟨⟨hediting.len, hediting.ptr, hediting.text⟩,
    ⟨hedited.fixed, hedited.writes, hedited.bytes⟩⟩

/-! ## The history -/

/-- The line at the row `r` of the history is recalled, and shown. -/
def recallRow (r : Nat) (screen : Screen) (s : Tty) : Tty :=
  let mem := s.mem.put (s.inputBuf + s.inputLen) 0
  { s with
    mem := mem, historyPtr := r, inputBuf := ttyHistory r, screen := screen
    inputLen := strlen mem.bytes (ttyHistory r), inputPtr := strlen mem.bytes (ttyHistory r) }

theorem historyShow_eq (tmp : Nat) (s : Tty) :
    ∃ screen, historyShow tmp s = { s with screen := screen } := ⟨_, rfl⟩

theorem historyMove_eq {offset : Int} {s : Tty} {r : Nat}
    (hr : ((s.historyPtr + offset) % 2 ^ 32).toNat % ttyHistorySize = r) :
    ∃ screen, historyMove offset s = recallRow r screen s := by
  rw [historyMove, hr]
  obtain ⟨screen, hshow⟩ := historyShow_eq s.inputLen { s with
    mem := s.mem.put (s.inputBuf + s.inputLen) 0, historyPtr := r, inputBuf := ttyHistory r
    inputLen := strlen (s.mem.put (s.inputBuf + s.inputLen) 0).bytes (ttyHistory r)
    inputPtr := strlen (s.mem.put (s.inputBuf + s.inputLen) 0).bytes (ttyHistory r) }
  exact ⟨screen, hshow⟩

/-- The rows of the history are a ring. -/
theorem row_before (n : Nat) : (((n : Int) + -1) % 2 ^ 32).toNat % ttyHistorySize =
    (n + (ttyHistorySize - 1)) % ttyHistorySize := by
  simp only [ttyHistorySize]
  omega

theorem row_behind (n : Nat) : (((n : Int) + 1) % 2 ^ 32).toNat % ttyHistorySize =
    (n + 1) % ttyHistorySize := by
  simp only [ttyHistorySize]
  omega

/-- `KEY_UP` recalls the row before, unless the oldest one is shown. -/
theorem historyPrevBuf_spec (s : Tty) :
    historyPrevBuf s = s ∧ s.historyPtr = s.historyFst ∨
      s.historyPtr ≠ s.historyFst ∧ ∃ screen, historyPrevBuf s =
        recallRow ((s.historyPtr + (ttyHistorySize - 1)) % ttyHistorySize) screen s := by
  rw [historyPrevBuf]
  split
  · next hmoves => exact Or.inr ⟨hmoves, historyMove_eq (row_before _)⟩
  · next hstays => exact Or.inl ⟨rfl, not_not.mp hstays⟩

/-- `KEY_DOWN` recalls the row behind, unless the newest one is shown. -/
theorem historyNextBuf_spec (s : Tty) :
    historyNextBuf s = s ∧ s.historyPtr = s.historyLst ∨
      s.historyPtr ≠ s.historyLst ∧ ∃ screen, historyNextBuf s =
        recallRow ((s.historyPtr + 1) % ttyHistorySize) screen s := by
  rw [historyNextBuf]
  split
  · next hmoves => exact Or.inr ⟨hmoves, historyMove_eq (row_behind _)⟩
  · next hstays => exact Or.inl ⟨rfl, not_not.mp hstays⟩

/-! ## All that a key can do -/

/-- `KEY_UP` or `KEY_DOWN` moves from the row of the history that is shown to the row `r`. -/
def Recalls (key : Byte) (s : Tty) (r : Nat) : Prop :=
  key = keyUp ∧ s.historyPtr ≠ s.historyFst ∧
      r = (s.historyPtr + (ttyHistorySize - 1)) % ttyHistorySize ∨
    key = keyDown ∧ s.historyPtr ≠ s.historyLst ∧ r = (s.historyPtr + 1) % ttyHistorySize

theorem Recalls.lt {key : Byte} {s : Tty} {r : Nat} (h : Recalls key s r) :
    r < ttyHistorySize := by
  rcases h with ⟨_, _, rfl⟩ | ⟨_, _, rfl⟩
  · exact Nat.mod_lt _ (by decide)
  · exact Nat.mod_lt _ (by decide)

/-- `KEY_UP` at `history_fst` and `KEY_DOWN` at `history_lst` do nothing, and recall a row
anywhere else. -/
theorem pressKey_walks {key : Byte} (hkey : key = keyUp ∨ key = keyDown) (s : Tty) :
    (s.historyPtr = (if key = keyUp then s.historyFst else s.historyLst) ∧
        ∃ screen, pressKey key s = { takeKey key s with screen := screen }) ∨
      ∃ r screen, Recalls key s r ∧ pressKey key s = recallRow r screen (takeKey key s) := by
  rcases hkey with rfl | rfl
  · rw [pressKey_of_ne (by decide), handleKey, if_pos rfl, if_pos rfl]
    rcases historyPrevBuf_spec (takeKey keyUp s) with ⟨heq, hends⟩ | ⟨hmoves, screen, heq⟩
    · rw [heq]
      exact Or.inl ⟨hends, _, rfl⟩
    · rw [heq]
      exact Or.inr ⟨_, criticalSectionEnd screen, Or.inl ⟨rfl, hmoves, rfl⟩, rfl⟩
  · rw [pressKey_of_ne (by decide), handleKey, if_neg (by decide), if_pos rfl,
      if_neg (by decide)]
    rcases historyNextBuf_spec (takeKey keyDown s) with ⟨heq, hends⟩ | ⟨hmoves, screen, heq⟩
    · rw [heq]
      exact Or.inl ⟨hends, _, rfl⟩
    · rw [heq]
      exact Or.inr ⟨_, criticalSectionEnd screen, Or.inr ⟨rfl, hmoves, rfl⟩, rfl⟩

/-- What a key makes of the state `s` with the line `l`. -/
inductive Pressed (key : Byte) (s : Tty) (l : Line Byte) : Tty → Prop
  | enter (hkey : key = keyEnter) :
      Pressed key s l { s with hasKeyReady := false, lastKey := key, stopRead := true }
  /-- There is nothing to recall. -/
  | stay (hkey : key = keyUp ∨ key = keyDown) (screen : Screen) :
      Pressed key s l { takeKey key s with screen := screen }
  | recalled {r : Nat} (hrecalls : Recalls key s r) (screen : Screen) :
      Pressed key s l (recallRow r screen (takeKey key s))
  | edit {t : Tty} (henter : key ≠ keyEnter) (hup : key ≠ keyUp) (hdown : key ≠ keyDown)
      (hediting : Editing t (l.apply (keyEdit key)))
      (hedited : Edited (keyEdit key) (takeKey key s) t) :
      Pressed key s l t

theorem pressed (key : Byte) {s : Tty} {l : Line Byte} (h : Editing s l) :
    Pressed key s l (pressKey key s) := by
  by_cases henter : key = keyEnter
  · rw [henter, pressKey_enter]
    exact .enter rfl
  by_cases hwalks : key = keyUp ∨ key = keyDown
  · rcases pressKey_walks hwalks s with ⟨-, screen, heq⟩ | ⟨r, screen, hrecalls, heq⟩
    · rw [heq]
      exact .stay hwalks screen
    · rw [heq]
      exact .recalled hrecalls screen
  · obtain ⟨hup, hdown⟩ := not_or.mp hwalks
    obtain ⟨hediting, hedited⟩ := pressKey_spec henter hup hdown h
    exact .edit henter hup hdown hediting hedited

/-! ## What holds in every session -/

/-- Between two sessions, or before the first. -/
structure Between (s : Tty) : Prop where
  ptr : s.historyPtr < ttyHistorySize
  ends : s.historyFst = minusOne ∧ s.historyLst = minusOne ∨
    s.historyFst < ttyHistorySize ∧ s.historyLst < ttyHistorySize

/-- In the loop of `tty_read`. -/
structure Reading (s : Tty) : Prop where
  historyPtr : s.historyPtr < ttyHistorySize
  fst : s.historyFst < ttyHistorySize
  lst : s.historyLst < ttyHistorySize
  row : ∃ r < ttyHistorySize, s.inputBuf = ttyHistory r
  ptr : s.inputPtr ≤ s.inputLen
  len : s.inputLen < ttyInputSize

/-- The session invariant. -/
def Sound (s : Session) : Prop :=
  match s.reader with
  | none => Between s.tty
  | some _ => Reading s.tty

theorem between_ttyInit (boot : Tty) : Between (ttyInit boot) :=
  ⟨(by decide : 0 < ttyHistorySize), Or.inl ⟨rfl, rfl⟩⟩

/-- The bytes of the buffer are a line. -/
theorem exists_editing {s : Tty} (hptr : s.inputPtr ≤ s.inputLen) : ∃ l, Editing s l := by
  have hlen : ((List.range s.inputLen).map fun i => s.mem.bytes (s.inputBuf + i)).length =
      s.inputLen := by
    rw [List.length_map, List.length_range]
  refine ⟨⟨_, s.inputPtr, hlen.symm ▸ hptr⟩, hlen.symm, rfl, fun i hi => ?_⟩
  rw [List.getElem_map, List.getElem_range]

theorem historyNewBuf_between {s : Tty} (h : Between s) :
    (historyNewBuf s).historyPtr < ttyHistorySize ∧
      (historyNewBuf s).historyFst < ttyHistorySize ∧
      (historyNewBuf s).historyLst < ttyHistorySize := by
  have hmod : ∀ n, n % ttyHistorySize < ttyHistorySize := fun n => Nat.mod_lt _ (by decide)
  rw [historyNewBuf]
  split
  · exact ⟨h.ptr, (by decide : 0 < ttyHistorySize), (by decide : 0 < ttyHistorySize)⟩
  · next hstarted =>
      obtain ⟨hfst, hlst⟩ := h.ends.resolve_left hstarted
      split
      · exact ⟨h.ptr, hfst, hlst⟩
      · have hcommit : (historyCommit s).historyFst = s.historyFst ∧
            (historyCommit s).historyLst < ttyHistorySize := by
          rw [historyCommit]
          split
          · split
            · exact ⟨rfl, hmod _⟩
            · exact ⟨rfl, hlst⟩
          · split
            · exact ⟨rfl, hmod _⟩
            · exact ⟨rfl, hlst⟩
        generalize historyCommit s = t at hcommit
        obtain ⟨hfst', hlst'⟩ := hcommit
        refine ⟨hlst', ?_, hlst'⟩
        rw [historyAdvance]
        split
        · exact hmod _
        · exact hfst'.symm ▸ hfst

theorem Between.read {s : Tty} (h : Between s) : Reading (ttyReadStart s) := by
  obtain ⟨hptr, hfst, hlst⟩ := historyNewBuf_between h
  exact ⟨hptr, hfst, hlst, ⟨_, hlst, rfl⟩, Nat.le_refl _, (by decide : 0 < ttyInputSize)⟩

/-- All but the length of the line, which the loop checks. -/
theorem Reading.press {s : Tty} (h : Reading s) (key : Byte)
    (hreads : (pressKey key s).reads = true) : Reading (pressKey key s) := by
  obtain ⟨l, hl⟩ := exists_editing h.ptr
  have hpressed := pressed key hl
  rw [Tty.reads, Bool.and_eq_true, decide_eq_true_eq] at hreads
  have hlen := hreads.1
  clear hreads
  generalize pressKey key s = t at hpressed hlen
  cases hpressed with
  | enter _ => exact ⟨h.historyPtr, h.fst, h.lst, h.row, h.ptr, hlen⟩
  | stay _ _ => exact ⟨h.historyPtr, h.fst, h.lst, h.row, h.ptr, hlen⟩
  | recalled hrecalls _ =>
      exact ⟨hrecalls.lt, h.fst, h.lst, ⟨_, hrecalls.lt, rfl⟩, Nat.le_refl _, hlen⟩
  | edit _ _ _ hediting hedited =>
      have hfixed := hedited.fixed
      have hptr : t.historyPtr = s.historyPtr := congrArg Fixed.historyPtr hfixed
      have hfst : t.historyFst = s.historyFst := congrArg Fixed.historyFst hfixed
      have hlst : t.historyLst = s.historyLst := congrArg Fixed.historyLst hfixed
      have hbuf : t.inputBuf = s.inputBuf := hedited.inputBuf
      exact ⟨hptr ▸ h.historyPtr, hfst ▸ h.fst, hlst ▸ h.lst, hbuf ▸ h.row, hediting.ptr_le, hlen⟩

/-- The last key, and what is behind the loop. -/
theorem Reading.last {s : Tty} (h : Reading s) (key : Byte) (dest : Nat) :
    Between (ttyReadEnd dest (pressKey key s)) := by
  obtain ⟨l, hl⟩ := exists_editing h.ptr
  have hpressed := pressed key hl
  generalize pressKey key s = t at hpressed
  suffices ht : t.historyPtr < ttyHistorySize ∧ t.historyFst = s.historyFst ∧
      t.historyLst = s.historyLst by
    obtain ⟨hptr, hfst, hlst⟩ := ht
    exact ⟨hptr, Or.inr ⟨hfst ▸ h.fst, hlst ▸ h.lst⟩⟩
  cases hpressed with
  | enter _ => exact ⟨h.historyPtr, rfl, rfl⟩
  | stay _ _ => exact ⟨h.historyPtr, rfl, rfl⟩
  | recalled hrecalls _ => exact ⟨hrecalls.lt, rfl, rfl⟩
  | edit _ _ _ _ hedited =>
      have hptr : t.historyPtr = s.historyPtr := congrArg Fixed.historyPtr hedited.fixed
      exact ⟨hptr ▸ h.historyPtr, congrArg Fixed.historyFst hedited.fixed,
        congrArg Fixed.historyLst hedited.fixed⟩

theorem SessionStep.sound {s t : Session} {event : TtyEvent} (hs : Sound s)
    (hstep : SessionStep s event t) : Sound t := by
  cases hstep with
  | elsewhere _ _ _ _ _ => exact ⟨hs.ptr, hs.ends⟩
  | read dest => exact Between.read hs
  | key hreads => exact Reading.press hs _ hreads
  | @last _ dest _ key _ => exact Reading.last hs key dest.addr

/-- Every state of a run from `tty_init` on. -/
theorem sessionRuns_sound (boot : Tty) {path : List (TtyEvent × Session)}
    (hrun : IsPath SessionStep (sessionStart boot) path) :
    ∀ s ∈ visited (sessionStart boot) path, Sound s :=
  hrun.invariant (fun _ _ _ hs hstep => hstep.sound hs) (between_ttyInit boot)

/-! ## Playing events -/

/-- The main loop handles a key that an interrupt has delivered. -/
def handled (key : Byte) (s : Session) : Session :=
  match s.reader with
  | none => { s with tty := ttyReadKey key s.tty }
  | some dest =>
      let t := pressKey key s.tty
      if t.reads then { s with tty := t }
      else
        let u := ttyReadEnd dest.addr t
        ⟨u, none, stringAt u.mem.bytes dest.addr :: s.submitted⟩

theorem handled_of_reads {key : Byte} {s : Tty} (h : (pressKey key s).reads = true) (dest : Dest)
    (submitted : List (List Byte)) :
    handled key ⟨s, some dest, submitted⟩ = ⟨pressKey key s, some dest, submitted⟩ := if_pos h

theorem handled_of_ends {key : Byte} {s : Tty} (h : (pressKey key s).reads = false) (dest : Dest)
    (submitted : List (List Byte)) :
    handled key ⟨s, some dest, submitted⟩ = ⟨ttyReadEnd dest.addr (pressKey key s), none,
      stringAt (ttyReadEnd dest.addr (pressKey key s)).mem.bytes dest.addr :: submitted⟩ :=
  if_neg (Bool.eq_false_iff.mp h)

/-- The step of an event; the rest of the kernel does nothing. -/
def playEvent : TtyEvent → Session → Session
  | .elsewhere, s => s
  | .read dest, s => ⟨ttyReadStart s.tty, some dest, s.submitted⟩
  | .key key, s => handled key s

/-- Sessions start when none is running, and keys arrive in a session. -/
def playable : TtyEvent → Session → Bool
  | .elsewhere, _ => false
  | .read _, s => s.reader.isNone
  | .key _, s => s.reader.isSome

def play : List TtyEvent → Session → List (TtyEvent × Session)
  | [], _ => []
  | event :: events, s => (event, playEvent event s) :: play events (playEvent event s)

def allPlayable : List TtyEvent → Session → Bool
  | [], _ => true
  | event :: events, s => playable event s && allPlayable events (playEvent event s)

theorem SessionStep.of_playable {event : TtyEvent} {s : Session} (h : playable event s = true) :
    SessionStep s event (playEvent event s) := by
  obtain ⟨s, reader, submitted⟩ := s
  cases event with
  | elsewhere => exact nomatch h
  | read dest =>
      cases reader with
      | none => exact .read dest
      | some d => exact nomatch h
  | key key =>
      cases reader with
      | none => exact nomatch h
      | some dest =>
          rw [playEvent]
          cases hreads : (pressKey key s).reads with
          | true =>
              rw [handled_of_reads hreads]
              exact .key hreads
          | false =>
              rw [handled_of_ends hreads]
              exact .last hreads

theorem isPath_play {events : List TtyEvent} {s : Session} (h : allPlayable events s = true) :
    IsPath SessionStep s (play events s) := by
  induction events generalizing s with
  | nil => trivial
  | cons event events ih =>
      rw [allPlayable, Bool.and_eq_true] at h
      exact ⟨.of_playable h.1, ih h.2⟩

/-- A machine that boots with the cursor in the first cell. -/
def bootTty : Tty where
  screen := ⟨fun _ => 0, 0, 0, 0, 0⟩
  kb := default
  mem := ⟨fun _ => 0, []⟩
  promptPtr := 0
  hasKeyReady := false
  lastKey := 0
  stopRead := false
  inputBuf := 0
  inputPtr := 0
  inputLen := 0
  historyPtr := 0
  historyFst := 0
  historyLst := 0

end DonutOS.Kernel
