import DonutOS.Kernel.TtyRead

set_option autoImplicit false

/-!
# Kernel: where the line editor writes (`kernel/src/tty.c`)

A row of `tty_history` and the array of the caller have `TTY_INPUT_SIZE` bytes, and
the loop of `tty_read` goes on below that length.  A line that reaches it is closed
one byte behind its row.
-/

namespace DonutOS.Kernel

open DonutOS.Foundation DonutOS.Libc

/-- `a` is in the row that starts at `buf`. -/
def InRow (buf a : Nat) : Prop := buf ≤ a ∧ a < buf + ttyInputSize

/-- Every write of a key goes to the row of the line; when it is the last key, so does
the NUL that closes the line, and the copy goes to the array of the caller. -/
structure WritesInside (key : Byte) (s : Tty) (dest : Dest) : Prop where
  row : ∃ r < ttyHistorySize, s.inputBuf = ttyHistory r
  edit : s.mem.Writes (InRow s.inputBuf) (pressKey key s).mem
  close : (pressKey key s).reads = false →
    (pressKey key s).mem.Writes (InRow (pressKey key s).inputBuf) (closeLine (pressKey key s)).mem
  copy : (pressKey key s).reads = false →
    (closeLine (pressKey key s)).mem.Writes (InRow dest.addr)
      (ttyReadEnd dest.addr (pressKey key s)).mem

/-- The property of a step of a run. -/
def StepInside : Session → TtyEvent → Session → Prop
  | ⟨s, some dest, _⟩, .key key, _ => WritesInside key s dest
  | _, _, _ => True

/-- No character is inserted that fills the line. -/
def LineShort : Session → TtyEvent → Prop
  | ⟨s, some _, _⟩, .key key => key ∉ controlKeys → s.inputLen + 1 < ttyInputSize
  | _, _ => True

instance LineShort.decidable : ∀ s event, Decidable (LineShort s event)
  | ⟨s, some _, _⟩, .key key =>
      inferInstanceAs (Decidable (key ∉ controlKeys → s.inputLen + 1 < ttyInputSize))
  | ⟨_, none, _⟩, _ => .isTrue trivial
  | ⟨_, some _, _⟩, .elsewhere => .isTrue trivial
  | ⟨_, some _, _⟩, .read _ => .isTrue trivial

/-! ## The rows of the history -/

/-- The row `r` holds a string of less than `TTY_INPUT_SIZE` bytes. -/
def Ended (mem : Store) (r : Nat) : Prop := ∃ n < ttyInputSize, mem.bytes (ttyHistory r + n) = 0

/-- All rows but that of the line, if there is one, hold strings, and no byte of a row
is a key that has a `case` of its own. -/
structure Tidy (line : Option Nat) (mem : Store) : Prop where
  ended : ∀ r < ttyHistorySize, line ≠ some r → Ended mem r
  plain : ∀ r < ttyHistorySize, ∀ i < ttyInputSize, mem.bytes (ttyHistory r + i) ∉ controlKeys

theorem Ended.string {mem : Store} {r : Nat} (h : Ended mem r) :
    ∃ cs, StrAt mem.bytes (ttyHistory r) cs ∧ cs.length < ttyInputSize := by
  obtain ⟨n, hn, hnul⟩ := h
  obtain ⟨cs, hcs, hlen⟩ := exists_strAt hnul
  exact ⟨cs, hcs, by omega⟩

theorem ended_of_strAt {mem : Store} {r : Nat} {cs : List Byte}
    (h : StrAt mem.bytes (ttyHistory r) cs) (hlen : cs.length < ttyInputSize) : Ended mem r :=
  ⟨cs.length, hlen, h.nul⟩

/-- Different rows do not overlap. -/
theorem not_inRow_of_ne {r r' a : Nat} (hne : r ≠ r') (h : InRow (ttyHistory r) a) :
    ¬ InRow (ttyHistory r') a := by
  simp only [InRow, ttyHistory, ttyInputSize] at h ⊢
  omega

theorem inRow_add {buf i : Nat} (hi : i < ttyInputSize) : InRow buf (buf + i) :=
  ⟨Nat.le_add_right _ _, Nat.add_lt_add_left hi _⟩

/-- Writes in the row of the line leave the other rows as they are. -/
theorem Tidy.write {line : Option Nat} {mem mem' : Store} {r : Nat} (h : Tidy line mem)
    (hline : line = none ∨ line = some r) (hwrites : mem.Writes (InRow (ttyHistory r)) mem')
    (hplain : ∀ i < ttyInputSize, mem'.bytes (ttyHistory r + i) ∉ controlKeys) :
    Tidy (some r) mem' where
  ended := by
    intro r' hr' hne
    have hother : r' ≠ r := fun heq => hne (congrArg some heq.symm)
    have hline' : line ≠ some r' := by
      rcases hline with rfl | rfl
      · exact Option.some_ne_none r' ∘ Eq.symm
      · exact hne
    obtain ⟨n, hn, hnul⟩ := h.ended r' hr' hline'
    refine ⟨n, hn, ?_⟩
    rw [hwrites.frame _ (not_inRow_of_ne hother (inRow_add hn))]
    exact hnul
  plain := by
    intro r' hr' i hi
    by_cases hother : r' = r
    · rw [hother]
      exact hplain i hi
    · rw [hwrites.frame _ (not_inRow_of_ne hother (inRow_add hi))]
      exact h.plain r' hr' i hi

theorem Tidy.close {mem : Store} {r : Nat} (h : Tidy (some r) mem) (hend : Ended mem r) :
    Tidy none mem where
  ended := by
    intro r' hr' _
    by_cases hother : r = r'
    · exact hother ▸ hend
    · exact h.ended r' hr' fun heq => hother (Option.some.inj heq)
  plain := h.plain

theorem Tidy.select {mem : Store} (h : Tidy none mem) (line : Option Nat) : Tidy line mem where
  ended := fun r hr _ => h.ended r hr (Option.some_ne_none r).symm
  plain := h.plain

/-- A NUL in the row of the line makes a string of it. -/
theorem Tidy.putNul {line : Option Nat} {mem : Store} {r n : Nat} (h : Tidy line mem)
    (hr : r < ttyHistorySize) (hline : line = none ∨ line = some r) (hn : n < ttyInputSize) :
    Tidy none (mem.put (ttyHistory r + n) 0) := by
  refine (h.write hline (.put _ _ (inRow_add hn)) fun i hi => ?_).close
    ⟨n, hn, Store.bytes_put_same _ _ _⟩
  rw [Store.bytes_put]
  split
  · decide
  · exact h.plain r hr i hi

/-- Writes behind the history. -/
theorem Tidy.of_behind {line : Option Nat} {mem mem' : Store} (h : Tidy line mem)
    (hwrites : mem.Writes (sizeofTtyHistory ≤ ·) mem') : Tidy line mem' := by
  have hsame : ∀ r < ttyHistorySize, ∀ i < ttyInputSize,
      mem'.bytes (ttyHistory r + i) = mem.bytes (ttyHistory r + i) := by
    intro r hr i hi
    have hin := ttyHistory_le hr
    exact hwrites.frame _ (by omega)
  constructor
  · intro r hr hne
    obtain ⟨n, hn, hnul⟩ := h.ended r hr hne
    exact ⟨n, hn, (hsame r hr n hn).trans hnul⟩
  · intro r hr i hi
    rw [hsame r hr i hi]
    exact h.plain r hr i hi

/-- The three things `__history_new_buf` may do to memory, the first time only the first. -/
theorem historyNewBuf_mem (s : Tty) :
    (historyNewBuf s).mem = s.mem ∨
      ¬ (s.historyFst = minusOne ∧ s.historyLst = minusOne) ∧
        ((historyNewBuf s).mem = s.mem.put (ttyHistory s.historyLst) 0 ∨
          (historyNewBuf s).mem =
            strcpy (ttyHistory s.historyLst) (ttyHistory s.historyPtr) s.mem) := by
  rw [historyNewBuf]
  split
  · exact Or.inl rfl
  · next hstarted =>
      split
      · exact Or.inl rfl
      · change (historyCommit s).mem = _ ∨ _ ∧ ((historyCommit s).mem = _ ∨
          (historyCommit s).mem = _)
        rw [historyCommit]
        split
        · split
          · exact Or.inr ⟨hstarted, Or.inr rfl⟩
          · exact Or.inr ⟨hstarted, Or.inl rfl⟩
        · split
          · exact Or.inr ⟨hstarted, Or.inr rfl⟩
          · exact Or.inl rfl

/-- A string of one row copied to the start of another, or onto itself. -/
theorem Tidy.strcpy {mem : Store} {d r : Nat} (h : Tidy none mem) (hd : d < ttyHistorySize)
    (hr : r < ttyHistorySize) :
    Tidy none (strcpy (ttyHistory d) (ttyHistory r) mem) := by
  obtain ⟨cs, hcs, hlen⟩ := (h.ended r hr (Option.some_ne_none r).symm).string
  have hapart : ttyHistory d ≤ ttyHistory r ∨ ttyHistory r + cs.length < ttyHistory d := by
    simp only [ttyHistory, ttyInputSize] at hlen ⊢
    omega
  have hfuel : cs.length < stringFuel := Nat.lt_trans hlen (by decide)
  obtain ⟨hcopy, hwrites⟩ := strcpy_spec hcs hapart hfuel
  refine (h.write (Or.inl rfl) (hwrites.mono fun a ha => ⟨ha.1, by omega⟩) fun i hi => ?_).close
    (ended_of_strAt hcopy hlen)
  rcases Nat.lt_trichotomy i cs.length with hlt | rfl | hgt
  · rw [hcopy.get hlt, ← hcs.get hlt]
    exact h.plain r hr i hi
  · rw [hcopy.nul]
    decide
  · rw [hwrites.frame _ (by omega)]
    exact h.plain d hd i hi

theorem Tidy.read {s : Tty} (h : Tidy none s.mem) (hs : Between s) :
    Tidy (some (historyNewBuf s).historyLst) (ttyReadStart s).mem := by
  obtain ⟨-, -, hlst⟩ := historyNewBuf_between hs
  have hnew : Tidy none (historyNewBuf s).mem := by
    rcases historyNewBuf_mem s with heq | ⟨hstarted, heq⟩
    · exact heq ▸ h
    · obtain ⟨-, hlst'⟩ := hs.ends.resolve_left hstarted
      rcases heq with heq | heq
      · rw [heq]
        exact h.putNul hlst' (Or.inl rfl) (by decide : 0 < ttyInputSize)
      · rw [heq]
        exact h.strcpy hlst' hs.ptr
  exact (hnew.putNul hlst (Or.inl rfl) (by decide : 0 < ttyInputSize)).select _

/-! ## A key -/

/-- What a key does to the row of the line and to the other rows. -/
structure PressTidy (s t : Tty) : Prop where
  writes : s.mem.Writes (InRow s.inputBuf) t.mem
  row : ∃ r < ttyHistorySize, t.inputBuf = ttyHistory r ∧ Tidy (some r) t.mem

theorem pressKey_tidy (key : Byte) {s : Tty} (hs : Reading s) {r : Nat} (hr : r < ttyHistorySize)
    (hbuf : s.inputBuf = ttyHistory r) (h : Tidy (some r) s.mem) :
    PressTidy s (pressKey key s) := by
  obtain ⟨l, hl⟩ := exists_editing hs.ptr
  have hlen := hs.len
  have hpressed := pressed key hl
  generalize pressKey key s = t at hpressed
  cases hpressed with
  | enter _ => exact ⟨.refl _ _, r, hr, hbuf, h⟩
  | stay _ _ => exact ⟨.refl _ _, r, hr, hbuf, h⟩
  | @recalled r' hrecalls _ =>
      have hput : Tidy none (s.mem.put (s.inputBuf + s.inputLen) 0) := by
        rw [hbuf]
        exact h.putNul hr (Or.inr rfl) hlen
      exact ⟨.put _ _ (inRow_add hlen), r', hrecalls.lt, rfl, hput.select _⟩
  | edit henter hup hdown _ hedited =>
      have hwrites : s.mem.Writes (InRow s.inputBuf) t.mem :=
        hedited.writes.mono fun a ha => ⟨ha.1, Nat.lt_of_le_of_lt ha.2 (Nat.add_lt_add_left hlen _)⟩
      refine ⟨hwrites, r, hr, hedited.inputBuf.trans hbuf, ?_⟩
      refine h.write (Or.inr rfl) (hbuf ▸ hwrites) fun i hi => ?_
      rw [← hbuf]
      by_cases hin : i ≤ s.inputLen
      · rcases hedited.bytes i hin with hinsert | ⟨j, hj, hbyte⟩
        · obtain ⟨hbyte, hplain⟩ := keyEdit_eq_insert henter hup hdown hinsert
          exact fun hmem => hplain (hbyte ▸ hmem)
        · have hold : s.mem.bytes (s.inputBuf + j) ∉ controlKeys := by
            rw [hbuf]
            exact h.plain r hr j (Nat.lt_of_le_of_lt hj hlen)
          exact fun hmem => hold (hbyte ▸ hmem)
      · have hframe : t.mem.bytes (s.inputBuf + i) = s.mem.bytes (s.inputBuf + i) :=
          hedited.writes.frame _ fun ha => hin (Nat.le_of_add_le_add_left ha.2)
        rw [hframe, hbuf]
        exact h.plain r hr i hi

/-- A key that does not fill the line leaves it short. -/
theorem pressKey_short {key : Byte} {s : Tty} (hs : Reading s) {r : Nat} (hr : r < ttyHistorySize)
    (hbuf : s.inputBuf = ttyHistory r) (h : Tidy (some r) s.mem)
    (hshort : key ∉ controlKeys → s.inputLen + 1 < ttyInputSize) :
    (pressKey key s).inputLen < ttyInputSize := by
  obtain ⟨l, hl⟩ := exists_editing hs.ptr
  have hlen := hs.len
  have hpressed := pressed key hl
  generalize pressKey key s = t at hpressed
  cases hpressed with
  | enter _ => exact hlen
  | stay _ _ => exact hlen
  | @recalled r' hrecalls _ =>
      have hput : Tidy none (s.mem.put (s.inputBuf + s.inputLen) 0) := by
        rw [hbuf]
        exact h.putNul hr (Or.inr rfl) hlen
      obtain ⟨cs, hcs, hcslen⟩ := (hput.ended r' hrecalls.lt (Option.some_ne_none r').symm).string
      exact (strlen_eq hcs (Nat.lt_trans hcslen (by decide))).trans_lt hcslen
  | edit henter hup hdown hediting _ =>
      rw [hediting.len]
      by_cases hinserts : ∃ c, keyEdit key = .insert c
      · obtain ⟨c, hc⟩ := hinserts
        rw [hc, Line.length_apply_insert, ← hl.len]
        exact hshort (keyEdit_eq_insert henter hup hdown hc).2
      · have hle := Line.length_apply_le (fun c hc => hinserts ⟨c, hc⟩) l
        rw [← hl.len] at hle
        omega

/-- A character that fills the line ends the loop, and the NUL goes behind the row. -/
theorem pressKey_full {key : Byte} {s : Tty} (hs : Reading s) (hkey : key ∉ controlKeys)
    (hfull : s.inputLen + 1 = ttyInputSize) :
    (pressKey key s).reads = false ∧
      (pressKey key s).inputBuf + (pressKey key s).inputLen = s.inputBuf + ttyInputSize ∧
      (pressKey key s).inputBuf = s.inputBuf := by
  obtain ⟨l, hl⟩ := exists_editing hs.ptr
  have henter : key ≠ keyEnter := fun heq => hkey (heq ▸ by decide)
  have hup : key ≠ keyUp := fun heq => hkey (heq ▸ by decide)
  have hdown : key ≠ keyDown := fun heq => hkey (heq ▸ by decide)
  obtain ⟨hediting, hedited⟩ := pressKey_spec henter hup hdown hl
  have hbuf : (pressKey key s).inputBuf = s.inputBuf := hedited.inputBuf
  have hlen : (pressKey key s).inputLen = ttyInputSize := by
    rw [hediting.len, keyEdit_of_inserted hkey, Line.length_apply_insert, ← hl.len, hfull]
  refine ⟨?_, by rw [hbuf, hlen], hbuf⟩
  rw [Tty.reads, hlen]
  rfl

theorem not_writesInside_of_full {key : Byte} {s : Tty} (hs : Reading s)
    (hkey : key ∉ controlKeys) (hfull : s.inputLen + 1 = ttyInputSize) (dest : Dest) :
    ¬ WritesInside key s dest := by
  intro hinside
  obtain ⟨hends, hend, hbuf⟩ := pressKey_full hs hkey hfull
  refine Store.Writes.not_of_put ?_ (hinside.close hends)
  rw [hend, hbuf]
  exact fun hin => Nat.lt_irrefl _ hin.2

/-! ## Runs -/

/-- In a session all rows but that of the line hold strings, between sessions all do. -/
def TidySession (s : Session) : Prop :=
  Sound s ∧ match s.reader with
    | none => Tidy none s.tty.mem
    | some _ => ∃ r < ttyHistorySize, s.tty.inputBuf = ttyHistory r ∧ Tidy (some r) s.tty.mem

/-- `tty_history` is zero at boot. -/
def HistoryZero (boot : Tty) : Prop := ∀ a < sizeofTtyHistory, boot.mem.bytes a = 0

theorem tidySession_start {boot : Tty} (hboot : HistoryZero boot) :
    TidySession (sessionStart boot) := by
  have hzero : ∀ r < ttyHistorySize, ∀ i < ttyInputSize,
      boot.mem.bytes (ttyHistory r + i) = 0 := by
    intro r hr i hi
    have hin := ttyHistory_le hr
    exact hboot _ (by omega)
  refine ⟨between_ttyInit boot, ⟨fun r hr _ => ⟨0, by decide, hzero r hr 0 (by decide)⟩, ?_⟩⟩
  intro r hr i hi
  change boot.mem.bytes (ttyHistory r + i) ∉ controlKeys
  rw [hzero r hr i hi]
  decide

/-- A key that is the last one. -/
theorem PressTidy.last {s t : Tty} (h : PressTidy s t) (hlen : t.inputLen < ttyInputSize)
    (dest : Dest) :
    Tidy none (ttyReadEnd dest.addr t).mem ∧
      t.mem.Writes (InRow t.inputBuf) (closeLine t).mem ∧
      (closeLine t).mem.Writes (InRow dest.addr) (ttyReadEnd dest.addr t).mem := by
  obtain ⟨r, hr, hbuf, htidy⟩ := h.row
  have hapart := dest.apart
  have hcopy := (copyLine_copied ⟨r, hr, hbuf⟩ hlen dest).writes
  have hclosed : Tidy none (closeLine t).mem := by
    have hput := htidy.putNul hr (Or.inr rfl) hlen
    rwa [← hbuf] at hput
  refine ⟨hclosed.of_behind (hcopy.mono fun a ha => ?_), .put _ _ (inRow_add hlen),
    hcopy.mono fun a ha => ⟨ha.1, ?_⟩⟩
  · exact Nat.le_trans hapart ha.1
  · omega

/-- A key of a session writes inside exactly when it does not fill the line. -/
theorem pressKey_inside_iff {s : Tty} (hs : Reading s) {r : Nat} (hr : r < ttyHistorySize)
    (hbuf : s.inputBuf = ttyHistory r) (h : Tidy (some r) s.mem) (key : Byte) (dest : Dest) :
    WritesInside key s dest ↔ (key ∉ controlKeys → s.inputLen + 1 < ttyInputSize) := by
  constructor
  · intro hinside hkey
    by_contra hfull
    have hlen := hs.len
    exact not_writesInside_of_full hs hkey (by omega) dest hinside
  · intro hshort
    have htidy := pressKey_tidy key hs hr hbuf h
    obtain ⟨-, hclose, hcopy⟩ := htidy.last (pressKey_short hs hr hbuf h hshort) dest
    exact ⟨⟨r, hr, hbuf⟩, htidy.writes, fun _ => hclose, fun _ => hcopy⟩

theorem SessionStep.inside_iff {s t : Session} {event : TtyEvent} (hs : TidySession s)
    (hstep : SessionStep s event t) :
    (StepInside s event t ↔ LineShort s event) ∧ (LineShort s event → TidySession t) := by
  have hsound := hstep.sound hs.1
  cases hstep with
  | elsewhere _ _ _ _ hmem => exact ⟨Iff.rfl, fun _ => ⟨hsound, hs.2.of_behind hmem⟩⟩
  | read dest =>
      obtain ⟨-, -, hlst⟩ := historyNewBuf_between hs.1
      exact ⟨Iff.rfl, fun _ => ⟨hsound, _, hlst, rfl, hs.2.read hs.1⟩⟩
  | key _ =>
      obtain ⟨hreading, r, hr, hbuf, htidy⟩ := hs
      refine ⟨pressKey_inside_iff hreading hr hbuf htidy _ _, fun _ => ⟨hsound, ?_⟩⟩
      exact (pressKey_tidy _ hreading hr hbuf htidy).row
  | @last _ dest _ _ _ =>
      obtain ⟨hreading, r, hr, hbuf, htidy⟩ := hs
      refine ⟨pressKey_inside_iff hreading hr hbuf htidy _ _, fun hshort => ⟨hsound, ?_⟩⟩
      have hlen := pressKey_short hreading hr hbuf htidy hshort
      exact ((pressKey_tidy _ hreading hr hbuf htidy).last hlen dest).1

/-- In a run from boot, every key writes inside the row of the line and the array of
the caller exactly when no character fills a line. -/
theorem sessionRuns_inside_iff {boot : Tty} (hboot : HistoryZero boot)
    {path : List (TtyEvent × Session)} (hrun : IsPath SessionStep (sessionStart boot) path) :
    IsPath StepInside (sessionStart boot) path ↔ StepsMeet LineShort (sessionStart boot) path :=
  hrun.steps_iff_of_ok (fun _ _ _ hs hstep => hstep.inside_iff hs) (tidySession_start hboot)

/-- The array `str` of `tty_prompt`. -/
def promptDest : Dest := ⟨8192, Nat.le_refl _⟩

/-- An `a` in the first session. -/
theorem sessionRuns_inside_iff_typed :
    IsPath StepInside (sessionStart bootTty)
      [(.read promptDest, ⟨ttyReadStart (ttyInit bootTty), some promptDest, []⟩),
        (.key 0x61, ⟨pressKey 0x61 (ttyReadStart (ttyInit bootTty)), some promptDest, []⟩)] := by
  have hrun : IsPath SessionStep (sessionStart bootTty)
      [(.read promptDest, ⟨ttyReadStart (ttyInit bootTty), some promptDest, []⟩),
        (.key 0x61, ⟨pressKey 0x61 (ttyReadStart (ttyInit bootTty)), some promptDest, []⟩)] :=
    ⟨.read promptDest, .key rfl, trivial⟩
  have hzero : HistoryZero bootTty := fun _ _ => rfl
  exact (sessionRuns_inside_iff hzero hrun).mpr
    ⟨trivial, fun _ => (by decide : 0 + 1 < ttyInputSize), trivial⟩

/-- `a` typed 512 times in the first session. -/
theorem sessionRuns_full_line :
    HistoryZero bootTty ∧ ∃ path, IsPath SessionStep (sessionStart bootTty) path ∧
      ¬ IsPath StepInside (sessionStart bootTty) path := by
  have hboot : Between (ttyInit bootTty) := between_ttyInit bootTty
  obtain ⟨cs, hcs, hcslen⟩ : ∃ cs : List Byte, (∀ c ∈ cs, c ∉ controlKeys) ∧ cs.length = 511 := by
    refine ⟨List.replicate 511 0x61, fun c hc => ?_, List.length_replicate⟩
    rw [List.eq_of_mem_replicate hc]
    decide
  have hshort : cs.length < ttyInputSize := by
    rw [hcslen]
    decide
  have hreads : ∀ typed, typed <+: cs →
      (pressKeys typed (ttyReadStart (ttyInit bootTty))).reads = true := by
    intro typed htyped
    obtain ⟨-, hreads, -⟩ := pressKeys_typed (fun c hc => hcs c (htyped.subset hc))
      (Nat.lt_of_le_of_lt htyped.length_le hshort) hboot
    exact hreads
  obtain ⟨path, hpath, hend⟩ := pressKeys_path hreads promptDest []
  obtain ⟨hreading, -, l, hl, htext⟩ := pressKeys_typed hcs hshort hboot
  generalize pressKeys cs (ttyReadStart (ttyInit bootTty)) = t at hend hreading hl
  have hfull : t.inputLen + 1 = ttyInputSize := by
    rw [hl.len, htext, hcslen]
    rfl
  have hkey : (0x61 : Byte) ∉ controlKeys := by decide
  obtain ⟨hends, -⟩ := pressKey_full hreading hkey hfull
  refine ⟨fun _ _ => rfl, (.read promptDest, ⟨ttyReadStart (ttyInit bootTty), some promptDest, []⟩)
    :: (path ++ [(.key 0x61, ⟨ttyReadEnd promptDest.addr (pressKey 0x61 t), none,
      [stringAt (ttyReadEnd promptDest.addr (pressKey 0x61 t)).mem.bytes promptDest.addr]⟩)]),
    ?_, ?_⟩
  · rw [isPath_cons, isPath_append, hend]
    exact ⟨.read promptDest, hpath, .last hends, trivial⟩
  · rw [isPath_cons, isPath_append, hend]
    rintro ⟨-, -, hinside, -⟩
    exact not_writesInside_of_full hreading hkey hfull promptDest hinside

end DonutOS.Kernel
