import DonutOS.Foundation.RingBuffer
import DonutOS.Kernel.TtyBounds

set_option autoImplicit false

/-!
# Kernel: the history of the shell (`kernel/src/tty.c`)

`tty_history` is a log of the submitted lines, and the row behind the newest one is
the buffer of the line that is typed.  A recalled line is edited in its own row.
-/

namespace DonutOS.Kernel

open DonutOS.Foundation DonutOS.Libc

/-! ## The log -/

/-- What a history of unbounded size records of the submitted lines, which come with the
last one first: no empty line, and no line that is the newest one already. -/
def recorded : List (List Byte) → List (List Byte)
  | [] => []
  | line :: earlier =>
      if line = [] ∨ (recorded earlier).head? = some line then recorded earlier
      else line :: recorded earlier

/-- The part of it that the history has room for. -/
def recent (submitted : List (List Byte)) : List (List Byte) :=
  (recorded submitted).take (ttyHistorySize - 1)

/-- The row `r` holds a line. -/
structure RowHolds (mem : Store) (r : Nat) (line : List Byte) : Prop where
  string : StrAt mem.bytes (ttyHistory r) line
  nonempty : line ≠ []
  short : line.length < ttyInputSize

/-- The rows from `history_lst - 1` back to `history_fst` hold the lines, newest first. -/
structure HistoryShows (s : Tty) (lines : List (List Byte)) : Prop where
  oldest : s.historyFst = slotBefore ttyHistorySize s.historyLst lines.length
  rows : RingHolds ttyHistorySize (RowHolds s.mem) s.historyLst lines

/-- The key changes the text of the line. -/
def ChangesText (key : Byte) (s : Tty) : Prop :=
  key ∉ controlKeys ∨ key = keyBackspace ∧ 0 < s.inputPtr ∨
    key = keyDelete ∧ s.inputPtr < s.inputLen

/-- No line is filled, and no recalled line is changed. -/
def KeepsRecords : Session → TtyEvent → Prop
  | ⟨s, some _, _⟩, .key key =>
      (key ∉ controlKeys → s.inputLen + 1 < ttyInputSize) ∧
        (s.historyPtr ≠ s.historyLst → ¬ ChangesText key s)
  | _, _ => True

instance ChangesText.decidable (key : Byte) (s : Tty) : Decidable (ChangesText key s) :=
  inferInstanceAs (Decidable (_ ∨ _ ∨ _))

instance KeepsRecords.decidable : ∀ s event, Decidable (KeepsRecords s event)
  | ⟨s, some _, _⟩, .key key => inferInstanceAs (Decidable (
      (key ∉ controlKeys → s.inputLen + 1 < ttyInputSize) ∧
        (s.historyPtr ≠ s.historyLst → ¬ ChangesText key s)))
  | ⟨_, none, _⟩, _ => .isTrue trivial
  | ⟨_, some _, _⟩, .elsewhere => .isTrue trivial
  | ⟨_, some _, _⟩, .read _ => .isTrue trivial

/-- In a session the history shows the log of the lines submitted before it. -/
def LogShown (s : Session) : Prop :=
  s.reader ≠ none → HistoryShows s.tty (recent s.submitted)

theorem recent_length_lt (submitted : List (List Byte)) :
    (recent submitted).length < ttyHistorySize := by
  unfold recent
  rw [List.length_take]
  have hsize : ttyHistorySize - 1 < ttyHistorySize := by decide
  omega

theorem recorded_new {line : List Byte} {earlier : List (List Byte)} (hne : line ≠ [])
    (hnew : (recorded earlier).head? ≠ some line) :
    recorded (line :: earlier) = line :: recorded earlier := if_neg (not_or.mpr ⟨hne, hnew⟩)

theorem recent_of_recorded {line : List Byte} {earlier : List (List Byte)}
    (hne : line ≠ []) (hnew : (recorded earlier).head? ≠ some line) :
    recent (line :: earlier) = (line :: recent earlier).take (ttyHistorySize - 1) := by
  have hrecord := recorded_new hne hnew
  have hsize : ttyHistorySize - 1 = 14 + 1 := rfl
  unfold recent
  rw [hrecord, hsize, List.take_succ_cons, List.take_succ_cons, List.take_take]
  rfl

theorem recent_of_skipped {line : List Byte} {earlier : List (List Byte)}
    (h : line = [] ∨ (recorded earlier).head? = some line) :
    recorded (line :: earlier) = recorded earlier ∧ recent (line :: earlier) = recent earlier := by
  have hskip : recorded (line :: earlier) = recorded earlier := if_pos h
  exact ⟨hskip, congrArg (List.take (ttyHistorySize - 1)) hskip⟩

theorem head?_recent (earlier : List (List Byte)) :
    (recent earlier).head? = (recorded earlier).head? := by
  unfold recent
  cases recorded earlier with
  | nil => rfl
  | cons line lines => rfl

/-! ## Rows that stay as they are -/

theorem RowHolds.congr {mem mem' : Store} {r : Nat} {line : List Byte} (h : RowHolds mem r line)
    (hsame : ∀ i < ttyInputSize, mem'.bytes (ttyHistory r + i) = mem.bytes (ttyHistory r + i)) :
    RowHolds mem' r line where
  string := by
    refine h.string.congr fun b hlo hhi => ?_
    obtain ⟨i, rfl⟩ : ∃ i, b = ttyHistory r + i := ⟨b - ttyHistory r, by omega⟩
    have hshort := h.short
    exact hsame i (by omega)
  nonempty := h.nonempty
  short := h.short

/-- Nothing but the row behind the newest line is written. -/
theorem HistoryShows.of_writes {s t : Tty} {lines : List (List Byte)} (h : HistoryShows s lines)
    (hlines : lines.length < ttyHistorySize) (hlst : s.historyLst < ttyHistorySize)
    (hfst' : t.historyFst = s.historyFst) (hlst' : t.historyLst = s.historyLst)
    (hwrites : s.mem.Writes (InRow (ttyHistory s.historyLst)) t.mem) : HistoryShows t lines where
  oldest := by
    rw [hfst', hlst']
    exact h.oldest
  rows := by
    rw [hlst']
    refine h.rows.congr hlst hlines fun r _ hne line hrow => hrow.congr fun i hi => ?_
    exact hwrites.frame _ (not_inRow_of_ne hne (inRow_add hi))

/-- No row is changed. -/
theorem HistoryShows.of_same {s t : Tty} {lines : List (List Byte)} (h : HistoryShows s lines)
    (hlines : lines.length < ttyHistorySize) (hlst : s.historyLst < ttyHistorySize)
    (hfst' : t.historyFst = s.historyFst) (hlst' : t.historyLst = s.historyLst)
    (hsame : ∀ r < ttyHistorySize, ∀ i < ttyInputSize,
      t.mem.bytes (ttyHistory r + i) = s.mem.bytes (ttyHistory r + i)) : HistoryShows t lines where
  oldest := by
    rw [hfst', hlst']
    exact h.oldest
  rows := by
    rw [hlst']
    exact h.rows.congr hlst hlines fun r hr _ line hrow => hrow.congr (hsame r hr)

/-! ## The start of a session -/

/-- Where the editor stands: on the row behind the newest line, or on a recorded line,
which it has not changed. -/
structure Browsing (s : Tty) (lines : List (List Byte)) (k : Nat) : Prop where
  le : k ≤ lines.length
  row : s.historyPtr = slotBefore ttyHistorySize s.historyLst k
  left : 0 < k → Ended s.mem s.historyLst

/-- Nothing is recorded so far, and the row before the first one is empty. -/
def Fresh (s : Tty) (submitted : List (List Byte)) : Prop :=
  recorded submitted = [] →
    s.historyLst = 0 ∧ s.mem.bytes (ttyHistory (ttyHistorySize - 1)) = 0

/-- Between two sessions: the last line is not recorded yet. -/
structure Submitted (s : Tty) (line : List Byte) (earlier : List (List Byte)) : Prop where
  fst : s.historyFst < ttyHistorySize
  lst : s.historyLst < ttyHistorySize
  shows : HistoryShows s (recent earlier)
  browsing : ∃ k, Browsing s (recent earlier) k
  holds : StrAt s.mem.bytes (ttyHistory s.historyPtr) line
  short : line.length < ttyInputSize
  fresh : Fresh s earlier

/-- `__history_new_buf` has recorded it. -/
structure Committed (s : Tty) (submitted : List (List Byte)) : Prop where
  lst : s.historyLst < ttyHistorySize
  ptr : s.historyPtr = s.historyLst
  shows : HistoryShows s (recent submitted)
  fresh : Fresh s submitted

theorem Submitted.ptr_lt {s : Tty} {line : List Byte} {earlier : List (List Byte)}
    (h : Submitted s line earlier) : s.historyPtr < ttyHistorySize := by
  obtain ⟨k, hk⟩ := h.browsing
  rw [hk.row]
  exact slotBefore_lt (by decide) _ _

/-- The row before the next one holds the newest line, or nothing. -/
theorem Submitted.newest {s : Tty} {line : List Byte} {earlier : List (List Byte)}
    (h : Submitted s line earlier) :
    ∃ newest, StrAt s.mem.bytes (ttyHistory
        ((s.historyLst + minusOne) % 2 ^ 32 % ttyHistorySize)) newest ∧
      newest = (recorded earlier).head?.getD [] := by
  have hlst := h.lst
  have hslot : (s.historyLst + minusOne) % 2 ^ 32 % ttyHistorySize =
      slotBefore ttyHistorySize s.historyLst 1 := by
    simp only [minusOne, ttyHistorySize, slotBefore] at hlst ⊢
    omega
  refine ⟨_, ?_, rfl⟩
  rw [hslot, ← head?_recent]
  cases hlines : recent earlier with
  | nil =>
      have hnone : recorded earlier = [] := by
        have hhead := head?_recent earlier
        rw [hlines] at hhead
        exact List.head?_eq_none_iff.mp hhead.symm
      obtain ⟨hzero, hnul⟩ := h.fresh hnone
      rw [hzero]
      exact hnul
  | cons newest rest =>
      have hpos : 0 < (recent earlier).length := by
        rw [hlines]
        exact Nat.succ_pos _
      have hrow := h.shows.rows 0 hpos
      have hget : (recent earlier)[0] = newest := by
        simp only [hlines, List.getElem_cons_zero]
      rw [hget] at hrow
      exact hrow.string

/-- A line that is the newest one already is not recorded again. -/
theorem historyCommit_skip {s : Tty}
    (hsame : strcmp s.mem.bytes (ttyHistory s.historyPtr)
      (ttyHistory ((s.historyLst + minusOne) % 2 ^ 32 % ttyHistorySize)) = 0) :
    (historyCommit s).historyFst = s.historyFst ∧ (historyCommit s).historyLst = s.historyLst ∧
      s.mem.Writes (InRow (ttyHistory s.historyLst)) (historyCommit s).mem := by
  rw [historyCommit, hsame]
  split
  · rw [if_neg (not_not.mpr rfl)]
    exact ⟨rfl, rfl, .put _ _ (inRow_add (by decide : 0 < ttyInputSize))⟩
  · rw [if_neg (not_not.mpr rfl)]
    exact ⟨rfl, rfl, .refl _ _⟩

/-- Any other line is copied to the row behind the newest one. -/
theorem historyCommit_record {s : Tty}
    (hother : strcmp s.mem.bytes (ttyHistory s.historyPtr)
      (ttyHistory ((s.historyLst + minusOne) % 2 ^ 32 % ttyHistorySize)) ≠ 0) :
    historyCommit s = { s with
      mem := strcpy (ttyHistory s.historyLst) (ttyHistory s.historyPtr) s.mem
      historyLst := (s.historyLst + 1) % ttyHistorySize } := by
  unfold historyCommit
  simp only [if_pos hother, ite_self]

theorem historyNewBuf_of_empty {s : Tty} (hfst : s.historyFst < ttyHistorySize)
    (hempty : s.mem.bytes (ttyHistory s.historyPtr) = 0) : historyNewBuf s = s := by
  have hstarted : ¬ (s.historyFst = minusOne ∧ s.historyLst = minusOne) := by
    rintro ⟨hnone, _⟩
    rw [hnone] at hfst
    exact absurd hfst (by decide)
  rw [historyNewBuf, if_neg hstarted, if_pos hempty]

theorem historyNewBuf_of_line {s : Tty} (hfst : s.historyFst < ttyHistorySize)
    (hline : s.mem.bytes (ttyHistory s.historyPtr) ≠ 0) :
    historyNewBuf s = historyAdvance (historyCommit s) := by
  have hstarted : ¬ (s.historyFst = minusOne ∧ s.historyLst = minusOne) := by
    rintro ⟨hnone, _⟩
    rw [hnone] at hfst
    exact absurd hfst (by decide)
  rw [historyNewBuf, if_neg hstarted, if_neg hline]

/-- A line that is the newest one already, in a history that has one: only `history_ptr`
goes back. -/
theorem historyAdvance_skip {s : Tty} {n : Nat} (hlst : s.historyLst < ttyHistorySize)
    (hpos : 0 < n) (hn : n < ttyHistorySize)
    (hfst : s.historyFst = slotBefore ttyHistorySize s.historyLst n)
    (hsame : strcmp s.mem.bytes (ttyHistory s.historyPtr)
      (ttyHistory ((s.historyLst + minusOne) % 2 ^ 32 % ttyHistorySize)) = 0) :
    (historyAdvance (historyCommit s)).historyFst = s.historyFst ∧
      (historyAdvance (historyCommit s)).historyLst = s.historyLst ∧
      (historyAdvance (historyCommit s)).historyPtr = s.historyLst ∧
      s.mem.Writes (InRow (ttyHistory s.historyLst)) (historyAdvance (historyCommit s)).mem := by
  obtain ⟨hfst', hlst', hwrites⟩ := historyCommit_skip hsame
  generalize historyCommit s = t at hfst' hlst' hwrites
  have hroom : t.historyFst ≠ t.historyLst := by
    rw [hfst', hlst', hfst]
    exact slotBefore_ne hlst hpos hn
  exact ⟨(if_neg hroom).trans hfst', hlst', hlst', hwrites⟩

/-- Any other line goes to the row `history_lst`, and a full ring gives up its oldest. -/
theorem historyAdvance_record {s : Tty} {n : Nat} (hlst : s.historyLst < ttyHistorySize)
    (hn : n < ttyHistorySize) (hfst : s.historyFst = slotBefore ttyHistorySize s.historyLst n)
    (hother : strcmp s.mem.bytes (ttyHistory s.historyPtr)
      (ttyHistory ((s.historyLst + minusOne) % 2 ^ 32 % ttyHistorySize)) ≠ 0) :
    historyAdvance (historyCommit s) = { s with
      mem := strcpy (ttyHistory s.historyLst) (ttyHistory s.historyPtr) s.mem
      historyLst := (s.historyLst + 1) % ttyHistorySize
      historyFst := slotBefore ttyHistorySize ((s.historyLst + 1) % ttyHistorySize)
        (min (ttyHistorySize - 1) (n + 1))
      historyPtr := (s.historyLst + 1) % ttyHistorySize } := by
  rw [historyCommit_record hother, historyAdvance, ← slotBefore_advance hlst hn, ← hfst]

/-- An empty line was typed behind the newest one: a recorded line is not empty. -/
theorem Submitted.commit_empty {s : Tty} {earlier : List (List Byte)}
    (h : Submitted s [] earlier) : Committed (historyNewBuf s) ([] :: earlier) := by
  obtain ⟨hskip, hrecent⟩ := recent_of_skipped (Or.inl rfl : ([] : List Byte) = [] ∨ _)
  rw [historyNewBuf_of_empty h.fst h.holds]
  obtain ⟨k, hle, hrow, -⟩ := h.browsing
  refine ⟨h.lst, ?_, hrecent.symm ▸ h.shows, fun hnone => h.fresh (hskip.symm.trans hnone)⟩
  cases k with
  | zero => rw [hrow, slotBefore_zero h.lst]
  | succ i =>
      have hrecorded := h.shows.rows i hle
      rw [← hrow] at hrecorded
      exact absurd (hrecorded.string.unique h.holds) hrecorded.nonempty

/-- A line that was submitted twice in a row. -/
theorem Submitted.commit_again {s : Tty} {line : List Byte} {earlier : List (List Byte)}
    (h : Submitted s line earlier) (hne : line ≠ [])
    (hagain : (recorded earlier).head? = some line) :
    Committed (historyNewBuf s) (line :: earlier) := by
  obtain ⟨hskip, hrecent⟩ := recent_of_skipped (Or.inr hagain : line = [] ∨ _)
  have hlines := recent_length_lt earlier
  have hsome : recent earlier ≠ [] := by
    intro hnil
    rw [← head?_recent, hnil] at hagain
    exact nomatch hagain
  obtain ⟨newest, hnewest, heq⟩ := h.newest
  rw [hagain, Option.getD_some] at heq
  have hsame := (strcmp_eq_zero_iff h.holds hnewest (Nat.lt_trans h.short (by decide))).mpr heq.symm
  obtain ⟨hfst, hlst, hptr, hwrites⟩ :=
    historyAdvance_skip h.lst (List.length_pos_of_ne_nil hsome) hlines h.shows.oldest hsame
  rw [historyNewBuf_of_line h.fst (h.holds.head_ne hne)]
  refine ⟨hlst ▸ h.lst, hptr.trans hlst.symm, ?_, fun hnone => ?_⟩
  · rw [hrecent]
    exact h.shows.of_writes hlines h.lst hfst hlst hwrites
  · rw [hskip] at hnone
    rw [hnone] at hagain
    exact nomatch hagain

/-- Any other line becomes the newest one; a full ring gives up its oldest. -/
theorem Submitted.commit_new {s : Tty} {line : List Byte} {earlier : List (List Byte)}
    (h : Submitted s line earlier) (hne : line ≠ [])
    (hnew : (recorded earlier).head? ≠ some line) :
    Committed (historyNewBuf s) (line :: earlier) := by
  have hlst := h.lst
  have hlines := recent_length_lt earlier
  obtain ⟨newest, hnewest, heq⟩ := h.newest
  have hother : strcmp s.mem.bytes (ttyHistory s.historyPtr)
      (ttyHistory ((s.historyLst + minusOne) % 2 ^ 32 % ttyHistorySize)) ≠ 0 := by
    intro hsame
    have hline := (strcmp_eq_zero_iff h.holds hnewest (Nat.lt_trans h.short (by decide))).mp hsame
    rw [← hline] at heq
    cases hhead : (recorded earlier).head? with
    | none =>
        rw [hhead] at heq
        exact hne heq
    | some first =>
        rw [hhead] at heq
        exact hnew (hhead.trans (congrArg some heq.symm))
  have hapart : ttyHistory s.historyLst ≤ ttyHistory s.historyPtr ∨
      ttyHistory s.historyPtr + line.length < ttyHistory s.historyLst := by
    have hshort := h.short
    simp only [ttyHistory, ttyInputSize] at hshort ⊢
    omega
  obtain ⟨hcopy, hwrites⟩ := strcpy_spec h.holds hapart (Nat.lt_trans h.short (by decide))
  rw [historyNewBuf_of_line h.fst (h.holds.head_ne hne),
    historyAdvance_record hlst hlines h.shows.oldest hother]
  generalize strcpy (ttyHistory s.historyLst) (ttyHistory s.historyPtr) s.mem = mem at hcopy hwrites
  have hrows : RingHolds ttyHistorySize (RowHolds mem) ((s.historyLst + 1) % ttyHistorySize)
      (recent (line :: earlier)) := by
    rw [recent_of_recorded hne hnew]
    refine h.shows.rows.push hlst (Nat.sub_le _ _) ⟨hcopy, hne, h.short⟩ ?_
    intro r _ hother line' hrow
    refine hrow.congr fun i hi => hwrites.frame _ fun hin => ?_
    have hshort := h.short
    exact not_inRow_of_ne hother (inRow_add hi) ⟨hin.1, by omega⟩
  refine ⟨Nat.mod_lt _ (by decide), rfl, ⟨?_, hrows⟩, fun hnone => ?_⟩
  · have hcount : (recent (line :: earlier)).length =
        min (ttyHistorySize - 1) ((recent earlier).length + 1) := by
      rw [recent_of_recorded hne hnew, List.length_take, List.length_cons]
    rw [hcount]
  · rw [recorded_new hne hnew] at hnone
    cases hnone

theorem Submitted.commit {s : Tty} {line : List Byte} {earlier : List (List Byte)}
    (h : Submitted s line earlier) : Committed (historyNewBuf s) (line :: earlier) := by
  by_cases hne : line = []
  · subst hne
    exact h.commit_empty
  · by_cases hagain : (recorded earlier).head? = some line
    · exact h.commit_again hne hagain
    · exact h.commit_new hne hagain

/-! ## The keys of a session -/

/-- In a session: the history shows the log, and the editor stands on a row of it or on
the row behind it. -/
structure Logged (s : Tty) (submitted : List (List Byte)) : Prop where
  shows : HistoryShows s (recent submitted)
  buf : s.inputBuf = ttyHistory s.historyPtr
  browsing : ∃ k, Browsing s (recent submitted) k ∧
    ∀ i (hi : i < (recent submitted).length), k = i + 1 →
      s.inputLen = (recent submitted)[i].length
  fresh : Fresh s submitted

theorem Committed.read {s : Tty} {submitted : List (List Byte)}
    (h : Committed (historyNewBuf s) submitted) : Logged (ttyReadStart s) submitted := by
  have hzero : 0 < ttyInputSize := by decide
  have hlines := recent_length_lt submitted
  obtain ⟨hlst, hptr, hshows, hfresh⟩ := h
  unfold ttyReadStart
  generalize historyNewBuf s = t at hlst hptr hshows hfresh
  refine ⟨?_, congrArg ttyHistory hptr.symm, ⟨0, ⟨Nat.zero_le _, ?_, ?_⟩, ?_⟩, fun hnone => ?_⟩
  · exact hshows.of_writes hlines hlst rfl rfl (.put _ _ (inRow_add hzero))
  · exact hptr.trans (slotBefore_zero hlst).symm
  · exact fun hpos => absurd hpos (Nat.lt_irrefl 0)
  · exact fun i _ hi => nomatch hi
  · obtain ⟨hfirst, hnul⟩ := hfresh hnone
    refine ⟨hfirst, ?_⟩
    change (t.mem.put (ttyHistory t.historyLst) 0).bytes _ = 0
    rw [hfirst, Store.bytes_put_of_ne _ _ (by decide)]
    exact hnul

/-- The handlers that leave the text alone leave memory alone. -/
theorem handleKey_keeps {key : Byte} {s : Tty} (henter : key ≠ keyEnter) (hup : key ≠ keyUp)
    (hdown : key ≠ keyDown) (hkeeps : ¬ ChangesText key s) :
    (handleKey key s).mem = s.mem ∧ (handleKey key s).inputLen = s.inputLen := by
  rw [ChangesText, not_or, not_or] at hkeeps
  obtain ⟨hcontrol, hbackspace, hdelete⟩ := hkeeps
  rw [handleKey, if_neg hup, if_neg hdown]
  split
  · rw [handleLeft]
    split
    · exact ⟨rfl, rfl⟩
    · exact ⟨rfl, rfl⟩
  split
  · rw [handleRight]
    split
    · exact ⟨rfl, rfl⟩
    · exact ⟨rfl, rfl⟩
  split
  · rw [handleHome]
    exact ⟨rfl, rfl⟩
  split
  · rw [handleEnd]
    exact ⟨rfl, rfl⟩
  split
  · next hkey =>
      rw [handleBackspace, if_neg fun hin => hbackspace ⟨hkey, hin.2⟩]
      exact ⟨rfl, rfl⟩
  split
  · next hkey =>
      rw [handleDelete, if_neg fun hin => hdelete ⟨hkey, hin.2⟩]
      exact ⟨rfl, rfl⟩
  · next hleft hright hhome hend hback hdel =>
      refine absurd (fun hmem => ?_) hcontrol
      simp only [controlKeys, List.mem_cons, List.not_mem_nil, or_false] at hmem
      rcases hmem with h | h | h | h | h | h | h | h | h
      all_goals contradiction

theorem pressKey_keeps {key : Byte} {s : Tty} (henter : key ≠ keyEnter) (hup : key ≠ keyUp)
    (hdown : key ≠ keyDown) (hkeeps : ¬ ChangesText key s) :
    (pressKey key s).mem = s.mem ∧ (pressKey key s).inputLen = s.inputLen := by
  have htaken : ¬ ChangesText key (takeKey key s) := hkeeps
  obtain ⟨hmem, hlen⟩ := handleKey_keeps henter hup hdown htaken
  rw [pressKey_of_ne henter, mem_onScreen, inputLen_onScreen]
  exact ⟨hmem, hlen⟩

/-- A key that changes the line, or not, on the row that is edited. -/
theorem Logged.edit {s t : Tty} {submitted : List (List Byte)} {key : Byte} (h : Logged s submitted)
    (hs : Reading s) (henter : key ≠ keyEnter) (hup : key ≠ keyUp) (hdown : key ≠ keyDown)
    (hkeeps : s.historyPtr ≠ s.historyLst → ¬ ChangesText key s)
    (ht : pressKey key s = t) (hedited : Edited (keyEdit key) (takeKey key s) t) :
    Logged t submitted := by
  have hlines := recent_length_lt submitted
  have hptr' : t.historyPtr = s.historyPtr := congrArg Fixed.historyPtr hedited.fixed
  have hfst' : t.historyFst = s.historyFst := congrArg Fixed.historyFst hedited.fixed
  have hlst' : t.historyLst = s.historyLst := congrArg Fixed.historyLst hedited.fixed
  have hbuf' : t.inputBuf = ttyHistory t.historyPtr := by
    rw [hptr', ← h.buf]
    exact hedited.inputBuf
  obtain ⟨k, hk, hlen⟩ := h.browsing
  by_cases hnewest : s.historyPtr = s.historyLst
  · have hwrites : s.mem.Writes (InRow (ttyHistory s.historyLst)) t.mem := by
      rw [← hnewest, ← h.buf]
      have hshort := hs.len
      exact hedited.writes.mono fun a ha =>
        ⟨ha.1, Nat.lt_of_le_of_lt ha.2 (Nat.add_lt_add_left hshort _)⟩
    refine ⟨h.shows.of_writes hlines hs.lst hfst' hlst' hwrites, hbuf', ⟨0, ⟨Nat.zero_le _, ?_, ?_⟩,
      ?_⟩, fun hnone => ?_⟩
    · rw [hptr', hlst', hnewest, slotBefore_zero hs.lst]
    · exact fun hpos => absurd hpos (Nat.lt_irrefl 0)
    · exact fun i _ hi => nomatch hi
    · obtain ⟨hfirst, hnul⟩ := h.fresh hnone
      refine ⟨hlst'.trans hfirst, (hwrites.frame _ fun hin => ?_).trans hnul⟩
      rw [hfirst] at hin
      exact absurd hin.2 (by decide)
  · obtain ⟨hmem, hlen'⟩ := pressKey_keeps henter hup hdown (hkeeps hnewest)
    rw [ht] at hmem hlen'
    refine ⟨h.shows.of_same hlines hs.lst hfst' hlst' fun _ _ _ _ => by rw [hmem], hbuf',
      ⟨k, ⟨hk.le, ?_, ?_⟩, ?_⟩, fun hnone => ?_⟩
    · rw [hptr', hlst']
      exact hk.row
    · rw [hmem, hlst']
      exact hk.left
    · rw [hlen']
      exact hlen
    · rw [hmem, hlst']
      exact h.fresh hnone

/-! ## Leaving the row -/

/-- The place, in rows before `history_lst`, that `KEY_UP` or `KEY_DOWN` moves to from the
place `k`, when `history_fst` is at the place `n`. -/
def walkStep (n : Nat) (key : Byte) (k : Nat) : Nat :=
  if key = keyUp then min (k + 1) n else k - 1

theorem walkStep_le {n k : Nat} (key : Byte) (hk : k ≤ n) : walkStep n key k ≤ n := by
  unfold walkStep
  split <;> omega

/-- The NUL behind the line, which a move in the history and Enter write: it ends the row
behind the newest line, or is on a recorded line and there already. -/
theorem Logged.leave {s t : Tty} {submitted : List (List Byte)} (h : Logged s submitted)
    (hs : Reading s) (hmem : t.mem = s.mem.put (s.inputBuf + s.inputLen) 0)
    (hfst' : t.historyFst = s.historyFst) (hlst' : t.historyLst = s.historyLst) :
    HistoryShows t (recent submitted) ∧ Ended t.mem s.historyLst ∧ Fresh t submitted := by
  have hlines := recent_length_lt submitted
  have hlen := hs.len
  obtain ⟨k, hk, hrecorded⟩ := h.browsing
  cases k with
  | zero =>
      have hbuf : s.inputBuf = ttyHistory s.historyLst := by
        rw [h.buf, hk.row, slotBefore_zero hs.lst]
      have hwrites : s.mem.Writes (InRow (ttyHistory s.historyLst)) t.mem := by
        rw [hmem, hbuf]
        exact .put _ _ (inRow_add hlen)
      refine ⟨h.shows.of_writes hlines hs.lst hfst' hlst' hwrites, ⟨s.inputLen, hlen, ?_⟩,
        fun hnone => ?_⟩
      · rw [hmem, hbuf]
        exact Store.bytes_put_same _ _ _
      · obtain ⟨hfirst, hnul⟩ := h.fresh hnone
        refine ⟨hlst'.trans hfirst, (hwrites.frame _ fun hin => ?_).trans hnul⟩
        rw [hfirst] at hin
        exact absurd hin.2 (by decide)
  | succ i =>
      have hrow := h.shows.rows i hk.le
      rw [← hk.row] at hrow
      have hthere := hrow.string.nul
      rw [← h.buf, ← hrecorded i hk.le rfl] at hthere
      have hsame : ∀ a, t.mem.bytes a = s.mem.bytes a := by
        intro a
        rw [hmem, Store.bytes_put]
        split
        · next heq =>
            rw [heq]
            exact hthere.symm
        · rfl
      refine ⟨h.shows.of_same hlines hs.lst hfst' hlst' fun _ _ _ _ => hsame _, ?_, fun hnone => ?_⟩
      · obtain ⟨n, hn, hnul⟩ := hk.left (Nat.succ_pos i)
        exact ⟨n, hn, (hsame _).trans hnul⟩
      · obtain ⟨hfirst, hnul⟩ := h.fresh hnone
        exact ⟨hlst'.trans hfirst, (hsame _).trans hnul⟩

/-- A move on the ring from a place `k` rows before `history_lst`, with `history_fst` `n`
rows before it. -/
theorem Recalls.slot {key : Byte} {s : Tty} {r n k : Nat} (hlst : s.historyLst < ttyHistorySize)
    (hn : n < ttyHistorySize) (hfst : s.historyFst = slotBefore ttyHistorySize s.historyLst n)
    (hk : k ≤ n) (hptr : s.historyPtr = slotBefore ttyHistorySize s.historyLst k)
    (h : Recalls key s r) :
    r = slotBefore ttyHistorySize s.historyLst (walkStep n key k) ∧ walkStep n key k ≠ k := by
  rcases h with ⟨rfl, hmoves, rfl⟩ | ⟨rfl, hmoves, rfl⟩
  · have hne : k ≠ n := by
      rintro rfl
      exact hmoves (hptr.trans hfst.symm)
    have hstep : walkStep n keyUp k = k + 1 := by
      rw [walkStep, if_pos rfl]
      omega
    rw [hstep, hptr]
    exact ⟨slotBefore_pred _ (by omega), Nat.succ_ne_self k⟩
  · cases k with
    | zero =>
        rw [slotBefore_zero hlst] at hptr
        exact absurd hptr hmoves
    | succ i =>
        have hstep : walkStep n keyDown (i + 1) = i := if_neg (by decide)
        rw [hstep, hptr]
        exact ⟨slotBefore_next _ (by omega), (Nat.succ_ne_self i).symm⟩

/-- The row that `KEY_UP` or `KEY_DOWN` moves to is one of the log, or the row behind it. -/
theorem Logged.recalls {s : Tty} {submitted : List (List Byte)} (h : Logged s submitted)
    (hs : Reading s) {key : Byte} {r : Nat} (hrecalls : Recalls key s r) :
    ∃ k ≤ (recent submitted).length, r = slotBefore ttyHistorySize s.historyLst k := by
  obtain ⟨k, hk, -⟩ := h.browsing
  obtain ⟨hrow, -⟩ := hrecalls.slot hs.lst (recent_length_lt submitted) h.shows.oldest hk.le hk.row
  exact ⟨_, walkStep_le key hk.le, hrow⟩

theorem Logged.moveTo {s : Tty} {submitted : List (List Byte)} (h : Logged s submitted)
    (hs : Reading s) {key : Byte} {r : Nat} (hrecalls : Recalls key s r) (screen : Screen) :
    Logged (recallRow r screen (takeKey key s)) submitted := by
  have hlines := recent_length_lt submitted
  obtain ⟨k, hle, hrow⟩ := h.recalls hs hrecalls
  obtain ⟨hshows, hended, hfresh⟩ :=
    h.leave (t := recallRow r screen (takeKey key s)) hs rfl rfl rfl
  refine ⟨hshows, rfl, ⟨k, ⟨hle, hrow, fun _ => hended⟩, fun i hi hki => ?_⟩, hfresh⟩
  subst hki
  have hrecorded := hshows.rows i hi
  have hshort := hrecorded.short
  have hstring := hrecorded.string
  rw [show slotBefore ttyHistorySize (recallRow r screen (takeKey key s)).historyLst (i + 1) = r
    from hrow.symm] at hstring
  exact strlen_eq hstring (Nat.lt_trans hshort (by decide))

/-- A key of a session other than Enter. -/
theorem Logged.press {s : Tty} {submitted : List (List Byte)} {key : Byte} (h : Logged s submitted)
    (hs : Reading s) (henter : key ≠ keyEnter)
    (hkeeps : s.historyPtr ≠ s.historyLst → ¬ ChangesText key s) :
    Logged (pressKey key s) submitted := by
  obtain ⟨l, hl⟩ := exists_editing hs.ptr
  have hpressed := pressed key hl
  generalize ht : pressKey key s = t at hpressed
  cases hpressed with
  | enter hkey => exact absurd hkey henter
  | stay _ _ =>
      obtain ⟨k, hk, hlen⟩ := h.browsing
      exact ⟨⟨h.shows.oldest, h.shows.rows⟩, h.buf, ⟨k, ⟨hk.le, hk.row, hk.left⟩, hlen⟩, h.fresh⟩
  | recalled hrecalls screen => exact h.moveTo hs hrecalls screen
  | edit _ hup hdown _ hedited => exact h.edit hs henter hup hdown hkeeps ht hedited

theorem stringAt_eq {m : Memory} {a : Nat} {cs : List Byte} (h : StrAt m a cs)
    (hlen : cs.length < stringFuel) : stringAt m a = cs := by
  unfold stringAt
  rw [strlen_eq h hlen]
  apply List.ext_getElem
  · rw [List.length_map, List.length_range]
  · intro i hi hi'
    rw [List.getElem_map, List.getElem_range]
    exact h.get hi'

/-- Enter: the line is closed in its row, and copied to the caller. -/
theorem Logged.submit {s u : Tty} {submitted : List (List Byte)} (h : Logged s submitted)
    (hs : Reading s) (dest : Dest) (hfst' : u.historyFst = s.historyFst)
    (hlst' : u.historyLst = s.historyLst) (hptr' : u.historyPtr = s.historyPtr)
    (hcopy : Copied dest.addr s.inputBuf (s.inputLen + 1)
      (s.mem.put (s.inputBuf + s.inputLen) 0) u.mem) :
    Submitted u (stringAt u.mem.bytes dest.addr) submitted := by
  have hlines := recent_length_lt submitted
  obtain ⟨hshows, hended, hfresh⟩ :=
    h.leave (t := { s with mem := s.mem.put (s.inputBuf + s.inputLen) 0 }) hs rfl rfl rfl
  have hsame : ∀ r < ttyHistorySize, ∀ i < ttyInputSize, u.mem.bytes (ttyHistory r + i) =
      (s.mem.put (s.inputBuf + s.inputLen) 0).bytes (ttyHistory r + i) := by
    intro r hr i hi
    have hin := ttyHistory_le hr
    have hapart := dest.apart
    exact hcopy.writes.frame _ (by omega)
  obtain ⟨cs, hcs, hlen⟩ := exists_strAt
    (Store.bytes_put_same (s.inputBuf + s.inputLen) (0 : Byte) s.mem)
  have hshort : cs.length < ttyInputSize := Nat.lt_of_le_of_lt hlen hs.len
  have hdest := hcopy.string hcs (Nat.lt_succ_of_le hlen)
  rw [stringAt_eq hdest (Nat.lt_trans hshort (by decide))]
  obtain ⟨k, hk, -⟩ := h.browsing
  refine ⟨hfst' ▸ hs.fst, hlst' ▸ hs.lst, hshows.of_same hlines hs.lst hfst' hlst' hsame,
    ⟨k, hk.le, ?_, fun _ => ?_⟩, ?_, hshort, fun hnone => ?_⟩
  · rw [hptr', hlst']
    exact hk.row
  · obtain ⟨n, hn, hnul⟩ := hended
    rw [hlst']
    exact ⟨n, hn, (hsame _ hs.lst n hn).trans hnul⟩
  · rw [hptr', ← h.buf]
    refine hcs.congr fun b hlo hhi => ?_
    obtain ⟨i, rfl⟩ : ∃ i, b = s.inputBuf + i := ⟨b - s.inputBuf, by omega⟩
    have hbyte := hsame _ hs.historyPtr i (by omega)
    rw [← h.buf] at hbyte
    exact hbyte
  · obtain ⟨hfirst, hnul⟩ := hfresh hnone
    exact ⟨hlst'.trans hfirst, (hsame (ttyHistorySize - 1) (by decide) 0 (by decide)).trans hnul⟩

/-- Only Enter, or a line that is full, ends the loop. -/
theorem reads_of_short {key : Byte} {s : Tty} (hs : Reading s) (henter : key ≠ keyEnter)
    (hlen : (pressKey key s).inputLen < ttyInputSize) : (pressKey key s).reads = true := by
  obtain ⟨l, hl⟩ := exists_editing hs.ptr
  have hpressed := pressed key hl
  generalize pressKey key s = t at hpressed hlen
  suffices hstop : t.stopRead = false by
    rw [Tty.reads, hstop, decide_eq_true hlen]
    rfl
  cases hpressed with
  | enter hkey => exact absurd hkey henter
  | stay _ _ => rfl
  | recalled _ _ => rfl
  | edit _ _ _ _ hedited => exact congrArg Fixed.stopRead hedited.fixed

/-! ## Runs -/

/-- No session so far. -/
structure Unused (s : Tty) : Prop where
  ptr : s.historyPtr = 0
  fst : s.historyFst = minusOne
  lst : s.historyLst = minusOne
  nul : s.mem.bytes (ttyHistory (ttyHistorySize - 1)) = 0

theorem Unused.commit {s : Tty} (h : Unused s) : Committed (historyNewBuf s) [] := by
  have hlst : 0 < ttyHistorySize := by decide
  rw [historyNewBuf, if_pos ⟨h.fst, h.lst⟩]
  exact ⟨hlst, h.ptr, ⟨(slotBefore_zero hlst).symm, .nil _ _⟩, fun _ => ⟨rfl, h.nul⟩⟩

/-- What holds between two steps of a run. -/
def LogKept (s : Session) : Prop :=
  TidySession s ∧ match s.reader, s.submitted with
    | none, [] => Unused s.tty
    | none, line :: earlier => Submitted s.tty line earlier
    | some _, submitted => Logged s.tty submitted

theorem logKept_start {boot : Tty} (hboot : HistoryZero boot) : LogKept (sessionStart boot) := by
  have hin : ttyHistory (ttyHistorySize - 1) < sizeofTtyHistory := by decide
  have hunused : Unused (ttyInit boot) := by
    rw [ttyInit]
    exact ⟨rfl, rfl, rfl, hboot _ hin⟩
  exact ⟨tidySession_start hboot, hunused⟩

theorem LogKept.logShown {s : Session} (h : LogKept s) : LogShown s := by
  intro hreading
  obtain ⟨s, reader, submitted⟩ := s
  cases reader with
  | none => exact absurd rfl hreading
  | some dest => exact h.2.shows

theorem KeepsRecords.lineShort {s : Session} {event : TtyEvent} (h : KeepsRecords s event) :
    LineShort s event := by
  obtain ⟨s, reader, submitted⟩ := s
  cases reader with
  | none => trivial
  | some dest =>
      cases event with
      | elsewhere => trivial
      | read _ => trivial
      | key _ => exact h.1

/-- The rest of the kernel leaves the history as it is. -/
theorem Submitted.of_behind {s t : Tty} {line : List Byte} {earlier : List (List Byte)}
    (h : Submitted s line earlier) (hfst' : t.historyFst = s.historyFst)
    (hlst' : t.historyLst = s.historyLst) (hptr' : t.historyPtr = s.historyPtr)
    (hmem : s.mem.Writes (sizeofTtyHistory ≤ ·) t.mem) : Submitted t line earlier := by
  have hlines := recent_length_lt earlier
  have hsame : ∀ r < ttyHistorySize, ∀ i < ttyInputSize,
      t.mem.bytes (ttyHistory r + i) = s.mem.bytes (ttyHistory r + i) := by
    intro r hr i hi
    have hin := ttyHistory_le hr
    exact hmem.frame _ (by omega)
  obtain ⟨k, hk⟩ := h.browsing
  refine ⟨hfst' ▸ h.fst, hlst' ▸ h.lst, h.shows.of_same hlines h.lst hfst' hlst' hsame,
    ⟨k, hk.le, ?_, fun hpos => ?_⟩, ?_, h.short, fun hnone => ?_⟩
  · rw [hptr', hlst']
    exact hk.row
  · obtain ⟨n, hn, hnul⟩ := hk.left hpos
    rw [hlst']
    exact ⟨n, hn, (hsame _ h.lst n hn).trans hnul⟩
  · have hshort := h.short
    rw [hptr']
    refine h.holds.congr fun b hlo hhi => ?_
    obtain ⟨i, rfl⟩ : ∃ i, b = ttyHistory s.historyPtr + i :=
      ⟨b - ttyHistory s.historyPtr, by omega⟩
    exact hsame _ h.ptr_lt i (by omega)
  · obtain ⟨hfirst, hnul⟩ := h.fresh hnone
    exact ⟨hlst'.trans hfirst, (hsame (ttyHistorySize - 1) (by decide) 0 (by decide)).trans hnul⟩

theorem SessionStep.logKept {s t : Session} {event : TtyEvent} (hs : LogKept s)
    (hkeeps : KeepsRecords s event) (hstep : SessionStep s event t) : LogKept t := by
  have htidy := (hstep.inside_iff hs.1).2 hkeeps.lineShort
  refine ⟨htidy, ?_⟩
  cases hstep with
  | @elsewhere _ submitted _ _ _ _ hmem =>
      cases submitted with
      | nil =>
          obtain ⟨hptr, hfst, hlst, hnul⟩ := hs.2
          exact ⟨hptr, hfst, hlst, (hmem.frame _ (by decide)).trans hnul⟩
      | cons line earlier => exact Submitted.of_behind hs.2 rfl rfl rfl hmem
  | @read _ submitted _ =>
      cases submitted with
      | nil => exact (Unused.commit hs.2).read
      | cons line earlier => exact (Submitted.commit hs.2).read
  | @key _ _ _ key hreads =>
      obtain ⟨⟨hreading, -⟩, hlogged⟩ := hs
      have henter : key ≠ keyEnter := by
        rintro rfl
        rw [pressKey_enter, Tty.reads, Bool.and_eq_true] at hreads
        exact absurd hreads.2 Bool.false_ne_true
      exact Logged.press hlogged hreading henter hkeeps.2
  | @last _ dest _ key hends =>
      obtain ⟨⟨hreading, r, hr, hbuf, hrows⟩, hlogged⟩ := hs
      have henter : key = keyEnter := by
        by_contra hne
        have hreads := reads_of_short hreading hne (pressKey_short hreading hr hbuf hrows hkeeps.1)
        rw [hends] at hreads
        exact absurd hreads Bool.false_ne_true
      subst henter
      have hcopy := copyLine_copied (s := pressKey keyEnter _) hreading.row hreading.len dest
      exact Logged.submit hlogged hreading dest rfl rfl rfl hcopy

/-- While no key changes a recalled line, or fills one, the history shows the log of
the submitted lines in every session. -/
theorem sessionRuns_logShown {boot : Tty} (hboot : HistoryZero boot)
    {path : List (TtyEvent × Session)} (hrun : IsPath SessionStep (sessionStart boot) path)
    (hkeeps : StepsMeet KeepsRecords (sessionStart boot) path) :
    ∀ s ∈ visited (sessionStart boot) path, LogShown s := by
  intro s hs
  apply LogKept.logShown
  exact hrun.invariant_of_stepsMeet (fun _ _ _ hinv hok hstep => hstep.logKept hinv hok)
    (logKept_start hboot) hkeeps s hs

/-- `a`, then `b`, and UP in the third session. -/
theorem sessionRuns_logShown_recall :
    LogShown (endState (sessionStart bootTty) (play [.read promptDest, .key 0x61, .key keyEnter,
      .read promptDest, .key 0x62, .key keyEnter, .read promptDest, .key keyUp]
        (sessionStart bootTty))) := by
  have hzero : HistoryZero bootTty := fun _ _ => rfl
  exact sessionRuns_logShown hzero (isPath_play (by decide +kernel)) (by decide +kernel) _
    (endState_mem_visited _ _)

/-- `a`; then UP, and `b` behind it.  The record of `a` changes to `ab`, and because it is
the newest one `ab` is not recorded. -/
theorem sessionRuns_record_changed :
    HistoryZero bootTty ∧ ∃ path, IsPath SessionStep (sessionStart bootTty) path ∧
      StepsMeet LineShort (sessionStart bootTty) path ∧
      ¬ ∀ s ∈ visited (sessionStart bootTty) path, LogShown s := by
  refine ⟨fun _ _ => rfl, play [.read promptDest, .key 0x61, .key keyEnter, .read promptDest,
    .key keyUp, .key 0x62, .key keyEnter, .read promptDest] (sessionStart bootTty),
    isPath_play (by decide +kernel), by decide +kernel, fun hshown => ?_⟩
  have hlast := hshown _ (endState_mem_visited _ _)
  exact absurd (hlast (by decide +kernel)).oldest (by decide +kernel)

end DonutOS.Kernel
