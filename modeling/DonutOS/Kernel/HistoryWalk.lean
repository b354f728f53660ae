import DonutOS.Kernel.TtyHistory

set_option autoImplicit false

/-!
# Kernel: the ring of recorded rows (`kernel/src/tty.c`)

The rows that `__history_new_buf` has copied lines to lie on the ring from `history_fst`
to `history_lst`, and `KEY_UP` and `KEY_DOWN` walk between the two.
-/

namespace DonutOS.Kernel

open DonutOS.Foundation DonutOS.Libc

/-! ## The rows that are recorded -/

/-- The row that `__history_new_buf` copies a line to. -/
def newBufRecords (s : Tty) : Option Nat :=
  if s.historyFst = minusOne ∧ s.historyLst = minusOne then none
  else if s.mem.bytes (ttyHistory s.historyPtr) = 0 then none
  else if strcmp s.mem.bytes (ttyHistory s.historyPtr)
      (ttyHistory ((s.historyLst + minusOne) % 2 ^ 32 % ttyHistorySize)) ≠ 0 then
    some s.historyLst
  else none

/-- The rows recorded so far, the newest first, or `none` before the first call of
`__history_new_buf`. -/
def rowsBehind (s : Session) (event : TtyEvent) (rows : Option (List Nat)) : Option (List Nat) :=
  match event with
  | .read _ => some ((newBufRecords s.tty).toList ++ rows.getD [])
  | .key _ => rows
  | .elsewhere => rows

/-- The rows that a run has recorded. -/
def recordedRows : Session → List (TtyEvent × Session) → Option (List Nat) → Option (List Nat)
  | _, [], rows => rows
  | s, (event, t) :: rest, rows => recordedRows t rest (rowsBehind s event rows)

/-- The rows from `history_fst` on that are in front of `history_lst`. -/
def segmentLength (s : Tty) : Nat :=
  (s.historyLst + ttyHistorySize - s.historyFst) % ttyHistorySize

/-- `history_ptr` is on the segment of the ring from `history_fst` to `history_lst`; the
rows in front of `history_lst` are the last fifteen that were recorded, or all of them. -/
structure OnSegment (s : Tty) (rows : List Nat) : Prop where
  fst : s.historyFst < ttyHistorySize
  lst : s.historyLst < ttyHistorySize
  ptr : s.historyPtr < ttyHistorySize
  between : s.historyPtr ∈ stretch ttyHistorySize s.historyFst (segmentLength s + 1)
  holds : stretch ttyHistorySize s.historyFst (segmentLength s) =
    (rows.take (ttyHistorySize - 1)).reverse
  atMost : segmentLength s ≤ ttyHistorySize - 1

/-- Some key leaves the row that `history_ptr` is on. -/
def leavesRow : List Byte → Tty → Bool
  | [], _ => false
  | key :: keys, s =>
      (pressKey key s).historyPtr != s.historyPtr || leavesRow keys (pressKey key s)

/-- The line is the text of the row that `history_ptr` is on, with the cursor behind it. -/
structure RowLoaded (s : Tty) : Prop where
  buf : s.inputBuf = ttyHistory s.historyPtr
  line : ∃ cs, StrAt s.mem.bytes s.inputBuf cs ∧ s.inputLen = cs.length ∧ s.inputPtr = cs.length

/-- The keys walk from `k` rows before `history_lst`, between it and `history_fst`, which
is as many rows before it as the segment is long.  The session goes on. -/
structure WalksHistory (s : Tty) (keys : List Byte) : Prop where
  oldest : s.historyFst = slotBefore ttyHistorySize s.historyLst (segmentLength s)
  walk : ∃ k ≤ segmentLength s, s.historyPtr = slotBefore ttyHistorySize s.historyLst k ∧
    (pressKeys keys s).historyPtr = slotBefore ttyHistorySize s.historyLst
      (keys.foldl (fun k key => walkStep (segmentLength s) key k) k)
  fst : (pressKeys keys s).historyFst = s.historyFst
  lst : (pressKeys keys s).historyLst = s.historyLst
  loads : leavesRow keys s = true → RowLoaded (pressKeys keys s)
  text : ∀ a, (pressKeys keys s).mem.bytes a = s.mem.bytes a
  reads : (pressKeys keys s).reads = true

/-! ## The invariant -/

/-- The rows that are still recorded. -/
def recentRows (rows : List Nat) : List Nat := rows.take (ttyHistorySize - 1)

/-- Places are counted in rows before `history_lst`: the recorded rows take the places from
one on, and `history_fst` is at the last of them. -/
structure Segmented (s : Tty) (rows : List Nat) : Prop where
  lst : s.historyLst < ttyHistorySize
  fst : s.historyFst = slotBefore ttyHistorySize s.historyLst (recentRows rows).length
  ptr : ∃ k ≤ (recentRows rows).length, s.historyPtr = slotBefore ttyHistorySize s.historyLst k
  ring : RingHolds ttyHistorySize Eq s.historyLst (recentRows rows)
  fresh : rows = [] → s.historyLst = 0 ∧ s.mem.bytes (ttyHistory (ttyHistorySize - 1)) = 0

theorem recentRows_length_lt (rows : List Nat) : (recentRows rows).length < ttyHistorySize := by
  unfold recentRows
  rw [List.length_take]
  have hsize : ttyHistorySize - 1 < ttyHistorySize := by decide
  omega

theorem recentRows_cons (row : Nat) (rows : List Nat) :
    recentRows (row :: rows) = (row :: recentRows rows).take (ttyHistorySize - 1) := by
  have hsize : ttyHistorySize - 1 = 14 + 1 := rfl
  unfold recentRows
  rw [hsize, List.take_succ_cons, List.take_succ_cons, List.take_take]
  rfl

theorem Segmented.fst_lt {s : Tty} {rows : List Nat} (h : Segmented s rows) :
    s.historyFst < ttyHistorySize := by
  rw [h.fst]
  exact slotBefore_lt (by decide) _ _

theorem Segmented.ptr_lt {s : Tty} {rows : List Nat} (h : Segmented s rows) :
    s.historyPtr < ttyHistorySize := by
  obtain ⟨k, -, hk⟩ := h.ptr
  rw [hk]
  exact slotBefore_lt (by decide) _ _

theorem Segmented.length_eq {s : Tty} {rows : List Nat} (h : Segmented s rows) :
    segmentLength s = (recentRows rows).length := by
  have hlst := h.lst
  have hfst := h.fst
  have hlen := recentRows_length_lt rows
  rw [slotBefore_eq hlst hlen] at hfst
  unfold segmentLength
  simp only [ttyHistorySize] at hlst hfst hlen ⊢
  split at hfst <;> omega

/-- A row `k` places before `history_lst` is the one as many places behind `history_fst`. -/
theorem slot_from_fst {n k : Nat} (lst : Nat) (hn : n < ttyHistorySize) (hk : k ≤ n) :
    (slotBefore ttyHistorySize lst n + (n - k)) % ttyHistorySize =
      slotBefore ttyHistorySize lst k := by
  have hsum : lst + (ttyHistorySize - n) + (n - k) = lst + (ttyHistorySize - k) := by omega
  unfold slotBefore
  rw [Nat.mod_add_mod, hsum]

theorem Segmented.onSegment {s : Tty} {rows : List Nat} (h : Segmented s rows) :
    OnSegment s rows := by
  have hlen := recentRows_length_lt rows
  refine ⟨h.fst_lt, h.lst, h.ptr_lt, ?_, ?_, ?_⟩
  · obtain ⟨k, hk, hptr⟩ := h.ptr
    rw [h.length_eq, mem_stretch]
    refine ⟨s.historyFst + ((recentRows rows).length - k), Nat.le_add_right _ _, by omega, ?_⟩
    rw [h.fst, slot_from_fst _ hlen hk, hptr]
  · rw [h.length_eq]
    change _ = (recentRows rows).reverse
    apply List.ext_getElem
    · rw [stretch, List.length_map, List.length_range', List.length_reverse]
    · intro i hi hi'
      rw [stretch, List.length_map, List.length_range'] at hi
      have hplace := h.ring ((recentRows rows).length - 1 - i) (by omega)
      have hback : (recentRows rows).length - ((recentRows rows).length - 1 - i + 1) = i := by omega
      have hslot := slot_from_fst s.historyLst hlen
        (by omega : (recentRows rows).length - 1 - i + 1 ≤ (recentRows rows).length)
      rw [hback, ← h.fst] at hslot
      simp only [stretch, List.getElem_map, List.getElem_range', Nat.one_mul, List.getElem_reverse]
      exact hslot.trans hplace
  · rw [h.length_eq]
    omega

/-! ## `__history_new_buf` -/

/-- A line that is not the newest one already goes to the row `history_lst`. -/
theorem Segmented.record {s : Tty} {rows : List Nat} (h : Segmented s rows)
    (hother : strcmp s.mem.bytes (ttyHistory s.historyPtr)
      (ttyHistory ((s.historyLst + minusOne) % 2 ^ 32 % ttyHistorySize)) ≠ 0) :
    Segmented (historyAdvance (historyCommit s)) (s.historyLst :: rows) := by
  have hlen := recentRows_length_lt rows
  have hcount : (recentRows (s.historyLst :: rows)).length =
      min (ttyHistorySize - 1) ((recentRows rows).length + 1) := by
    rw [recentRows_cons, List.length_take, List.length_cons]
  have hlst : (s.historyLst + 1) % ttyHistorySize < ttyHistorySize := Nat.mod_lt _ (by decide)
  rw [historyAdvance_record h.lst hlen h.fst hother]
  refine ⟨hlst, ?_, ⟨0, Nat.zero_le _, (slotBefore_zero hlst).symm⟩, ?_,
    fun hnone => nomatch hnone⟩
  · rw [hcount]
  · rw [recentRows_cons]
    exact h.ring.push h.lst (Nat.sub_le _ _) rfl fun _ _ _ _ hrow => hrow

/-- The newest line is not recorded again; there is one, as an empty history has an empty
row in front of its first. -/
theorem Segmented.skip {s : Tty} {rows : List Nat} (h : Segmented s rows)
    (htidy : Tidy none s.mem) (hline : s.mem.bytes (ttyHistory s.historyPtr) ≠ 0)
    (hsame : strcmp s.mem.bytes (ttyHistory s.historyPtr)
      (ttyHistory ((s.historyLst + minusOne) % 2 ^ 32 % ttyHistorySize)) = 0) :
    Segmented (historyAdvance (historyCommit s)) rows := by
  have hsome : rows ≠ [] := by
    intro hnone
    obtain ⟨hfirst, hnul⟩ := h.fresh hnone
    obtain ⟨cs, hcs, hlen⟩ := (htidy.ended _ h.ptr_lt (Option.some_ne_none _).symm).string
    have hempty : StrAt s.mem.bytes
        (ttyHistory ((s.historyLst + minusOne) % 2 ^ 32 % ttyHistorySize)) [] := by
      rw [hfirst]
      exact hnul
    have hnil := (strcmp_eq_zero_iff hcs hempty (Nat.lt_trans hlen (by decide))).mp hsame
    rw [hnil] at hcs
    exact hline hcs
  have hlen := recentRows_length_lt rows
  have hpos : 0 < (recentRows rows).length := by
    have hrows := List.length_pos_of_ne_nil hsome
    have hsize : 0 < ttyHistorySize - 1 := by decide
    rw [recentRows, List.length_take]
    omega
  obtain ⟨hfst', hlst', hptr', -⟩ := historyAdvance_skip h.lst hpos hlen h.fst hsame
  generalize historyAdvance (historyCommit s) = t at hfst' hlst' hptr'
  refine ⟨hlst' ▸ h.lst, ?_, ⟨0, Nat.zero_le _, ?_⟩, ?_, fun hnone => absurd hnone hsome⟩
  · rw [hfst', hlst', h.fst]
  · rw [hptr', hlst', slotBefore_zero h.lst]
  · rw [hlst']
    exact h.ring

theorem Segmented.newBuf {s : Tty} {rows : List Nat} (h : Segmented s rows)
    (htidy : Tidy none s.mem) :
    Segmented (historyNewBuf s) ((newBufRecords s).toList ++ rows) := by
  have hfst := h.fst_lt
  have hstarted : ¬ (s.historyFst = minusOne ∧ s.historyLst = minusOne) := by
    rintro ⟨hnone, _⟩
    rw [hnone] at hfst
    exact absurd hfst (by decide)
  rw [newBufRecords, if_neg hstarted]
  by_cases hempty : s.mem.bytes (ttyHistory s.historyPtr) = 0
  · rw [if_pos hempty, historyNewBuf_of_empty hfst hempty]
    exact h
  · rw [if_neg hempty, historyNewBuf_of_line hfst hempty]
    by_cases hother : strcmp s.mem.bytes (ttyHistory s.historyPtr)
        (ttyHistory ((s.historyLst + minusOne) % 2 ^ 32 % ttyHistorySize)) ≠ 0
    · rw [if_pos hother]
      exact h.record hother
    · rw [if_neg hother]
      exact h.skip htidy hempty (not_not.mp hother)

/-- The first call only makes the history start. -/
theorem Unused.segmented {s : Tty} (h : Unused s) :
    newBufRecords s = none ∧ Segmented (historyNewBuf s) [] := by
  have hlst : 0 < ttyHistorySize := by decide
  rw [newBufRecords, historyNewBuf, if_pos ⟨h.fst, h.lst⟩, if_pos ⟨h.fst, h.lst⟩]
  refine ⟨rfl, hlst, (slotBefore_zero hlst).symm, ⟨0, Nat.le_refl _, ?_⟩, .nil _ _,
    fun _ => ⟨rfl, h.nul⟩⟩
  exact h.ptr.trans (slotBefore_zero hlst).symm

/-- `tty_read` empties the row `history_lst`. -/
theorem Segmented.read {s : Tty} {rows : List Nat} (h : Segmented (historyNewBuf s) rows) :
    Segmented (ttyReadStart s) rows ∧ (rows = [] → (ttyReadStart s).inputBuf = ttyHistory 0) := by
  unfold ttyReadStart
  generalize historyNewBuf s = t at h
  refine ⟨⟨h.lst, h.fst, h.ptr, h.ring, fun hnone => ?_⟩, fun hnone => ?_⟩
  · obtain ⟨hfirst, hnul⟩ := h.fresh hnone
    refine ⟨hfirst, ?_⟩
    change (t.mem.put (ttyHistory t.historyLst) 0).bytes _ = 0
    rw [hfirst, Store.bytes_put_of_ne _ _ (by decide)]
    exact hnul
  · exact congrArg ttyHistory (h.fresh hnone).1

/-! ## A session -/

/-- The ring stays as it is; an empty one has no need of the other rows. -/
theorem Segmented.of_same {s t : Tty} {rows : List Nat} (h : Segmented s rows)
    (hfst' : t.historyFst = s.historyFst) (hlst' : t.historyLst = s.historyLst)
    (hptr' : t.historyPtr = s.historyPtr)
    (hnul : rows = [] → t.mem.bytes (ttyHistory (ttyHistorySize - 1)) =
      s.mem.bytes (ttyHistory (ttyHistorySize - 1))) : Segmented t rows where
  lst := hlst' ▸ h.lst
  fst := by
    rw [hfst', hlst']
    exact h.fst
  ptr := by
    rw [hptr', hlst']
    exact h.ptr
  ring := by
    rw [hlst']
    exact h.ring
  fresh := fun hnone => ⟨hlst'.trans (h.fresh hnone).1, (hnul hnone).trans (h.fresh hnone).2⟩

/-- A byte that a line in the first row is not written to. -/
theorem last_row_behind {i : Nat} (hi : i < ttyInputSize) :
    ttyHistory 0 + i ≠ ttyHistory (ttyHistorySize - 1) := by
  simp only [ttyHistory, ttyInputSize, ttyHistorySize] at hi ⊢
  omega

theorem Segmented.press {s : Tty} {rows : List Nat} (h : Segmented s rows) (hs : Reading s)
    (hbuf : rows = [] → s.inputBuf = ttyHistory 0) (key : Byte) :
    Segmented (pressKey key s) rows ∧
      (rows = [] → (pressKey key s).inputBuf = ttyHistory 0) := by
  obtain ⟨l, hl⟩ := exists_editing hs.ptr
  have hpressed := pressed key hl
  generalize pressKey key s = t at hpressed
  cases hpressed with
  | enter _ => exact ⟨h.of_same rfl rfl rfl fun _ => rfl, hbuf⟩
  | stay _ _ => exact ⟨h.of_same rfl rfl rfl fun _ => rfl, hbuf⟩
  | recalled hrecalls _ =>
      obtain ⟨k, hk, hptr⟩ := h.ptr
      obtain ⟨hrow, hmoves⟩ := hrecalls.slot h.lst (recentRows_length_lt rows) h.fst hk hptr
      have hle := walkStep_le key hk
      have hsome : rows ≠ [] := by
        rintro rfl
        exact hmoves ((Nat.le_zero.mp hle).trans (Nat.le_zero.mp hk).symm)
      exact ⟨⟨h.lst, h.fst, ⟨_, hle, hrow⟩, h.ring, fun hnone => absurd hnone hsome⟩,
        fun hnone => absurd hnone hsome⟩
  | edit _ _ _ _ hedited =>
      have hfixed := hedited.fixed
      refine ⟨h.of_same (congrArg Fixed.historyFst hfixed) (congrArg Fixed.historyLst hfixed)
        (congrArg Fixed.historyPtr hfixed) fun hnone => ?_,
        fun hnone => hedited.inputBuf.trans (hbuf hnone)⟩
      refine hedited.writes.frame _ ?_
      rintro ⟨-, hhi⟩
      have hlen := hs.len
      change _ ≤ s.inputBuf + s.inputLen at hhi
      rw [hbuf hnone] at hhi
      simp only [ttyHistory, ttyInputSize, ttyHistorySize] at hlen hhi
      omega

/-- The end of `tty_read`. -/
theorem Segmented.close {s : Tty} {rows : List Nat} (h : Segmented s rows)
    (hrow : ∃ r < ttyHistorySize, s.inputBuf = ttyHistory r) (hlen : s.inputLen < ttyInputSize)
    (hbuf : rows = [] → s.inputBuf = ttyHistory 0) (dest : Dest) :
    Segmented (ttyReadEnd dest.addr s) rows := by
  have hcopy := copyLine_copied hrow hlen dest
  have hapart := dest.apart
  refine h.of_same rfl rfl rfl fun hnone => ?_
  rw [hcopy.writes.frame _ fun hin => ?_, Store.bytes_put_of_ne _ _ ?_]
  · rw [hbuf hnone]
    exact (last_row_behind hlen).symm
  · have hlast := ttyHistory_le (by decide : ttyHistorySize - 1 < ttyHistorySize)
    simp only [ttyInputSize] at hlast
    omega

/-- What holds of a run, and of the rows it has recorded. -/
def SegmentKept (s : Session) (rows : Option (List Nat)) : Prop :=
  TidySession s ∧ match s.reader, rows with
    | none, none => Unused s.tty
    | none, some rows => Segmented s.tty rows
    | some _, none => False
    | some _, some rows => Segmented s.tty rows ∧ (rows = [] → s.tty.inputBuf = ttyHistory 0)

theorem SessionStep.segmentKept {s t : Session} {event : TtyEvent} {rows : Option (List Nat)}
    (hs : SegmentKept s rows) (hshort : LineShort s event) (hstep : SessionStep s event t) :
    SegmentKept t (rowsBehind s event rows) := by
  obtain ⟨htidy, hkept⟩ := hs
  refine ⟨(hstep.inside_iff htidy).2 hshort, ?_⟩
  cases hstep with
  | elsewhere _ _ _ _ hmem =>
      cases rows with
      | none =>
          obtain ⟨hptr, hfst, hlst, hnul⟩ := hkept
          exact ⟨hptr, hfst, hlst, (hmem.frame _ (by decide)).trans hnul⟩
      | some rows =>
          exact Segmented.of_same hkept rfl rfl rfl fun _ => hmem.frame _ (by decide)
  | read dest =>
      cases rows with
      | none =>
          obtain ⟨hnone, hsegmented⟩ := Unused.segmented hkept
          rw [rowsBehind, hnone]
          exact hsegmented.read
      | some rows => exact (Segmented.newBuf hkept htidy.2).read
  | key _ =>
      cases rows with
      | none => exact hkept.elim
      | some rows => exact Segmented.press hkept.1 htidy.1 hkept.2 _
  | last _ =>
      cases rows with
      | none => exact hkept.elim
      | some rows =>
          obtain ⟨hreading, r, hr, hbuf, hrows⟩ := htidy
          obtain ⟨hsegmented, hfirst⟩ := Segmented.press hkept.1 hreading hkept.2 _
          obtain ⟨r', hr', hbuf', -⟩ := (pressKey_tidy _ hreading hr hbuf hrows).row
          have hlen := pressKey_short hreading hr hbuf hrows hshort
          exact hsegmented.close ⟨r', hr', hbuf'⟩ hlen hfirst _

theorem segmentKept_of_path {s : Session} {rows : Option (List Nat)}
    {path : List (TtyEvent × Session)} (hs : SegmentKept s rows) (hrun : IsPath SessionStep s path)
    (hshort : StepsMeet LineShort s path) :
    SegmentKept (endState s path) (recordedRows s path rows) := by
  induction path generalizing s rows with
  | nil => exact hs
  | cons head path ih => exact ih (hrun.1.segmentKept hs hshort.1) hrun.2 hshort.2

theorem segmentKept_start {boot : Tty} (hboot : HistoryZero boot) :
    SegmentKept (sessionStart boot) none :=
  ⟨tidySession_start hboot, (logKept_start hboot).2⟩

/-! ## The keys that walk -/

/-- The state between two keys that walk: `history_fst` is `n` rows before `history_lst` and
`history_ptr` is `k`, all rows hold strings, and the line is closed already. -/
structure Walking (n k : Nat) (s : Tty) : Prop where
  size : n < ttyHistorySize
  lst : s.historyLst < ttyHistorySize
  fst : s.historyFst = slotBefore ttyHistorySize s.historyLst n
  le : k ≤ n
  ptr : s.historyPtr = slotBefore ttyHistorySize s.historyLst k
  ended : ∀ r < ttyHistorySize, Ended s.mem r
  nul : s.mem.bytes (s.inputBuf + s.inputLen) = 0
  reads : s.reads = true

/-- What keys that walk make of it. -/
structure Walked (n k : Nat) (s t : Tty) : Prop where
  walking : Walking n k t
  fst : t.historyFst = s.historyFst
  lst : t.historyLst = s.historyLst
  text : ∀ a, t.mem.bytes a = s.mem.bytes a
  loaded : RowLoaded s → RowLoaded t

/-- At the end that the key goes to. -/
theorem Walking.walkStep_of_end {n k : Nat} {s : Tty} (h : Walking n k s) {key : Byte}
    (hend : s.historyPtr = if key = keyUp then s.historyFst else s.historyLst) :
    walkStep n key k = k := by
  have hn := h.size
  have hle := h.le
  unfold walkStep
  split at hend
  · next hup =>
      rw [h.ptr, h.fst, slotBefore_inj h.lst (Nat.lt_of_le_of_lt hle hn) hn] at hend
      rw [if_pos hup]
      omega
  · next hdown =>
      rw [h.ptr] at hend
      rw [if_neg hdown]
      rcases Nat.eq_zero_or_pos k with rfl | hpos
      · rfl
      · exact absurd hend (slotBefore_ne h.lst hpos (Nat.lt_of_le_of_lt hle hn))

/-- Closing the line, which is closed, changes no byte. -/
theorem Walking.text {n k : Nat} {s : Tty} (h : Walking n k s) (key : Byte) (r : Nat)
    (screen : Screen) (a : Nat) :
    (recallRow r screen (takeKey key s)).mem.bytes a = s.mem.bytes a := by
  change (s.mem.put (s.inputBuf + s.inputLen) 0).bytes a = _
  rw [Store.bytes_put]
  split
  · next hhere =>
      rw [hhere]
      exact h.nul.symm
  · rfl

/-- A key that moves loads the row that it moves to. -/
theorem Walking.recall {n k : Nat} {s : Tty} (h : Walking n k s) {key : Byte} {r : Nat}
    (hrecalls : Recalls key s r) (screen : Screen) :
    Walked n (walkStep n key k) s (recallRow r screen (takeKey key s)) ∧
      RowLoaded (recallRow r screen (takeKey key s)) := by
  obtain ⟨hrow, -⟩ := hrecalls.slot h.lst h.size h.fst h.le h.ptr
  have hsame := h.text key r screen
  have hended : ∀ r' < ttyHistorySize, Ended (recallRow r screen (takeKey key s)).mem r' := by
    intro r' hr'
    obtain ⟨i, hi, hnul⟩ := h.ended r' hr'
    exact ⟨i, hi, (hsame _).trans hnul⟩
  obtain ⟨cs, hcs, hlen⟩ := (hended r hrecalls.lt).string
  have hstrlen : (recallRow r screen (takeKey key s)).inputLen = cs.length :=
    strlen_eq hcs (Nat.lt_trans hlen (by decide))
  have hloaded : RowLoaded (recallRow r screen (takeKey key s)) :=
    ⟨rfl, cs, hcs, hstrlen, hstrlen⟩
  have hnul : (recallRow r screen (takeKey key s)).mem.bytes
      (ttyHistory r + (recallRow r screen (takeKey key s)).inputLen) = 0 := by
    rw [hstrlen]
    exact hcs.nul
  have hreads : (recallRow r screen (takeKey key s)).reads = true := by
    rw [Tty.reads, hstrlen, decide_eq_true hlen]
    rfl
  exact ⟨⟨⟨h.size, h.lst, h.fst, walkStep_le key h.le, hrow, hended, hnul, hreads⟩, rfl, rfl,
    hsame, fun _ => hloaded⟩, hloaded⟩

/-- One key. -/
theorem Walking.press {n k : Nat} {s : Tty} (h : Walking n k s) {key : Byte}
    (hkey : key = keyUp ∨ key = keyDown) :
    Walked n (walkStep n key k) s (pressKey key s) ∧
      ((pressKey key s).historyPtr ≠ s.historyPtr → RowLoaded (pressKey key s)) := by
  rcases pressKey_walks hkey s with ⟨hend, screen, heq⟩ | ⟨r, screen, hrecalls, heq⟩
  · rw [heq, h.walkStep_of_end hend]
    have hreads : ({ takeKey key s with screen := screen } : Tty).reads = true := by
      have hlen := h.reads
      rw [Tty.reads, Bool.and_eq_true] at hlen ⊢
      exact ⟨hlen.1, rfl⟩
    exact ⟨⟨⟨h.size, h.lst, h.fst, h.le, h.ptr, h.ended, h.nul, hreads⟩, rfl, rfl,
      fun _ => rfl, fun hloaded => ⟨hloaded.buf, hloaded.line⟩⟩, fun hne => absurd rfl hne⟩
  · rw [heq]
    obtain ⟨hwalked, hloaded⟩ := h.recall hrecalls screen
    exact ⟨hwalked, fun _ => hloaded⟩

/-- A list of them. -/
theorem Walking.pressKeys {n k : Nat} {s : Tty} (h : Walking n k s) {keys : List Byte}
    (hkeys : ∀ key ∈ keys, key = keyUp ∨ key = keyDown) :
    Walked n (keys.foldl (fun k key => walkStep n key k) k) s (pressKeys keys s) ∧
      (leavesRow keys s = true → RowLoaded (pressKeys keys s)) := by
  induction keys generalizing k s with
  | nil => exact ⟨⟨h, rfl, rfl, fun _ => rfl, id⟩, fun hleaves => nomatch hleaves⟩
  | cons key keys ih =>
      obtain ⟨hone, hmoved⟩ := h.press (hkeys key List.mem_cons_self)
      obtain ⟨hrest, hleft⟩ := ih hone.walking fun d hd => hkeys d (List.mem_cons_of_mem _ hd)
      refine ⟨⟨hrest.walking, hrest.fst.trans hone.fst, hrest.lst.trans hone.lst,
        fun a => (hrest.text a).trans (hone.text a), fun hloaded => ?_⟩, fun hleaves => ?_⟩
      · exact hrest.loaded (hone.loaded hloaded)
      · rw [leavesRow, Bool.or_eq_true, bne_iff_ne] at hleaves
        rcases hleaves with hmoves | hleaves
        · exact hrest.loaded (hmoved hmoves)
        · exact hleft hleaves

/-- The start of `tty_read`. -/
theorem Segmented.walking {s : Tty} {rows : List Nat} (h : Segmented (ttyReadStart s) rows)
    (hs : Between s) (htidy : Tidy none s.mem) :
    ∃ k, Walking (segmentLength (ttyReadStart s)) k (ttyReadStart s) := by
  obtain ⟨k, hk, hptr⟩ := h.ptr
  have hzero : 0 < ttyInputSize := by decide
  have hnul : (ttyReadStart s).mem.bytes (ttyHistory (ttyReadStart s).historyLst + 0) = 0 :=
    Store.bytes_put_same _ _ _
  have hall := (htidy.read hs).close ⟨0, hzero, hnul⟩
  refine ⟨k, ?_⟩
  rw [h.length_eq]
  exact ⟨recentRows_length_lt rows, h.lst, h.fst, hk, hptr,
    fun r hr => hall.ended r hr (Option.some_ne_none r).symm, hnul, rfl⟩

/-- In every session of every run. -/
theorem SegmentKept.walks {s : Session} {rows : Option (List Nat)} (h : SegmentKept s rows)
    (hreader : s.reader = none) {keys : List Byte}
    (hkeys : ∀ key ∈ keys, key = keyUp ∨ key = keyDown) :
    WalksHistory (ttyReadStart s.tty) keys := by
  obtain ⟨s, reader, submitted⟩ := s
  have hnone : reader = none := hreader
  subst hnone
  obtain ⟨⟨hbetween, htidy⟩, hkept⟩ := h
  have hstart : ∃ rows, Segmented (ttyReadStart s) rows := by
    cases rows with
    | none => exact ⟨_, (Unused.segmented hkept).2.read.1⟩
    | some rows => exact ⟨_, (Segmented.newBuf hkept htidy).read.1⟩
  obtain ⟨rows', hsegmented⟩ := hstart
  obtain ⟨k, hwalking⟩ := hsegmented.walking hbetween htidy
  obtain ⟨hwalked, hloads⟩ := hwalking.pressKeys hkeys
  have hptr := hwalked.walking.ptr
  rw [hwalked.lst] at hptr
  exact ⟨hwalking.fst, ⟨k, hwalking.le, hwalking.ptr, hptr⟩, hwalked.fst, hwalked.lst, hloads,
    hwalked.text, hwalked.walking.reads⟩

/-- In every state of a run that has called `__history_new_buf`, the history is a segment
of the ring with at most fifteen recorded rows; and in every session `KEY_UP` and
`KEY_DOWN` walk on it and change no row. -/
theorem sessionRuns_historyWalk {boot : Tty} (hboot : HistoryZero boot)
    {path : List (TtyEvent × Session)} (hrun : IsPath SessionStep (sessionStart boot) path)
    (hshort : StepsMeet LineShort (sessionStart boot) path) :
    (∀ rows, recordedRows (sessionStart boot) path none = some rows →
        OnSegment (endState (sessionStart boot) path).tty rows) ∧
      ((endState (sessionStart boot) path).reader = none →
        ∀ keys : List Byte, (∀ key ∈ keys, key = keyUp ∨ key = keyDown) →
          WalksHistory (ttyReadStart (endState (sessionStart boot) path).tty) keys) := by
  have hkept := segmentKept_of_path (segmentKept_start hboot) hrun hshort
  constructor
  · intro rows hrows
    rw [hrows] at hkept
    obtain ⟨-, hkept⟩ := hkept
    generalize endState (sessionStart boot) path = s at hkept
    obtain ⟨s, reader, submitted⟩ := s
    cases reader with
    | none => exact Segmented.onSegment hkept
    | some dest => exact Segmented.onSegment hkept.1
  · exact fun hreader keys hkeys => hkept.walks hreader hkeys

/-- `a`, then `b`; in the third session twice UP and once DOWN. -/
theorem sessionRuns_historyWalk_two :
    OnSegment (endState (sessionStart bootTty) (play [.read promptDest, .key 0x61, .key keyEnter,
        .read promptDest, .key 0x62, .key keyEnter] (sessionStart bootTty))).tty [0] ∧
      WalksHistory (ttyReadStart (endState (sessionStart bootTty) (play [.read promptDest,
        .key 0x61, .key keyEnter, .read promptDest, .key 0x62, .key keyEnter]
          (sessionStart bootTty))).tty) [keyUp, keyUp, keyDown] := by
  have hzero : HistoryZero bootTty := fun _ _ => rfl
  have hrun : IsPath SessionStep (sessionStart bootTty) (play [.read promptDest, .key 0x61,
      .key keyEnter, .read promptDest, .key 0x62, .key keyEnter] (sessionStart bootTty)) :=
    isPath_play (by decide +kernel)
  obtain ⟨hsegment, hwalks⟩ := sessionRuns_historyWalk hzero hrun (by decide +kernel)
  exact ⟨hsegment [0] (by decide +kernel), hwalks (by rfl) _ (by decide)⟩

end DonutOS.Kernel
