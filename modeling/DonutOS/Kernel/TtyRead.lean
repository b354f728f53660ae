import DonutOS.Kernel.TtySession
import Mathlib.Data.List.Infix

set_option autoImplicit false

/-!
# Kernel: what `tty_read` delivers (`kernel/src/tty.c`)

A session without recalled lines runs the line editor from the empty line, and
delivers its text.
-/

namespace DonutOS.Kernel

open DonutOS.Foundation DonutOS.Libc

theorem ttyReadStart_editing (s : Tty) : Editing (ttyReadStart s) .empty :=
  ⟨rfl, rfl, TextAt.nil _ _⟩

/-- A key that edits the line leaves the loop only with a full line. -/
theorem reads_of_edited {key : Byte} {s t : Tty} (h : Edited (keyEdit key) (takeKey key s) t)
    (hlen : t.inputLen < ttyInputSize) : t.reads = true := by
  have hstop : t.stopRead = false := congrArg Fixed.stopRead h.fixed
  rw [Tty.reads, hstop, decide_eq_true hlen]
  rfl

/-- A run of keys that edit the line is a run of the line editor. -/
theorem pressKeys_editing {keys : List Byte}
    (hkeys : ∀ k ∈ keys, k ≠ keyUp ∧ k ≠ keyDown ∧ k ≠ keyEnter) {s : Tty} {l : Line Byte}
    (h : Editing s l) : Editing (pressKeys keys s) (l.run (keys.map keyEdit)) := by
  induction keys generalizing s l with
  | nil => exact h
  | cons key keys ih =>
      obtain ⟨hup, hdown, henter⟩ := hkeys key List.mem_cons_self
      obtain ⟨hediting, _⟩ := pressKey_spec henter hup hdown h
      exact ih (fun k hk => hkeys k (List.mem_cons_of_mem _ hk)) hediting

/-- While the line stays short, the loop goes on. -/
theorem pressKeys_reading {keys : List Byte}
    (hkeys : ∀ k ∈ keys, k ≠ keyUp ∧ k ≠ keyDown ∧ k ≠ keyEnter) {s : Tty} {l : Line Byte}
    (h : Editing s l) (hs : Reading s) (hreads : s.reads = true)
    (hshort : ∀ typed, typed <+: keys → (l.run (typed.map keyEdit)).text.length < ttyInputSize) :
    Reading (pressKeys keys s) ∧ (pressKeys keys s).reads = true := by
  induction keys generalizing s l with
  | nil => exact ⟨hs, hreads⟩
  | cons key keys ih =>
      obtain ⟨hup, hdown, henter⟩ := hkeys key List.mem_cons_self
      obtain ⟨hediting, hedited⟩ := pressKey_spec henter hup hdown h
      have hfirst : [key] <+: key :: keys := ⟨keys, rfl⟩
      have hreads' : (pressKey key s).reads = true := by
        apply reads_of_edited hedited
        rw [hediting.len]
        exact hshort [key] hfirst
      apply ih (fun k hk => hkeys k (List.mem_cons_of_mem _ hk)) hediting (hs.press key hreads')
        hreads'
      intro typed htyped
      exact hshort (key :: typed) ((List.prefix_cons_inj key).mpr htyped)

/-- Keys after which the loop goes on are steps of the session. -/
theorem pressKeys_path {keys : List Byte} {s : Tty}
    (hreads : ∀ typed, typed <+: keys → (pressKeys typed s).reads = true) (dest : Dest)
    (submitted : List (List Byte)) :
    ∃ path, IsPath SessionStep ⟨s, some dest, submitted⟩ path ∧
      endState ⟨s, some dest, submitted⟩ path = ⟨pressKeys keys s, some dest, submitted⟩ := by
  induction keys generalizing s with
  | nil => exact ⟨[], trivial, rfl⟩
  | cons key keys ih =>
      have hfirst : [key] <+: key :: keys := ⟨keys, rfl⟩
      obtain ⟨path, hpath, hend⟩ := ih fun typed htyped =>
        hreads (key :: typed) ((List.prefix_cons_inj key).mpr htyped)
      exact ⟨(.key key, ⟨pressKey key s, some dest, submitted⟩) :: path,
        ⟨.key (hreads [key] hfirst), hpath⟩, hend⟩

/-- Characters typed into the empty line. -/
theorem pressKeys_typed {cs : List Byte} (hcs : ∀ c ∈ cs, c ∉ controlKeys)
    (hlen : cs.length < ttyInputSize) {s : Tty} (hs : Between s) :
    Reading (pressKeys cs (ttyReadStart s)) ∧
      (pressKeys cs (ttyReadStart s)).reads = true ∧
      ∃ l, Editing (pressKeys cs (ttyReadStart s)) l ∧ l.text = cs := by
  have hinserts : ∀ typed, typed <+: cs → typed.map keyEdit = typed.map .insert :=
    fun typed htyped => List.map_congr_left fun c hc =>
      keyEdit_of_inserted (hcs c (htyped.subset hc))
  have htext : ∀ typed, typed <+: cs → (Line.empty.run (typed.map keyEdit)).text = typed := by
    intro typed htyped
    rw [hinserts typed htyped]
    exact Line.run_insert_at_end typed rfl
  have hkeys : ∀ c ∈ cs, c ≠ keyUp ∧ c ≠ keyDown ∧ c ≠ keyEnter := by
    intro c hc
    refine ⟨?_, ?_, ?_⟩
    all_goals
      intro heq
      exact hcs c hc (heq ▸ by decide)
  have hshort : ∀ typed, typed <+: cs →
      (Line.empty.run (typed.map keyEdit)).text.length < ttyInputSize := by
    intro typed htyped
    rw [htext typed htyped]
    exact Nat.lt_of_le_of_lt htyped.length_le hlen
  obtain ⟨hreading, hreads⟩ := pressKeys_reading hkeys (ttyReadStart_editing s) hs.read rfl hshort
  exact ⟨hreading, hreads, _, pressKeys_editing hkeys (ttyReadStart_editing s),
    htext cs (List.prefix_refl cs)⟩

/-! ## The end of a session -/

theorem ttyHistory_le {r : Nat} (hr : r < ttyHistorySize) :
    ttyHistory r + ttyInputSize ≤ sizeofTtyHistory := by
  simp only [ttyHistory, ttyInputSize, sizeofTtyHistory, ttyHistorySize] at hr ⊢
  omega

theorem mem_ttyReadEnd (dest : Nat) (s : Tty) :
    (ttyReadEnd dest s).mem =
      memcpy dest s.inputBuf (s.inputLen + 1) (s.mem.put (s.inputBuf + s.inputLen) 0) := rfl

/-- The line of less than `TTY_INPUT_SIZE` bytes, and its NUL, are copied to the array. -/
theorem copyLine_copied {s : Tty} (hrow : ∃ r < ttyHistorySize, s.inputBuf = ttyHistory r)
    (hlen : s.inputLen < ttyInputSize) (dest : Dest) :
    Copied dest.addr s.inputBuf (s.inputLen + 1) (s.mem.put (s.inputBuf + s.inputLen) 0)
      (ttyReadEnd dest.addr s).mem := by
  obtain ⟨r, hr, hbuf⟩ := hrow
  have hin := ttyHistory_le hr
  have hapart := dest.apart
  rw [mem_ttyReadEnd]
  exact memcpy_spec (Or.inr (by omega)) _

theorem ttyReadEnd_textAt {s : Tty} {l : Line Byte} (h : Editing s l)
    (hrow : ∃ r < ttyHistorySize, s.inputBuf = ttyHistory r) (hlen : s.inputLen < ttyInputSize)
    (dest : Dest) : TextAt (ttyReadEnd dest.addr s).mem.bytes dest.addr (l.text ++ [0]) := by
  have hcopy := copyLine_copied hrow hlen dest
  refine TextAt.append_singleton (fun i hi => ?_) ?_
  · have hi' : i < s.inputLen := by
      rw [h.len]
      exact hi
    rw [hcopy.copied i (by omega), Store.bytes_put_of_ne _ _ (by omega)]
    exact h.text i hi
  · rw [← h.len, hcopy.copied _ (Nat.lt_succ_self _), Store.bytes_put_same]

/-! ## Sessions without the history -/

/-- While the line is shorter than `TTY_INPUT_SIZE`, the buffer and the cursor of
`tty_read` are those of the line editor after the same keys, and Enter delivers the
text of the line editor with a NUL behind it, and nothing else. -/
theorem ttyRead_refines_lineEditor {boot : Tty} {path : List (TtyEvent × Session)}
    (hrun : IsPath SessionStep (sessionStart boot) path) {s : Tty} {submitted : List (List Byte)}
    (hmem : ⟨s, none, submitted⟩ ∈ visited (sessionStart boot) path) (dest : Dest)
    {keys : List Byte} (hkeys : ∀ k ∈ keys, k ≠ keyUp ∧ k ≠ keyDown ∧ k ≠ keyEnter)
    (hshort : ∀ typed, typed <+: keys →
      (Line.empty.run (typed.map keyEdit)).text.length < ttyInputSize) :
    (∀ typed, typed <+: keys →
      Editing (pressKeys typed (ttyReadStart s)) (Line.empty.run (typed.map keyEdit)) ∧
        (pressKeys typed (ttyReadStart s)).inputPtr ≤ (pressKeys typed (ttyReadStart s)).inputLen ∧
        (pressKeys typed (ttyReadStart s)).reads = true) ∧
      let t := pressKey keyEnter (pressKeys keys (ttyReadStart s))
      t.reads = false ∧
        TextAt (ttyReadEnd dest.addr t).mem.bytes dest.addr
          ((Line.empty.run (keys.map keyEdit)).text ++ [0]) ∧
        (closeLine t).mem.Writes
          (fun a => dest.addr ≤ a ∧ a < dest.addr + (t.inputLen + 1))
          (ttyReadEnd dest.addr t).mem := by
  have hstart : Reading (ttyReadStart s) := (sessionRuns_sound boot hrun _ hmem : Between s).read
  have hprefix : ∀ typed, typed <+: keys →
      Editing (pressKeys typed (ttyReadStart s)) (Line.empty.run (typed.map keyEdit)) ∧
        Reading (pressKeys typed (ttyReadStart s)) ∧
        (pressKeys typed (ttyReadStart s)).reads = true := by
    intro typed htyped
    have htyped' : ∀ k ∈ typed, k ≠ keyUp ∧ k ≠ keyDown ∧ k ≠ keyEnter :=
      fun k hk => hkeys k (htyped.subset hk)
    exact ⟨pressKeys_editing htyped' (ttyReadStart_editing s),
      pressKeys_reading htyped' (ttyReadStart_editing s) hstart rfl
        fun first hfirst => hshort first (hfirst.trans htyped)⟩
  constructor
  · intro typed htyped
    obtain ⟨hediting, hreading, hreads⟩ := hprefix typed htyped
    exact ⟨hediting, hreading.ptr, hreads⟩
  · obtain ⟨hediting, hreading, -⟩ := hprefix keys (List.prefix_refl keys)
    generalize pressKeys keys (ttyReadStart s) = t at hediting hreading
    rw [pressKey_enter]
    refine ⟨Bool.and_false _, ?_, (copyLine_copied hreading.row hreading.len dest).writes⟩
    exact ttyReadEnd_textAt ⟨hediting.len, hediting.ptr, hediting.text⟩ hreading.row hreading.len
      dest

/-- `ab`, the cursor to the left, backspace, and `c`: `cb` is delivered. -/
theorem ttyRead_refines_lineEditor_typed :
    TextAt (ttyReadEnd 8192 (pressKey keyEnter (pressKeys
      [0x61, 0x62, keyLeft, keyBackspace, 0x63] (ttyReadStart (ttyInit bootTty))))).mem.bytes 8192
      [0x63, 0x62, 0] := by
  have hshort : ∀ typed ∈ [0x61, 0x62, keyLeft, keyBackspace, 0x63].inits,
      (Line.empty.run (typed.map keyEdit)).text.length < ttyInputSize := by decide
  have htext : (Line.empty.run ([0x61, 0x62, keyLeft, keyBackspace, 0x63].map keyEdit)).text =
      [0x63, 0x62] := by decide
  have hrun : IsPath SessionStep (sessionStart bootTty) [] := trivial
  have hkeys : ∀ k ∈ [0x61, 0x62, keyLeft, keyBackspace, 0x63],
      k ≠ keyUp ∧ k ≠ keyDown ∧ k ≠ keyEnter := by decide
  have hread := ttyRead_refines_lineEditor hrun (start_mem_visited _ _) ⟨8192, Nat.le_refl _⟩ hkeys
    fun typed htyped => hshort typed ((List.mem_inits _ _).mpr htyped)
  rw [htext] at hread
  exact hread.2.2.1

end DonutOS.Kernel
