import DonutOS.Foundation.LineEditor
import DonutOS.Kernel.TtyInput
import DonutOS.Libc.StrSpec

set_option autoImplicit false

/-!
# Kernel: the keys as edits of a line (`kernel/src/tty.c`)

What the handlers of the keys do to `tty_input_buf`, and that all but those of the
history run the line editor of `Foundation.LineEditor` on it.
-/

namespace DonutOS.Kernel

open DonutOS.Foundation DonutOS.Libc

/-- The edit that a key asks for.  `KEY_UP`, `KEY_DOWN` and Enter ask for none. -/
def keyEdit (key : Byte) : Edit Byte :=
  if key = keyLeft then .left
  else if key = keyRight then .right
  else if key = keyHome then .home
  else if key = keyEnd then .toEnd
  else if key = keyBackspace then .deleteBefore
  else if key = keyDelete then .deleteAt
  else .insert key

/-- The line in `tty_input_buf`. -/
structure Editing (s : Tty) (l : Line Byte) : Prop where
  len : s.inputLen = l.text.length
  ptr : s.inputPtr = l.cursor
  text : TextAt s.mem.bytes s.inputBuf l.text

theorem Editing.ptr_le {s : Tty} {l : Line Byte} (h : Editing s l) : s.inputPtr ≤ s.inputLen := by
  rw [h.ptr, h.len]
  exact l.inside

/-- The globals that an edit of the line leaves alone. -/
structure Fixed where
  kb : Kb
  promptPtr : Nat
  hasKeyReady : Bool
  lastKey : Byte
  stopRead : Bool
  inputBuf : Nat
  historyPtr : Nat
  historyFst : Nat
  historyLst : Nat

def Tty.fixed (s : Tty) : Fixed where
  kb := s.kb
  promptPtr := s.promptPtr
  hasKeyReady := s.hasKeyReady
  lastKey := s.lastKey
  stopRead := s.stopRead
  inputBuf := s.inputBuf
  historyPtr := s.historyPtr
  historyFst := s.historyFst
  historyLst := s.historyLst

/-- Between `s` and `t` the line was edited: memory has changed in the buffer only, up
to one byte behind the line, where it has the inserted byte or bytes of the buffer. -/
structure Edited (e : Edit Byte) (s t : Tty) : Prop where
  fixed : t.fixed = s.fixed
  writes : s.mem.Writes (fun a => s.inputBuf ≤ a ∧ a ≤ s.inputBuf + s.inputLen) t.mem
  bytes : ∀ i ≤ s.inputLen, e = .insert (t.mem.bytes (s.inputBuf + i)) ∨
    ∃ j ≤ s.inputLen, t.mem.bytes (s.inputBuf + i) = s.mem.bytes (s.inputBuf + j)

theorem Edited.inputBuf {e : Edit Byte} {s t : Tty} (h : Edited e s t) :
    t.inputBuf = s.inputBuf := congrArg Fixed.inputBuf h.fixed

/-- Only the cursor, the length and the screen have changed. -/
theorem edit_of_move (e : Edit Byte) (s : Tty) {l : Line Byte} (screen : Screen) {ptr len : Nat}
    (hlen : len = l.text.length) (hptr : ptr = l.cursor)
    (htext : TextAt s.mem.bytes s.inputBuf l.text) :
    Editing { s with screen := screen, inputPtr := ptr, inputLen := len } l ∧
      Edited e s { s with screen := screen, inputPtr := ptr, inputLen := len } where
  left := ⟨hlen, hptr, htext⟩
  right := ⟨rfl, .refl _ _, fun i hi => Or.inr ⟨i, hi, rfl⟩⟩

theorem edit_refl (e : Edit Byte) {s : Tty} {l : Line Byte} (h : Editing s l) :
    Editing s l ∧ Edited e s s := edit_of_move e s s.screen h.len h.ptr h.text

/-- A part of the buffer was copied onto lower bytes of it. -/
theorem edit_of_copy (e : Edit Byte) (s : Tty) {l : Line Byte} (screen : Screen) {mem : Store}
    {ptr len dest src n : Nat} (hcopy : Copied dest src n s.mem mem) (hdest : s.inputBuf ≤ dest)
    (hdown : dest ≤ src) (hsrc : src + n ≤ s.inputBuf + s.inputLen + 1)
    (hlen : len = l.text.length) (hptr : ptr = l.cursor)
    (htext : TextAt mem.bytes s.inputBuf l.text) :
    Editing { s with screen := screen, mem := mem, inputPtr := ptr, inputLen := len } l ∧
      Edited e s { s with screen := screen, mem := mem, inputPtr := ptr, inputLen := len } := by
  refine ⟨⟨hlen, hptr, htext⟩, rfl, hcopy.writes.mono fun a ha => ⟨by omega, by omega⟩, ?_⟩
  intro i hi
  by_cases hin : dest ≤ s.inputBuf + i ∧ s.inputBuf + i < dest + n
  · have hfrom := hcopy.copied (s.inputBuf + i - dest) (by omega)
    refine Or.inr ⟨src + (s.inputBuf + i - dest) - s.inputBuf, by omega, ?_⟩
    have hto : dest + (s.inputBuf + i - dest) = s.inputBuf + i := by omega
    have hback : s.inputBuf + (src + (s.inputBuf + i - dest) - s.inputBuf) =
        src + (s.inputBuf + i - dest) := by omega
    rw [hback, ← hfrom, hto]
  · exact Or.inr ⟨i, hi, hcopy.writes.frame _ hin⟩

/-! ## Moves -/

theorem handleLeft_spec {s : Tty} {l : Line Byte} (e : Edit Byte) (h : Editing s l) :
    Editing (handleLeft s) l.left ∧ Edited e s (handleLeft s) := by
  have hptr := h.ptr
  have hin := h.ptr_le
  rw [handleLeft]
  split
  · exact edit_of_move e s _ h.len (congrArg (· - 1) hptr) h.text
  · have hstart : s.inputPtr = l.cursor - 1 := by omega
    exact edit_of_move e s s.screen h.len hstart h.text

theorem handleRight_spec {s : Tty} {l : Line Byte} (e : Edit Byte) (h : Editing s l) :
    Editing (handleRight s) l.right ∧ Edited e s (handleRight s) := by
  have hptr := h.ptr
  have hlen := h.len
  have hin := h.ptr_le
  rw [handleRight]
  split
  · have hnext : s.inputPtr + 1 = min (l.cursor + 1) l.text.length := by omega
    exact edit_of_move e s _ hlen hnext h.text
  · have hstay : s.inputPtr = min (l.cursor + 1) l.text.length := by omega
    exact edit_of_move e s s.screen hlen hstay h.text

theorem handleHome_spec {s : Tty} {l : Line Byte} (e : Edit Byte) (h : Editing s l) :
    Editing (handleHome s) l.home ∧ Edited e s (handleHome s) :=
  edit_of_move e s _ h.len rfl h.text

theorem handleEnd_spec {s : Tty} {l : Line Byte} (e : Edit Byte) (h : Editing s l) :
    Editing (handleEnd s) l.toEnd ∧ Edited e s (handleEnd s) :=
  edit_of_move e s _ h.len h.len h.text

/-! ## Deletions -/

/-- `memmove` to the byte before: what is behind it has moved down. -/
theorem memmove_down {m : Store} {buf p n : Nat} {cs : List Byte} (h : TextAt m.bytes buf cs)
    (hp : p < cs.length) (hn : cs.length ≤ p + 1 + n) :
    TextAt (memmove (buf + p) (buf + (p + 1)) n m).bytes buf (cs.eraseIdx p) := by
  have hcopy := memmove_spec (Nat.lt_succ_self (buf + p)) n m
  refine h.erase hp (fun i hi => hcopy.writes.frame _ (by omega)) fun i hlo hhi => ?_
  obtain ⟨j, rfl⟩ : ∃ j, i = p + j := ⟨i - p, by omega⟩
  have hmoved := hcopy.copied j (by omega)
  have hto : buf + p + j = buf + (p + j) := Nat.add_assoc _ _ _
  have hfrom : Nat.succ (buf + p) + j = buf + (p + j + 1) := by omega
  rwa [hto, hfrom] at hmoved

theorem handleDelete_spec {s : Tty} {l : Line Byte} (e : Edit Byte) (h : Editing s l) :
    Editing (handleDelete s) l.deleteAt ∧ Edited e s (handleDelete s) := by
  have hptr := h.ptr
  have hlen := h.len
  rw [handleDelete]
  split
  · next hinside =>
      have hcopy := memmove_spec (Nat.lt_succ_self (s.inputBuf + s.inputPtr))
        (s.inputLen - s.inputPtr) s.mem
      have hlen' : s.inputLen - 1 = l.deleteAt.text.length := by
        rw [hlen]
        exact (List.length_eraseIdx_of_lt (by omega)).symm
      have htext : TextAt (memmove (s.inputBuf + s.inputPtr) (s.inputBuf + (s.inputPtr + 1))
          (s.inputLen - s.inputPtr) s.mem).bytes s.inputBuf l.deleteAt.text := by
        rw [hptr]
        exact memmove_down h.text (by omega) (by omega)
      exact edit_of_copy e s _ hcopy (by omega) (by omega) (by omega) hlen' hptr htext
  · next hend =>
      have hsame : l.deleteAt.text = l.text := List.eraseIdx_of_length_le (by omega)
      refine edit_of_move e s s.screen ?_ hptr ?_
      · rw [hsame, hlen]
      · rw [hsame]
        exact h.text

theorem backspaceInside_spec {s : Tty} {l : Line Byte} (e : Edit Byte) (h : Editing s l)
    (hpos : 0 < l.cursor) :
    Editing (backspaceInside s) l.deleteBefore ∧ Edited e s (backspaceInside s) := by
  have hptr := h.ptr
  have hlen := h.len
  have hin := l.inside
  obtain ⟨p, hp⟩ : ∃ p, l.cursor = p + 1 := ⟨l.cursor - 1, by omega⟩
  have hto : s.inputBuf + s.inputPtr - 1 = s.inputBuf + p := by omega
  have hfrom : s.inputBuf + s.inputPtr = s.inputBuf + (p + 1) := by omega
  have htext' : l.deleteBefore.text = l.text.eraseIdx p := by
    rw [Line.text_deleteBefore hpos, hp]
    rfl
  have hlen' : s.inputLen - 1 = l.deleteBefore.text.length := by
    rw [htext', List.length_eraseIdx_of_lt (by omega), hlen]
  have hptr' : s.inputPtr - 1 = l.deleteBefore.cursor := by
    rw [Line.cursor_deleteBefore, hptr]
  have hcopy := memmove_spec (Nat.lt_succ_self (s.inputBuf + p)) (s.inputLen - s.inputPtr) s.mem
  have htext : TextAt (memmove (s.inputBuf + p) (s.inputBuf + (p + 1))
      (s.inputLen - s.inputPtr) s.mem).bytes s.inputBuf l.deleteBefore.text := by
    rw [htext']
    exact memmove_down h.text (by omega) (by omega)
  rw [backspaceInside, hto, hfrom]
  exact edit_of_copy e s _ hcopy (by omega) (by omega) (by omega) hlen' hptr' htext

theorem handleBackspace_spec {s : Tty} {l : Line Byte} (e : Edit Byte) (h : Editing s l) :
    Editing (handleBackspace s) l.deleteBefore ∧ Edited e s (handleBackspace s) := by
  have hptr := h.ptr
  have hlen := h.len
  have hin := h.ptr_le
  rw [handleBackspace]
  split
  · have hpos : 0 < l.cursor := by omega
    split
    · refine edit_of_move e s _ ?_ ?_ ?_
      · rw [Line.text_deleteBefore hpos, List.length_eraseIdx_of_lt (by omega), hlen]
      · rw [Line.cursor_deleteBefore, hptr]
      · rw [Line.text_deleteBefore hpos]
        exact h.text.erase (by omega) (fun _ _ => rfl) fun i hlo hhi => by omega
    · exact backspaceInside_spec e h hpos
  · have hsame : l.deleteBefore = l := dif_neg (by omega)
    rw [hsame]
    exact edit_refl e h

/-! ## Insertion -/

/-- What the loop that makes room has done when the rounds above `i` are behind it. -/
structure RoomMade (s : Tty) (i : Nat) (t : Tty) : Prop where
  fixed : t.fixed = s.fixed
  ptr : t.inputPtr = s.inputPtr
  len : t.inputLen = s.inputLen
  moved : ∀ j, i ≤ j → j < s.inputLen →
    t.mem.bytes (s.inputBuf + (j + 1)) = s.mem.bytes (s.inputBuf + j)
  writes : s.mem.Writes (fun a => s.inputBuf + i < a ∧ a ≤ s.inputBuf + s.inputLen) t.mem

theorem RoomMade.round {s t : Tty} {i : Nat} (h : RoomMade s i t) (hpos : 0 < i)
    (hi : i ≤ s.inputLen) : RoomMade s (i - 1) (makeRoom i t) := by
  obtain ⟨k, rfl⟩ : ∃ k, i = k + 1 := ⟨i - 1, by omega⟩
  have hbuf : t.inputBuf = s.inputBuf := congrArg Fixed.inputBuf h.fixed
  have hread : t.mem.bytes (s.inputBuf + k) = s.mem.bytes (s.inputBuf + k) :=
    h.writes.frame _ (by omega)
  have hmem : (makeRoom (k + 1) t).mem =
      t.mem.put (s.inputBuf + (k + 1)) (s.mem.bytes (s.inputBuf + k)) := by
    rw [← hread, ← hbuf]
    rfl
  refine ⟨h.fixed, h.ptr, h.len, fun j hlo hhi => ?_, ?_⟩
  · rw [hmem, Store.bytes_put]
    split
    · next hat =>
        have hk : j = k := by omega
        rw [hk]
    · exact h.moved j (by omega) hhi
  · rw [hmem]
    exact .trans (h.writes.mono fun a ha => ⟨by omega, ha.2⟩) (.put _ _ ⟨by omega, by omega⟩)

/-- The loop that makes room for a character at the cursor. -/
theorem makeRoom_loop {s : Tty} (hptr : s.inputPtr ≤ s.inputLen) :
    RoomMade s s.inputPtr (downLoop makeRoom s.inputLen (s.inputLen - s.inputPtr) s) := by
  have hsum : s.inputPtr + (s.inputLen - s.inputPtr) = s.inputLen := Nat.add_sub_cancel' hptr
  have hstart : RoomMade s (s.inputPtr + (s.inputLen - s.inputPtr)) s := by
    rw [hsum]
    exact ⟨rfl, rfl, rfl, fun j hlo hhi => by omega, .refl _ _⟩
  have hloop := downLoop_invariant (RoomMade s) (s.inputLen - s.inputPtr) s.inputPtr s hstart
    fun i t hlo hhi h => h.round (by omega) (by omega)
  rwa [hsum] at hloop

/-- `handleOther` with the loop run in any case: it has no rounds at the end of the line. -/
theorem handleOther_eq (key : Byte) {s t : Tty} (hptr : s.inputPtr ≤ s.inputLen)
    (ht : downLoop makeRoom s.inputLen (s.inputLen - s.inputPtr) s = t) :
    handleOther key s = { t with
      inputLen := t.inputLen + 1, mem := t.mem.put (t.inputBuf + t.inputPtr) key
      inputPtr := t.inputPtr + 1, screen := ttyPutc (key.setWidth 16) t.screen } := by
  rw [handleOther, ht]
  by_cases hend : s.inputPtr < s.inputLen
  · rw [if_pos hend]
  · have hnone : s.inputLen - s.inputPtr = 0 := by omega
    rw [hnone] at ht
    rw [if_neg hend, show s = t from ht]

theorem handleOther_spec {s : Tty} {l : Line Byte} (key : Byte) (h : Editing s l) :
    Editing (handleOther key s) (l.insert key) ∧ Edited (.insert key) s (handleOther key s) := by
  have hin := h.ptr_le
  have hroom := makeRoom_loop hin
  have heq := handleOther_eq key hin rfl
  generalize downLoop makeRoom s.inputLen (s.inputLen - s.inputPtr) s = t at hroom heq
  have hbuf : t.inputBuf = s.inputBuf := congrArg Fixed.inputBuf hroom.fixed
  have hput : t.inputBuf + t.inputPtr = s.inputBuf + s.inputPtr := by rw [hbuf, hroom.ptr]
  rw [heq, hput]
  have hmoved : ∀ i, s.inputPtr ≤ i → i < s.inputLen →
      (t.mem.put (s.inputBuf + s.inputPtr) key).bytes (s.inputBuf + (i + 1)) =
        s.mem.bytes (s.inputBuf + i) := by
    intro i hlo hhi
    rw [Store.bytes_put_of_ne _ _ (by omega)]
    exact hroom.moved i hlo hhi
  have hbefore : ∀ i < s.inputPtr,
      (t.mem.put (s.inputBuf + s.inputPtr) key).bytes (s.inputBuf + i) =
        s.mem.bytes (s.inputBuf + i) := by
    intro i hi
    rw [Store.bytes_put_of_ne _ _ (by omega)]
    exact hroom.writes.frame _ (by omega)
  have hat : (t.mem.put (s.inputBuf + s.inputPtr) key).bytes (s.inputBuf + s.inputPtr) = key :=
    Store.bytes_put_same _ _ _
  have hptr : t.inputPtr + 1 = l.cursor + 1 := by rw [hroom.ptr, h.ptr]
  refine ⟨⟨?_, hptr, ?_⟩, hroom.fixed, ?_, fun i hi => ?_⟩
  · exact (congrArg (· + 1) (hroom.len.trans h.len)).trans
      (List.length_insertIdx_of_le_length l.inside _).symm
  · change TextAt (t.mem.put _ key).bytes t.inputBuf (l.text.insertIdx l.cursor key)
    rw [hbuf, ← h.ptr]
    exact h.text.insert (h.len ▸ hin) hbefore hat fun i hlo hhi => hmoved i hlo (h.len ▸ hhi)
  · exact .trans (hroom.writes.mono fun a ha => ⟨by omega, ha.2⟩) (.put _ _ ⟨by omega, by omega⟩)
  · rcases Nat.lt_trichotomy i s.inputPtr with hlt | rfl | hgt
    · exact Or.inr ⟨i, hi, hbefore i hlt⟩
    · exact Or.inl (congrArg Edit.insert hat.symm)
    · obtain ⟨k, rfl⟩ : ∃ k, i = k + 1 := ⟨i - 1, by omega⟩
      exact Or.inr ⟨k, by omega, hmoved k (by omega) (by omega)⟩

/-! ## The dispatch -/

/-- Every key but those of the history edits the line. -/
theorem handleKey_spec {key : Byte} (hup : key ≠ keyUp) (hdown : key ≠ keyDown) {s : Tty}
    {l : Line Byte} (h : Editing s l) :
    Editing (handleKey key s) (l.apply (keyEdit key)) ∧
      Edited (keyEdit key) s (handleKey key s) := by
  rw [handleKey, if_neg hup, if_neg hdown, keyEdit]
  split
  · exact handleLeft_spec _ h
  split
  · exact handleRight_spec _ h
  split
  · exact handleHome_spec _ h
  split
  · exact handleEnd_spec _ h
  split
  · exact handleBackspace_spec _ h
  split
  · exact handleDelete_spec _ h
  · exact handleOther_spec key h

end DonutOS.Kernel
