import DonutOS.Kernel.TtyBounds
import DonutOS.Kernel.TtyPage
import DonutOS.Kernel.TtyPuts
import DonutOS.Kernel.TtyRead

set_option autoImplicit false

/-!
# Kernel: the line on the screen (`kernel/src/tty.c`)

The handlers of the keys edit the line twice, in `tty_input_buf` and in the cells of
the screen behind the prompt.
-/

namespace DonutOS.Kernel

open DonutOS.Foundation DonutOS.Libc

/-- A cell that looks empty. -/
def Blank (c : Byte) : Prop := glyph c = 0x20

instance (c : Byte) : Decidable (Blank c) := inferInstanceAs (Decidable (glyph c = 0x20))

/-- `tty_prompt` has shown its prompt: the cursor is behind it, and the cells from there
on are blank. -/
structure Prompted (s : Tty) : Prop where
  cursor : s.screen.ttyPtr = s.promptPtr
  inside : s.promptPtr < vgaScrSize
  blank : ∀ i, s.promptPtr ≤ i → i < vgaScrSize → Blank (charAt s.screen i)

/-- A key after which the loop of `tty_read` goes on. -/
inductive KeyStep : Tty → Byte → Tty → Prop
  | key {s : Tty} {key : Byte} (henter : key ≠ keyEnter) (hreads : (pressKey key s).reads = true) :
      KeyStep s key (pressKey key s)

/-- The screen shows the line of `tty_input_buf` behind the prompt, a blank cell behind
the line, and the cursor where it is in the line. -/
structure LineShown (s : Tty) : Prop where
  cursor : s.screen.ttyPtr = s.promptPtr + s.inputPtr
  inside : s.promptPtr + s.inputLen < vgaScrSize
  shown : ∀ i < s.inputLen,
    charAt s.screen (s.promptPtr + i) = s.mem.bytes (s.inputBuf + i)
  blank : Blank (charAt s.screen (s.promptPtr + s.inputLen))

/-- The characters that `tty_puts` does not show. -/
def notShown : List Byte := [0x08, 0x0a, 0x0d, 0x1b]

/-- The line in the row `r` of the history fits on the screen, and every character of it
is shown. -/
def RowFits (s : Tty) (r : Nat) : Prop :=
  let m := (s.mem.put (s.inputBuf + s.inputLen) 0).bytes
  s.promptPtr + strlen m (ttyHistory r) < vgaScrSize ∧
    ∀ i < strlen m (ttyHistory r), m (ttyHistory r + i) ∉ notShown

instance (s : Tty) (r : Nat) : Decidable (RowFits s r) :=
  inferInstanceAs (Decidable (_ ∧ ∀ i < _, _))

/-- The key leaves the line on the screen: an inserted character is not `\r`, and there is
a cell for it with another one behind it; `KEY_BACKSPACE` and `KEY_DELETE` do not pull a
character onto the screen from the cell below it; and a recalled line fits. -/
structure KeepsOnScreen (s : Tty) (key : Byte) : Prop where
  inserts : key ∉ controlKeys → key ≠ 0x0d ∧ s.promptPtr + s.inputLen + 1 < vgaScrSize
  erases : key = keyBackspace ∨ key = keyDelete → s.inputPtr < s.inputLen →
    s.promptPtr + s.inputPtr + s.inputLen ≤ vgaScrSize ∨ Blank (charAt s.screen vgaScrSize)
  recalls : ∀ r < ttyHistorySize, Recalls key s r → RowFits s r

/-! ## A line behind the prompt -/

/-- The line is on the screen from the cell `p` on, and everything behind it is blank. -/
structure LineOn (screen : Screen) (p : Nat) (l : Line Byte) : Prop where
  cursor : screen.ttyPtr = p + l.cursor
  cells : PaddedText Blank (charAt screen) p vgaScrSize l.text

namespace LineOn

variable {screen : Screen} {p : Nat} {l l' : Line Byte}

theorem cursor_lt (h : LineOn screen p l) : screen.ttyPtr < vgaScrSize := by
  have hinside := h.cells.inside
  have hin := l.inside
  have hcursor := h.cursor
  omega

/-- The hardware cursor follows. -/
theorem update (h : LineOn screen p l) : LineOn (ttyUpdateCursor screen) p l := by
  rw [ttyUpdateCursor_of_lt h.cursor_lt]
  exact ⟨h.cursor, h.cells⟩

/-- The cells are right, and the cursor moves to where it belongs. -/
theorem addPtr {d : Nat} (hcells : PaddedText Blank (charAt screen) p vgaScrSize l.text)
    (hcursor : (screen.ttyPtr + d) % 2 ^ 32 = p + l.cursor) :
    LineOn (ttyUpdateCursor (Kernel.addPtr d screen)) p l := by
  have hon : LineOn (Kernel.addPtr d screen) p l := ⟨hcursor, hcells⟩
  exact hon.update

/-- The cursor moves in the line. -/
theorem move {d : Nat} (h : LineOn screen p l) (htext : l'.text = l.text)
    (hcursor : (p + l.cursor + d) % 2 ^ 32 = p + l'.cursor) :
    LineOn (ttyUpdateCursor (Kernel.addPtr d screen)) p l' := by
  apply addPtr
  · rw [htext]
    exact h.cells
  · rw [h.cursor]
    exact hcursor

/-- Only the text and the place of the cursor in it count. -/
theorem of_eq (h : LineOn screen p l) (htext : l'.text = l.text) (hcursor : l'.cursor = l.cursor) :
    LineOn screen p l' := by
  refine ⟨?_, ?_⟩
  · rw [hcursor]
    exact h.cursor
  · rw [htext]
    exact h.cells

end LineOn

/-! ## Moves -/

theorem handleLeft_lineOn {s : Tty} {p : Nat} {l : Line Byte} (h : Editing s l)
    (hon : LineOn s.screen p l) : LineOn (handleLeft s).screen p l.left := by
  have hptr := h.ptr
  have hle := h.ptr_le
  have hlen := h.len
  have hinside : p + l.text.length < 2000 := hon.cells.inside
  have htext : l.left.text = l.text := rfl
  have hcursor : l.left.cursor = l.cursor - 1 := rfl
  rw [handleLeft]
  split
  · apply hon.move htext
    unfold minusOne
    omega
  · apply hon.of_eq htext
    omega

theorem handleRight_lineOn {s : Tty} {p : Nat} {l : Line Byte} (h : Editing s l)
    (hon : LineOn s.screen p l) : LineOn (handleRight s).screen p l.right := by
  have hptr := h.ptr
  have hle := h.ptr_le
  have hlen := h.len
  have hinside : p + l.text.length < 2000 := hon.cells.inside
  have htext : l.right.text = l.text := rfl
  have hcursor : l.right.cursor = min (l.cursor + 1) l.text.length := rfl
  rw [handleRight]
  split
  · apply hon.move htext
    omega
  · apply hon.of_eq htext
    omega

theorem handleHome_lineOn {s : Tty} {p : Nat} {l : Line Byte} (h : Editing s l)
    (hon : LineOn s.screen p l) : LineOn (handleHome s).screen p l.home := by
  have hptr := h.ptr
  have hle := h.ptr_le
  have hlen := h.len
  have hinside : p + l.text.length < 2000 := hon.cells.inside
  have htext : l.home.text = l.text := rfl
  have hcursor : l.home.cursor = 0 := rfl
  rw [handleHome]
  apply hon.move htext
  omega

theorem handleEnd_lineOn {s : Tty} {p : Nat} {l : Line Byte} (h : Editing s l)
    (hon : LineOn s.screen p l) : LineOn (handleEnd s).screen p l.toEnd := by
  have hptr := h.ptr
  have hle := h.ptr_le
  have hlen := h.len
  have hinside : p + l.text.length < 2000 := hon.cells.inside
  have htext : l.toEnd.text = l.text := rfl
  have hcursor : l.toEnd.cursor = l.text.length := rfl
  rw [handleEnd]
  apply hon.move htext
  omega

/-! ## Deletions -/

/-- The loop that shifts cells to the left. -/
theorem shiftLeft_spec {lo hi : Nat} (hle : lo ≤ hi) (s : Screen) :
    (shiftLeft lo hi s).ttyPtr = s.ttyPtr ∧
      ∀ j, charAt (shiftLeft lo hi s) j =
        if lo ≤ j ∧ j < hi then charAt s (j + 1) else charAt s j := by
  have hloop := forLoop_invariant (fun i (t : Screen) => t.ttyPtr = s.ttyPtr ∧
      ∀ j, charAt t j = if lo ≤ j ∧ j < i then charAt s (j + 1) else charAt s j)
    (f := fun i t => setCell i (t.ttyBuffer (i + 1)) t) (hi - lo) lo s ?_ ?_
  · rw [Nat.add_sub_cancel' hle] at hloop
    exact hloop
  · refine ⟨rfl, fun j => ?_⟩
    rw [if_neg (by omega)]
  · intro i t hlo _ h
    obtain ⟨hptr, hcells⟩ := h
    refine ⟨hptr, fun j => ?_⟩
    have hread : charAt t (i + 1) = charAt s (i + 1) := by
      rw [hcells, if_neg (by omega)]
    rw [charAt_setCell]
    split
    · next hj =>
        rw [if_pos (by omega), hj]
        exact hread
    · rw [hcells]
      exact if_congr (by omega) rfl rfl

/-- The shift, and the cell that is blanked behind it. -/
theorem shiftLeft_setCell {lo hi b : Nat} (hle : lo ≤ hi) (c : BitVec 16) (s : Screen) :
    let t := shiftLeft lo hi s
    (setCell b (vgaEntry c t.ttyColor) t).ttyPtr = s.ttyPtr ∧
      ∀ j, charAt (setCell b (vgaEntry c t.ttyColor) t) j =
        if j = b then c.setWidth 8
        else if lo ≤ j ∧ j < hi then charAt s (j + 1) else charAt s j := by
  obtain ⟨hptr, hcells⟩ := shiftLeft_spec hle s
  refine ⟨hptr, fun j => ?_⟩
  rw [charAt_setCell, setWidth_vgaEntry, hcells]

theorem handleDelete_lineOn {s : Tty} {p : Nat} {l : Line Byte} (h : Editing s l)
    (hon : LineOn s.screen p l)
    (hpulled : s.inputPtr < s.inputLen →
      p + s.inputPtr + s.inputLen ≤ vgaScrSize ∨ Blank (charAt s.screen vgaScrSize)) :
    LineOn (handleDelete s).screen p l.deleteAt := by
  have hptr := h.ptr
  have hlen := h.len
  have hcursor := hon.cursor
  have hinside : p + l.text.length < 2000 := hon.cells.inside
  rw [handleDelete]
  split
  · next hin =>
      have hlast : (p + l.cursor + s.inputLen + minusOne) % 2 ^ 32 =
          p + l.cursor + s.inputLen - 1 := by
        unfold minusOne
        omega
      have hle : p + l.cursor ≤ p + l.cursor + s.inputLen - 1 := by omega
      obtain ⟨hsame, hcells⟩ :=
        shiftLeft_setCell (b := p + l.cursor + s.inputLen - 1) hle 0 s.screen
      have hpulled' := hpulled hin.2
      have hbelow : p + l.cursor + s.inputLen - 1 < vgaScrSize ∨
          Blank (charAt s.screen vgaScrSize) := by
        refine hpulled'.imp_left fun hfits => ?_
        rw [hptr] at hfits
        omega
      have herased := hon.cells.erase (p := l.cursor) (by omega) (by decide : Blank 0) (by omega)
        (Or.inl rfl) hbelow hcells
      apply LineOn.update
      rw [hcursor, hlast]
      exact ⟨hsame.trans hcursor, herased⟩
  · next hend =>
      have hsame : l.deleteAt.text = l.text := List.eraseIdx_of_length_le (by omega)
      exact hon.of_eq hsame rfl

theorem backspaceInside_lineOn {s : Tty} {p : Nat} {l : Line Byte} (h : Editing s l)
    (hon : LineOn s.screen p l) (hpos : 0 < s.inputPtr)
    (hpulled : p + s.inputPtr + s.inputLen ≤ vgaScrSize ∨ Blank (charAt s.screen vgaScrSize)) :
    LineOn (backspaceInside s).screen p l.deleteBefore := by
  have hptr := h.ptr
  have hlen := h.len
  have hin := l.inside
  have hinside : p + l.text.length < 2000 := hon.cells.inside
  obtain ⟨k, hk⟩ : ∃ k, l.cursor = k + 1 := ⟨l.cursor - 1, by omega⟩
  have hcursor : s.screen.ttyPtr = p + k + 1 := by
    rw [hon.cursor, hk]
    rfl
  have hfirst : (p + k + 1 + minusOne) % 2 ^ 32 = p + k := by
    unfold minusOne
    omega
  have hlast : (p + k + 1 + s.inputLen + minusOne) % 2 ^ 32 = p + k + s.inputLen := by
    unfold minusOne
    omega
  have hbehind : (p + k + 1 + s.inputLen) % 2 ^ 32 = p + k + s.inputLen + 1 := by omega
  obtain ⟨hsame, hcells⟩ := shiftLeft_setCell (b := p + k + s.inputLen + 1)
    (Nat.le_add_right (p + k) s.inputLen) 0x20 s.screen
  have hbelow : p + k + s.inputLen < vgaScrSize ∨ Blank (charAt s.screen vgaScrSize) :=
    hpulled.imp_left fun hfits => by omega
  have herased := hon.cells.erase (p := k) (by omega) (by decide : Blank 0x20) (by omega)
    (Or.inr ⟨by omega, Nat.lt_succ_self _⟩) hbelow hcells
  have htext : l.deleteBefore.text = l.text.eraseIdx k := by
    rw [Line.text_deleteBefore (by omega), hk]
    rfl
  rw [← htext] at herased
  rw [backspaceInside, hcursor, hfirst, hlast, hbehind]
  apply LineOn.addPtr herased
  rw [Line.cursor_deleteBefore, hk, hsame, hcursor]
  exact hfirst

theorem ttyWriteChar_backspace (s : Screen) :
    (ttyWriteChar 0x08 s).ttyPtr = (s.ttyPtr + (2 ^ 32 - 1)) % 2 ^ 32 ∧
      ∀ j, charAt (ttyWriteChar 0x08 s) j = charAt s j := by
  have hnl : (0x08 : BitVec 16) ≠ 0x0a := by decide
  have hcr : (0x08 : BitVec 16) ≠ 0x0d := by decide
  rw [ttyWriteChar]
  simp only [if_neg hnl, if_neg hcr, if_pos]
  refine ⟨rfl, fun j => ?_⟩
  unfold charAt
  rfl

/-- The string that wipes the character before the cursor. -/
theorem ttyPuts_wipe {s : Screen} (hpos : 0 < s.ttyPtr) (hlt : s.ttyPtr < vgaScrSize) :
    (ttyPuts (literal [0x08, 0x20, 0x08]) 0 s).1.ttyPtr = s.ttyPtr - 1 ∧
      ∀ j, charAt (ttyPuts (literal [0x08, 0x20, 0x08]) 0 s).1 j =
        if j = s.ttyPtr - 1 then 0x20 else charAt s j := by
  have hstr : StrAt (literal [0x08, 0x20, 0x08]) 0 [0x08, 0x20, 0x08] :=
    ⟨rfl, by decide, rfl, by decide, rfl, by decide, rfl⟩
  have hlt' : s.ttyPtr < 2000 := hlt
  have hwrite : writeAll [0x08, 0x20, 0x08] s =
      ttyWriteChar 0x08 (ttyWriteChar 0x20 (ttyWriteChar 0x08 s)) := rfl
  rw [ttyPuts_eq hstr (by decide) (by decide), hwrite]
  obtain ⟨hptr₁, hcells₁⟩ := ttyWriteChar_backspace s
  generalize ttyWriteChar 0x08 s = s₁ at hptr₁ hcells₁
  obtain ⟨hptr₂, hcells₂⟩ := ttyWriteChar_charAt (c := 0x20) (s := s₁)
    (by decide) (by decide) (by decide) (by omega)
  generalize ttyWriteChar 0x20 s₁ = s₂ at hptr₂ hcells₂
  obtain ⟨hptr₃, hcells₃⟩ := ttyWriteChar_backspace s₂
  generalize ttyWriteChar 0x08 s₂ = s₃ at hptr₃ hcells₃
  have hback : s₃.ttyPtr = s.ttyPtr - 1 := by omega
  have hinside : s₃.ttyPtr < vgaScrSize := by omega
  have hfirst : s₁.ttyPtr = s.ttyPtr - 1 := by omega
  rw [ttyUpdateCursor_of_lt hinside]
  refine ⟨hback, fun j => ?_⟩
  rw [charAt_vgaMoveCursorTo, hcells₃, hcells₂, hcells₁, hfirst]
  rfl

theorem handleBackspace_lineOn {s : Tty} {p : Nat} {l : Line Byte} (h : Editing s l)
    (hon : LineOn s.screen p l)
    (hpulled : s.inputPtr < s.inputLen →
      p + s.inputPtr + s.inputLen ≤ vgaScrSize ∨ Blank (charAt s.screen vgaScrSize)) :
    LineOn (handleBackspace s).screen p l.deleteBefore := by
  have hptr := h.ptr
  have hlen := h.len
  have hle := h.ptr_le
  have hcursor := hon.cursor
  have hinside : p + l.text.length < 2000 := hon.cells.inside
  rw [handleBackspace]
  split
  · next hpos =>
      split
      · next hend =>
          obtain ⟨hback, hcells⟩ := ttyPuts_wipe (by omega) hon.cursor_lt
          refine ⟨?_, ?_⟩
          · rw [hback, hcursor, Line.cursor_deleteBefore]
            omega
          · rw [Line.text_deleteBefore (by omega)]
            have hbelow : s.screen.ttyPtr - 1 < vgaScrSize :=
              Nat.lt_of_le_of_lt (Nat.sub_le _ _) hon.cursor_lt
            refine hon.cells.erase (by omega) (by decide : Blank 0x20) (by omega) (Or.inl rfl)
              (Or.inl hbelow) fun j => ?_
            have hnone : ¬ (p + (l.cursor - 1) ≤ j ∧ j < s.screen.ttyPtr - 1) := by omega
            rw [hcells, if_neg hnone]
      · exact backspaceInside_lineOn h hon hpos.2 (hpulled (by omega))
  · have hsame : l.deleteBefore = l := dif_neg (by omega)
    rw [hsame]
    exact hon

/-! ## Insertion -/

/-- The loop that makes room for a character moves the cells from the cursor on. -/
theorem makeRoom_cells {s : Tty} (hptr : s.inputPtr ≤ s.inputLen)
    (hfits : s.screen.ttyPtr + s.inputLen < 2 ^ 32) :
    let t := downLoop makeRoom s.inputLen (s.inputLen - s.inputPtr) s
    t.screen.ttyPtr = s.screen.ttyPtr ∧ ∀ j, charAt t.screen j =
      if s.screen.ttyPtr < j ∧ j ≤ s.screen.ttyPtr + (s.inputLen - s.inputPtr) then
        charAt s.screen (j - 1)
      else charAt s.screen j := by
  have hloop := downLoop_invariant (fun i (t : Tty) =>
      t.screen.ttyPtr = s.screen.ttyPtr ∧ t.inputPtr = s.inputPtr ∧ ∀ j, charAt t.screen j =
        if s.screen.ttyPtr + (i - s.inputPtr) < j ∧
            j ≤ s.screen.ttyPtr + (s.inputLen - s.inputPtr) then
          charAt s.screen (j - 1)
        else charAt s.screen j)
    (f := makeRoom) (s.inputLen - s.inputPtr) s.inputPtr s ?_ ?_
  · rw [Nat.add_sub_cancel' hptr, Nat.sub_self] at hloop
    exact ⟨hloop.1, hloop.2.2⟩
  · refine ⟨rfl, rfl, fun j => ?_⟩
    rw [if_neg (by omega)]
  · intro i t hlo hhi ht
    obtain ⟨hcursor, hin, hcells⟩ := ht
    refine ⟨hcursor, hin, fun j => ?_⟩
    have hto : (t.screen.ttyPtr + (i - t.inputPtr)) % 2 ^ 32 =
        s.screen.ttyPtr + (i - s.inputPtr) := by
      rw [hcursor, hin]
      omega
    have hfrom : (t.screen.ttyPtr + (i - t.inputPtr - 1)) % 2 ^ 32 =
        s.screen.ttyPtr + (i - s.inputPtr) - 1 := by
      rw [hcursor, hin]
      omega
    have hread : charAt t.screen (s.screen.ttyPtr + (i - s.inputPtr) - 1) =
        charAt s.screen (s.screen.ttyPtr + (i - s.inputPtr) - 1) := by
      rw [hcells, if_neg (by omega)]
    rw [makeRoom, hto, hfrom]
    refine charAt_setCell.trans ?_
    split
    · next hj =>
        rw [if_pos (by omega), hj]
        exact hread
    · rw [hcells]
      exact if_congr (by omega) rfl rfl

theorem handleOther_lineOn {s : Tty} {p : Nat} {l : Line Byte} {key : Byte} (h : Editing s l)
    (hon : LineOn s.screen p l) (henter : key ≠ keyEnter) (hbackspace : key ≠ keyBackspace)
    (hcr : key ≠ 0x0d) (hroom : p + s.inputLen + 1 < vgaScrSize) :
    LineOn (handleOther key s).screen p (l.insert key) := by
  have hlen := h.len
  have hptr := h.ptr
  have hle := h.ptr_le
  have hcursor := hon.cursor
  have hinside : p + l.text.length < 2000 := hon.cells.inside
  obtain ⟨hsame, hmoved⟩ := makeRoom_cells hle (by omega)
  rw [handleOther_eq key hle rfl]
  generalize downLoop makeRoom s.inputLen (s.inputLen - s.inputPtr) s = t at hsame hmoved
  have hother : ∀ {d : Byte}, key ≠ d → key.setWidth 16 ≠ d.setWidth 16 :=
    fun hne heq => hne (setWidth_eq_iff.mp heq)
  obtain ⟨hnext, hwritten⟩ := ttyWriteChar_charAt (c := key.setWidth 16) (s := t.screen)
    (hother henter) (hother hcr) (hother hbackspace) (by omega)
  change LineOn (ttyUpdateCursor (ttyWriteChar (key.setWidth 16) t.screen)) p (l.insert key)
  generalize ttyWriteChar (key.setWidth 16) t.screen = u at hnext hwritten
  apply LineOn.update
  refine ⟨?_, hon.cells.insert l.inside (hlen ▸ hroom) fun j => ?_⟩
  · rw [hnext, hsame, hcursor]
    rfl
  · rw [hwritten, hsame, hmoved, hcursor, BitVec.setWidth_setWidth_of_le _ (by decide),
      BitVec.setWidth_eq]
    have hlast : p + l.cursor + (s.inputLen - s.inputPtr) = p + l.text.length := by omega
    rw [hlast]

/-! ## Recalled lines -/

/-- A text of characters that are all shown. -/
theorem writeAll_shown {cs : List Byte} (hplain : ∀ c ∈ cs, c ∉ notShown) {s : Screen}
    (hfits : s.ttyPtr + cs.length < 2 ^ 32) :
    (writeAll cs s).ttyPtr = s.ttyPtr + cs.length ∧
      TextAt (charAt (writeAll cs s)) s.ttyPtr cs ∧
      ∀ j, j < s.ttyPtr ∨ s.ttyPtr + cs.length ≤ j → charAt (writeAll cs s) j = charAt s j := by
  induction cs generalizing s with
  | nil => exact ⟨rfl, .nil _ _, fun _ _ => rfl⟩
  | cons c cs ih =>
      rw [List.length_cons] at hfits
      have hc := hplain c List.mem_cons_self
      simp only [notShown, List.mem_cons, List.not_mem_nil, or_false, not_or] at hc
      obtain ⟨hbs, hnl, hcr, -⟩ := hc
      have hother : ∀ {d : Byte}, c ≠ d → c.signExtend 16 ≠ d.signExtend 16 :=
        fun hne heq => hne (signExtend_eq_iff.mp heq)
      obtain ⟨hnext, hwritten⟩ := ttyWriteChar_charAt (c := c.signExtend 16) (s := s)
        (hother hnl) (hother hcr) (hother hbs) (by omega)
      change (writeAll cs (ttyWriteChar (c.signExtend 16) s)).ttyPtr = _ ∧
        TextAt (charAt (writeAll cs (ttyWriteChar (c.signExtend 16) s))) _ _ ∧
          ∀ j, _ → charAt (writeAll cs (ttyWriteChar (c.signExtend 16) s)) j = _
      obtain ⟨hptr, htext, hkept⟩ := ih (fun d hd => hplain d (List.mem_cons_of_mem _ hd))
        (s := ttyWriteChar (c.signExtend 16) s) (by omega)
      generalize writeAll cs (ttyWriteChar (c.signExtend 16) s) = t at hptr htext hkept
      rw [hnext] at hptr htext hkept
      refine ⟨?_, fun i hi => ?_, fun j hj => ?_⟩
      · rw [hptr, List.length_cons]
        omega
      · cases i with
        | zero =>
            change charAt t s.ttyPtr = c
            rw [hkept _ (Or.inl (Nat.lt_succ_self _)), hwritten, if_pos rfl, setWidth_signExtend]
        | succ i =>
            have hrest := htext i (Nat.lt_of_succ_lt_succ hi)
            rw [Nat.add_assoc, Nat.add_comm 1] at hrest
            exact hrest
      · rw [List.length_cons] at hj
        rw [hkept j (by omega), hwritten, if_neg (by omega)]

/-- The loop that wipes the rest of a longer line. -/
theorem wipeLoop {n : Nat} {s : Screen} (hfits : s.ttyPtr + n < 2 ^ 32) :
    ∀ j, charAt (forLoop (fun _ => ttyWriteChar 0x20) 0 n s) j =
      if s.ttyPtr ≤ j ∧ j < s.ttyPtr + n then 0x20 else charAt s j := by
  have hloop := forLoop_invariant (fun i (t : Screen) => t.ttyPtr = s.ttyPtr + i ∧
      ∀ j, charAt t j = if s.ttyPtr ≤ j ∧ j < s.ttyPtr + i then 0x20 else charAt s j)
    (f := fun _ => ttyWriteChar 0x20) n 0 s ?_ ?_
  · rw [Nat.zero_add] at hloop
    exact hloop.2
  · refine ⟨rfl, fun j => ?_⟩
    rw [if_neg (by omega)]
  · intro i t _ hi ht
    obtain ⟨hptr, hcells⟩ := ht
    obtain ⟨hnext, hwritten⟩ := ttyWriteChar_charAt (c := 0x20) (s := t) (by decide) (by decide)
      (by decide) (by omega)
    refine ⟨by omega, fun j => ?_⟩
    rw [hwritten, hptr]
    split
    · rw [if_pos (by omega)]
      rfl
    · rw [hcells]
      exact if_congr (by omega) rfl rfl

/-- A line without characters that are not shown replaces the line behind the prompt, whose
length is `tmp`. -/
theorem historyShow_lineOn {tmp : Nat} {s : Tty} {cs : List Byte}
    (hstr : StrAt s.mem.bytes s.inputBuf cs) (hplain : ∀ c ∈ cs, c ∉ notShown)
    (hlen : s.inputLen = cs.length) (hinside : s.promptPtr + cs.length < vgaScrSize)
    (htmp : s.promptPtr + tmp < vgaScrSize)
    (hrest : ∀ i, s.promptPtr + tmp ≤ i → i < vgaScrSize → Blank (charAt s.screen i)) :
    LineOn (historyShow tmp s).screen s.promptPtr ⟨cs, cs.length, Nat.le_refl _⟩ := by
  have hinside' : s.promptPtr + cs.length < 2000 := hinside
  have htmp' : s.promptPtr + tmp < 2000 := htmp
  have hnoesc : ∀ c ∈ cs, c ≠ 0x1b := fun c hc heq => hplain c hc (heq ▸ by decide)
  have hfuel : cs.length < stringFuel := by
    unfold stringFuel
    omega
  obtain ⟨hptr, htext, hkept⟩ :=
    writeAll_shown hplain (s := { s.screen with ttyPtr := s.promptPtr })
    (by change s.promptPtr + _ < _; omega)
  have hputs := congrArg Prod.fst
    (ttyPuts_eq hstr hfuel hnoesc { s.screen with ttyPtr := s.promptPtr })
  change TextAt _ s.promptPtr cs at htext
  change _ = s.promptPtr + cs.length at hptr
  change ∀ j, j < s.promptPtr ∨ s.promptPtr + cs.length ≤ j → _ = charAt s.screen j at hkept
  generalize writeAll cs { s.screen with ttyPtr := s.promptPtr } = t at hptr htext hkept hputs
  rw [ttyUpdateCursor_of_lt (hptr ▸ hinside)] at hputs
  have hback : (s.promptPtr + s.inputLen) % 2 ^ 32 = s.promptPtr + cs.length := by omega
  have hwiped : ∀ u, (if s.inputLen < tmp then forLoop (fun _ => ttyWriteChar 0x20) 0 tmp
        (vgaMoveCursorTo t.ttyPtr t) else vgaMoveCursorTo t.ttyPtr t) = u →
      (∀ i < cs.length, charAt u (s.promptPtr + i) = charAt t (s.promptPtr + i)) ∧
        ∀ i, s.promptPtr + cs.length ≤ i → i < vgaScrSize → Blank (charAt u i) := by
    intro u hu
    split at hu
    · have hcells := wipeLoop (n := tmp) (s := vgaMoveCursorTo t.ttyPtr t)
        (by change t.ttyPtr + tmp < 2 ^ 32; omega)
      rw [hu] at hcells
      change ∀ j, _ = if t.ttyPtr ≤ j ∧ j < t.ttyPtr + tmp then 0x20 else charAt t j at hcells
      refine ⟨fun i hi => ?_, fun i hlo hhi => ?_⟩
      · rw [hcells, if_neg (by omega)]
      · rw [hcells]
        split
        · exact (by decide : Blank 0x20)
        · rw [hkept i (Or.inr hlo)]
          exact hrest i (by omega) hhi
    · next hshorter =>
        rw [← hu]
        refine ⟨fun i _ => rfl, fun i hlo hhi => ?_⟩
        rw [charAt_vgaMoveCursorTo, hkept i (Or.inr hlo)]
        exact hrest i (by omega) hhi
  rw [historyShow, hputs, hback]
  obtain ⟨hline, hblank⟩ := hwiped _ rfl
  exact ⟨rfl, htext.congr hline, hinside, hblank⟩

/-! ## A key -/

/-- The line of `tty_input_buf` is on the screen behind the prompt. -/
def Agrees (s : Tty) : Prop := ∃ l, Editing s l ∧ LineOn s.screen s.promptPtr l

theorem Agrees.lineShown {s : Tty} (h : Agrees s) : LineShown s := by
  obtain ⟨l, hediting, hon⟩ := h
  have hlen := hediting.len
  refine ⟨?_, hlen ▸ hon.cells.inside, fun i hi => ?_, ?_⟩
  · rw [hon.cursor, hediting.ptr]
  · rw [hon.cells.text i (hlen ▸ hi), hediting.text i (hlen ▸ hi)]
  · rw [hlen]
    exact hon.cells.rest _ (Nat.le_refl _) hon.cells.inside

theorem Agrees.historyMove {s : Tty} (h : Agrees s) {offset : Int} {r : Nat}
    (hr : ((s.historyPtr + offset) % 2 ^ 32).toNat % ttyHistorySize = r) (hfits : RowFits s r) :
    Agrees (historyMove offset s) := by
  obtain ⟨l, hediting, hon⟩ := h
  obtain ⟨hinside, hplain⟩ := hfits
  have hlen := hediting.len
  have hold := hon.cells.inside
  have hfuel : strlen (s.mem.put (s.inputBuf + s.inputLen) 0).bytes (ttyHistory r) <
      stringFuel := by
    have hinside' : s.promptPtr + _ < 2000 := hinside
    unfold stringFuel
    omega
  obtain ⟨cs, hstr, hstrlen⟩ := exists_strAt_strlen hfuel
  rw [← hstrlen] at hinside hplain
  have hshown : ∀ c ∈ cs, c ∉ notShown := by
    intro c hc
    obtain ⟨i, hi, rfl⟩ := List.getElem_of_mem hc
    rw [← hstr.get hi]
    exact hplain i hi
  rw [Kernel.historyMove, hr, ← hstrlen]
  refine ⟨⟨cs, cs.length, Nat.le_refl _⟩, ?_, ?_⟩
  · rw [historyShow]
    exact ⟨rfl, rfl, fun i hi => hstr.get hi⟩
  · have hrest : ∀ i, s.promptPtr + s.inputLen ≤ i → i < vgaScrSize → Blank (charAt s.screen i) :=
      fun i hlo hhi => hon.cells.rest i (hlen ▸ hlo) hhi
    have hshow := historyShow_lineOn (s := { s with
        mem := s.mem.put (s.inputBuf + s.inputLen) 0, historyPtr := r
        inputBuf := ttyHistory r, inputLen := cs.length, inputPtr := cs.length })
      hstr hshown rfl hinside (hlen ▸ hold) hrest
    exact hshow

theorem Agrees.historyPrevBuf {s : Tty} (h : Agrees s)
    (hfits : ∀ r < ttyHistorySize, Recalls keyUp s r → RowFits s r) :
    Agrees (historyPrevBuf s) := by
  rw [Kernel.historyPrevBuf]
  split
  · next hmoves =>
      have hrecalls : Recalls keyUp s _ := Or.inl ⟨rfl, hmoves, rfl⟩
      exact h.historyMove (row_before _) (hfits _ hrecalls.lt hrecalls)
  · exact h

theorem Agrees.historyNextBuf {s : Tty} (h : Agrees s)
    (hfits : ∀ r < ttyHistorySize, Recalls keyDown s r → RowFits s r) :
    Agrees (historyNextBuf s) := by
  rw [Kernel.historyNextBuf]
  split
  · next hmoves =>
      have hrecalls : Recalls keyDown s _ := Or.inr ⟨rfl, hmoves, rfl⟩
      exact h.historyMove (row_behind _) (hfits _ hrecalls.lt hrecalls)
  · exact h

/-- The keys that edit the line. -/
theorem handleKey_lineOn {key : Byte} (henter : key ≠ keyEnter) (hup : key ≠ keyUp)
    (hdown : key ≠ keyDown) {s : Tty} {l : Line Byte} (h : Editing s l)
    (hon : LineOn s.screen s.promptPtr l) (hkeeps : KeepsOnScreen s key) :
    LineOn (handleKey key s).screen s.promptPtr (l.apply (keyEdit key)) := by
  have hinserts := hkeeps.inserts
  have herases := hkeeps.erases
  rw [handleKey, if_neg hup, if_neg hdown, keyEdit]
  split
  · exact handleLeft_lineOn h hon
  split
  · exact handleRight_lineOn h hon
  split
  · exact handleHome_lineOn h hon
  split
  · exact handleEnd_lineOn h hon
  split
  · next hkey => exact handleBackspace_lineOn h hon (herases (Or.inl hkey))
  split
  · next hkey => exact handleDelete_lineOn h hon (herases (Or.inr hkey))
  · next hleft hright hhome hend hbackspace hdelete =>
      have hother : key ∉ controlKeys := by
        simp only [controlKeys, List.mem_cons, List.not_mem_nil, or_false, not_or]
        exact ⟨henter, hup, hdown, hleft, hright, hhome, hend, hbackspace, hdelete⟩
      obtain ⟨hcr, hroom⟩ := hinserts hother
      exact handleOther_lineOn h hon henter hbackspace hcr hroom

theorem KeepsOnScreen.takeKey {s : Tty} {key : Byte} (h : KeepsOnScreen s key) :
    KeepsOnScreen (takeKey key s) key := ⟨h.inserts, h.erases, h.recalls⟩

theorem Agrees.takeKey {s : Tty} (h : Agrees s) (key : Byte) : Agrees (takeKey key s) := by
  obtain ⟨l, hediting, hon⟩ := h
  exact ⟨l, hediting.takeKey key, hon.cursor, hon.cells⟩

/-- Outside the handler only the lock counter of the screen changes. -/
theorem Agrees.unlock {s : Tty} (h : Agrees s) : Agrees (s.onScreen criticalSectionEnd) := by
  obtain ⟨l, hediting, hon⟩ := h
  exact ⟨l, ⟨hediting.len, hediting.ptr, hediting.text⟩, hon.cursor, hon.cells⟩

theorem Agrees.handleKey {s : Tty} {key : Byte} (h : Agrees s) (henter : key ≠ keyEnter)
    (hkeeps : KeepsOnScreen s key) : Agrees (handleKey key s) := by
  have hrecalls := hkeeps.recalls
  by_cases hup : key = keyUp
  · subst hup
    rw [Kernel.handleKey, if_pos rfl]
    exact h.historyPrevBuf hrecalls
  by_cases hdown : key = keyDown
  · subst hdown
    rw [Kernel.handleKey, if_neg hup, if_pos rfl]
    exact h.historyNextBuf hrecalls
  · obtain ⟨l, hediting, hon⟩ := h
    obtain ⟨hediting', hedited⟩ := handleKey_spec hup hdown hediting
    have hprompt : (Kernel.handleKey key s).promptPtr = s.promptPtr :=
      congrArg Fixed.promptPtr hedited.fixed
    refine ⟨_, hediting', ?_⟩
    rw [hprompt]
    exact handleKey_lineOn henter hup hdown hediting hon hkeeps

theorem KeyStep.agrees {s t : Tty} {key : Byte} (hs : Agrees s) (hkeeps : KeepsOnScreen s key)
    (hstep : KeyStep s key t) : Agrees t := by
  cases hstep with
  | key henter _ =>
      rw [pressKey_of_ne henter]
      exact ((hs.takeKey key).handleKey henter hkeeps.takeKey).unlock

/-! ## Runs -/

theorem Prompted.agrees {s : Tty} (h : Prompted s) : Agrees (ttyReadStart s) := by
  have hsame : (ttyReadStart s).screen = s.screen ∧ (ttyReadStart s).promptPtr = s.promptPtr := by
    obtain ⟨mem, ptr, fst, lst, hnew⟩ := historyNewBuf_eq s
    rw [ttyReadStart, hnew]
    exact ⟨rfl, rfl⟩
  refine ⟨.empty, ttyReadStart_editing s, ?_⟩
  rw [hsame.1, hsame.2]
  exact ⟨h.cursor, .nil _ _, h.inside, h.blank⟩

/-- A prompt on a screen that is blank behind its cursor. -/
theorem prompted_ttyPrompt {s : Tty} (hptr : s.screen.ttyPtr < vgaScrSize)
    (hblank : ∀ i, s.screen.ttyPtr < i → i < vgaScrSize → Blank (charAt s.screen i)) :
    Prompted (ttyPrompt s) := by
  have hptr' : s.screen.ttyPtr < 2000 := hptr
  obtain ⟨hnext, hwritten⟩ := ttyWriteChar_charAt (c := 0x3e) (s := s.screen) (by decide)
    (by decide) (by decide) (by omega)
  suffices h : (ttyPutc 0x3e s.screen).ttyPtr < vgaScrSize ∧
      ∀ i, (ttyPutc 0x3e s.screen).ttyPtr ≤ i → i < vgaScrSize →
        Blank (charAt (ttyPutc 0x3e s.screen) i) from ⟨rfl, h.1, h.2⟩
  rw [ttyPutc]
  generalize ttyWriteChar 0x3e s.screen = t at hnext hwritten
  rcases Nat.lt_or_ge t.ttyPtr vgaScrSize with hinside | hleft
  · rw [ttyUpdateCursor_of_lt hinside]
    refine ⟨hinside, fun i hlo hhi => ?_⟩
    change t.ttyPtr ≤ i at hlo
    rw [charAt_vgaMoveCursorTo, hwritten, if_neg (by omega)]
    exact hblank i (by omega) hhi
  · -- the prompt is in the last cell, and the screen scrolls
    have hlast : t.ttyPtr = 2000 := Nat.le_antisymm (by omega) hleft
    have hrow : ttyRow t + 1 = vgaHeight + 1 := by
      rw [ttyRow, hlast]
      rfl
    obtain ⟨hptr₁, hcells₁⟩ := ttyScroll_spec (n := 1) (by decide) t
    rw [ttyUpdateCursor_of_row (Nat.le_refl 1) (by decide) hrow]
    generalize ttyScroll ((1 : Nat) : Int) t = u at hptr₁ hcells₁
    have hfirst : u.ttyPtr = 1920 := by
      rw [hptr₁, hlast]
      rfl
    refine ⟨hfirst ▸ (by decide : 1920 < vgaScrSize), fun i hlo hhi => ?_⟩
    change u.ttyPtr ≤ i at hlo
    have hbelow : ¬ i + vgaWidth * 1 < vgaScrSize := by
      simp only [vgaScrSize, vgaHeight, vgaWidth]
      omega
    rw [charAt_vgaMoveCursorTo, hcells₁ i hhi, if_neg hbelow]
    exact (by decide : Blank 0)

/-- While every key leaves the line on the screen, the screen shows the line that Enter
would submit after each of them. -/
theorem keyRuns_lineShown {s : Tty} (hs : Prompted s) {path : List (Byte × Tty)}
    (hrun : IsPath KeyStep (ttyReadStart s) path)
    (hkeeps : StepsMeet KeepsOnScreen (ttyReadStart s) path) :
    ∀ t ∈ visited (ttyReadStart s) path, LineShown t := by
  intro t ht
  have hstep : ∀ s key t, Agrees s → KeepsOnScreen s key → KeyStep s key t → Agrees t :=
    fun _ _ _ hinv hok hone => hone.agrees hinv hok
  exact (hrun.invariant_of_stepsMeet hstep hs.agrees hkeeps t ht).lineShown

instance (key : Byte) (s : Tty) (r : Nat) : Decidable (Recalls key s r) :=
  inferInstanceAs (Decidable (_ ∨ _))

instance (s : Tty) (key : Byte) : Decidable (KeepsOnScreen s key) :=
  decidable_of_iff ((key ∉ controlKeys → key ≠ 0x0d ∧ s.promptPtr + s.inputLen + 1 < vgaScrSize) ∧
      (key = keyBackspace ∨ key = keyDelete → s.inputPtr < s.inputLen →
        s.promptPtr + s.inputPtr + s.inputLen ≤ vgaScrSize ∨
          Blank (charAt s.screen vgaScrSize)) ∧
      ∀ r < ttyHistorySize, Recalls key s r → RowFits s r)
    ⟨fun h => ⟨h.1, h.2.1, h.2.2⟩, fun h => ⟨h.inserts, h.erases, h.recalls⟩⟩

/-- The loop of `tty_read` handles the key, and goes on. -/
def keyReady (key : Byte) (s : Tty) : Prop := key ≠ keyEnter ∧ (pressKey key s).reads = true

theorem keyStep_pressKey (key : Byte) (s : Tty) (h : keyReady key s) :
    KeyStep s key (pressKey key s) := .key h.1 h.2

instance (key : Byte) (s : Tty) : Decidable (keyReady key s) := inferInstanceAs (Decidable (_ ∧ _))

/-- `a` has been submitted; the prompt is in the cell `ptr` of an empty screen. -/
def promptAfterA (ptr : Nat) : Tty :=
  let s := (endState (sessionStart bootTty) (play [.read promptDest, .key 0x61, .key keyEnter]
    (sessionStart bootTty))).tty
  ttyPrompt { s with screen := screenAt ptr }

theorem promptAfterA_prompted {ptr : Nat} (hptr : ptr < vgaScrSize) :
    Prompted (promptAfterA ptr) :=
  prompted_ttyPrompt hptr fun _ _ _ => (by decide : Blank 0)

def someKeys : List Byte :=
  [0x62, 0x63, keyLeft, 0x64, keyBackspace, keyHome, keyDelete, keyEnd, keyUp]

theorem keyRuns_lineShown_some :
    LineShown (endState (ttyReadStart (promptAfterA 80))
      (trace pressKey someKeys (ttyReadStart (promptAfterA 80)))) := by
  have hrun : IsPath KeyStep (ttyReadStart (promptAfterA 80))
      (trace pressKey someKeys (ttyReadStart (promptAfterA 80))) :=
    isPath_trace keyStep_pressKey (by decide +kernel)
  exact keyRuns_lineShown (promptAfterA_prompted (by decide)) hrun (by decide +kernel) _
    (endState_mem_visited _ _)

/-- A line that fills the last row: the screen scrolls, but `tty_prompt_ptr` stays. -/
theorem keyRuns_line_scrolled : ∃ s, Prompted s ∧ ∃ path, IsPath KeyStep (ttyReadStart s) path ∧
    ∃ t ∈ visited (ttyReadStart s) path, t.screen.ttyPtr ≠ t.promptPtr + t.inputPtr :=
  ⟨promptAfterA 1920, promptAfterA_prompted (by decide),
    trace pressKey (List.replicate 79 0x61) (ttyReadStart (promptAfterA 1920)),
    isPath_trace keyStep_pressKey (by decide +kernel), _, endState_mem_visited _ _,
    by decide +kernel⟩

end DonutOS.Kernel
