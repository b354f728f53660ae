import DonutOS.Kernel.Tty

set_option autoImplicit false

/-!
# Kernel: what the functions of the screen do

For each function of `tty.c` that writes to the screen: the cells, the cursor and
the colour it leaves.
-/

namespace DonutOS.Kernel

open DonutOS.Foundation

/-! ## Cells -/

/-- The character byte of a cell. -/
def charAt (s : Screen) (i : Nat) : Byte := (s.ttyBuffer i).setWidth 8

theorem ttyBuffer_setCell (i j : Nat) (entry : Entry) (s : Screen) :
    (setCell i entry s).ttyBuffer j = if j = i then entry else s.ttyBuffer j := by
  by_cases hj : j = i
  · rw [if_pos hj, hj]
    exact Function.update_self _ _ _
  · rw [if_neg hj]
    exact Function.update_of_ne hj _ _

theorem charAt_setCell {s : Screen} {i j : Nat} {entry : Entry} :
    charAt (setCell i entry s) j = if j = i then entry.setWidth 8 else charAt s j := by
  rw [charAt, ttyBuffer_setCell, apply_ite (BitVec.setWidth 8)]
  rfl

/-- The character of an entry is its character, whatever the colour. -/
theorem setWidth_vgaEntry (c color : BitVec 16) :
    (vgaEntry c color).setWidth 8 = c.setWidth 8 := by
  unfold vgaEntry
  ext i hi
  simp [Nat.lt_of_lt_of_le hi]

theorem setWidth_and_ff (c : BitVec 16) : (c &&& 0xff).setWidth 8 = c.setWidth 8 := by
  have hmask : (0xff : BitVec 16).setWidth 8 = BitVec.allOnes 8 := by decide
  rw [BitVec.setWidth_and, hmask, BitVec.and_allOnes]

theorem charAt_vgaMoveCursorTo (index j : Nat) (s : Screen) :
    charAt (vgaMoveCursorTo index s) j = charAt s j := rfl

theorem setWidth_eq_iff {c d : Byte} : c.setWidth 16 = d.setWidth 16 ↔ c = d := by
  constructor
  · intro h
    have hback := congrArg (BitVec.setWidth 8) h
    rwa [BitVec.setWidth_setWidth_of_le _ (by decide),
      BitVec.setWidth_setWidth_of_le _ (by decide), BitVec.setWidth_eq,
      BitVec.setWidth_eq] at hback
  · exact congrArg _

/-! ## Scrolling -/

/-- A cell as `tty_scroll` moves it. -/
def recolor (color : BitVec 16) (entry : Entry) : Entry := vgaEntry (entry &&& 0xff) color

theorem setWidth_recolor (color : BitVec 16) (entry : Entry) :
    (recolor color entry).setWidth 8 = entry.setWidth 8 := by
  rw [recolor, setWidth_vgaEntry, setWidth_and_ff]

/-- Only the character of a cell counts. -/
theorem recolor_congr (color : BitVec 16) {e f : Entry} (h : e.setWidth 8 = f.setWidth 8) :
    recolor color e = recolor color f := by
  have hmask : ∀ x : Entry, x &&& 0xff = 0#8 ++ x.setWidth 8 :=
    BitVec.and_setWidth_allOnes 8 8
  rw [recolor, recolor, hmask e, hmask f, h]

/-- A blank is moved as a blank. -/
theorem recolor_blank (color : BitVec 16) :
    recolor color (vgaEntry 0 color) = vgaEntry 0 color := by
  rw [recolor_congr color (setWidth_vgaEntry 0 color : _ = BitVec.setWidth 8 (0 : Entry))]
  rfl

/-- The first loop of `tty_scroll`: every cell gets the character `gap` further on,
which the loop has not written yet. -/
theorem shiftLoop (gap n : Nat) (s : Screen) :
    (forLoop (shiftCell gap) 0 n s).ttyPtr = s.ttyPtr ∧
      (forLoop (shiftCell gap) 0 n s).ttyColor = s.ttyColor ∧
      ∀ j, (forLoop (shiftCell gap) 0 n s).ttyBuffer j =
        if j < n then recolor s.ttyColor (s.ttyBuffer (j + gap)) else s.ttyBuffer j := by
  have hround : ∀ i s', 0 ≤ i → i < 0 + n →
      (s'.ttyPtr = s.ttyPtr ∧ s'.ttyColor = s.ttyColor ∧ ∀ j, s'.ttyBuffer j =
        if j < i then recolor s.ttyColor (s.ttyBuffer (j + gap)) else s.ttyBuffer j) →
      (shiftCell gap i s').ttyPtr = s.ttyPtr ∧ (shiftCell gap i s').ttyColor = s.ttyColor ∧
        ∀ j, (shiftCell gap i s').ttyBuffer j =
          if j < i + 1 then recolor s.ttyColor (s.ttyBuffer (j + gap)) else s.ttyBuffer j := by
    intro i s' _ _ h
    obtain ⟨hptr, hcolor, hcells⟩ := h
    refine ⟨hptr, hcolor, fun j => ?_⟩
    have hread : s'.ttyBuffer (i + gap) = s.ttyBuffer (i + gap) := by
      rw [hcells (i + gap), if_neg (by omega)]
    rw [shiftCell, ttyBuffer_setCell, hread, hcolor, hcells j]
    by_cases hj : j = i
    · rw [if_pos hj, if_pos (by omega), hj]
      rfl
    · rw [if_neg hj]
      exact if_congr (by omega) rfl rfl
  have hloop := forLoop_invariant (fun i s' => s'.ttyPtr = s.ttyPtr ∧ s'.ttyColor = s.ttyColor ∧
    ∀ j, s'.ttyBuffer j =
      if j < i then recolor s.ttyColor (s.ttyBuffer (j + gap)) else s.ttyBuffer j) n 0 s
    ⟨rfl, rfl, fun _ => rfl⟩ hround
  rw [Nat.zero_add] at hloop
  exact hloop

/-- A loop that fills cells. -/
theorem fillLoop (entry : Entry) (lo n : Nat) (s : Screen) :
    (forLoop (fun i => setCell i entry) lo n s).ttyPtr = s.ttyPtr ∧
      (forLoop (fun i => setCell i entry) lo n s).ttyColor = s.ttyColor ∧
      ∀ j, (forLoop (fun i => setCell i entry) lo n s).ttyBuffer j =
        if lo ≤ j ∧ j < lo + n then entry else s.ttyBuffer j := by
  refine forLoop_invariant (fun i s' => s'.ttyPtr = s.ttyPtr ∧ s'.ttyColor = s.ttyColor ∧
    ∀ j, s'.ttyBuffer j = if lo ≤ j ∧ j < i then entry else s.ttyBuffer j) n lo s ?_ ?_
  · refine ⟨rfl, rfl, fun j => ?_⟩
    rw [if_neg (by omega)]
  · intro i s' hlo _ h
    obtain ⟨hptr, hcolor, hcells⟩ := h
    refine ⟨hptr, hcolor, fun j => ?_⟩
    rw [ttyBuffer_setCell, hcells j]
    by_cases hj : j = i
    · rw [if_pos hj, if_pos (by omega)]
    · rw [if_neg hj]
      exact if_congr (by omega) rfl rfl

/-- The two loops of `tty_scroll`: `gap` cells further on, and blanks from behind. -/
theorem scrollLoops {gap : Nat} (hgap : gap ≤ vgaScrSize) (s : Screen) :
    let t := forLoop (fun i => setCell i (vgaEntry 0 s.ttyColor)) (vgaScrSize - gap) gap
      (forLoop (shiftCell gap) 0 (vgaScrSize - gap) s)
    t.ttyPtr = s.ttyPtr ∧ t.ttyColor = s.ttyColor ∧
      ∀ j < vgaScrSize, t.ttyBuffer j =
        if j + gap < vgaScrSize then recolor s.ttyColor (s.ttyBuffer (j + gap))
        else vgaEntry 0 s.ttyColor := by
  obtain ⟨hptr₁, hcolor₁, hcells₁⟩ := shiftLoop gap (vgaScrSize - gap) s
  obtain ⟨hptr₂, hcolor₂, hcells₂⟩ := fillLoop (vgaEntry 0 s.ttyColor) (vgaScrSize - gap) gap
    (forLoop (shiftCell gap) 0 (vgaScrSize - gap) s)
  refine ⟨hptr₂.trans hptr₁, hcolor₂.trans hcolor₁, fun j hj => ?_⟩
  rw [hcells₂ j, hcells₁ j]
  by_cases hkept : j + gap < vgaScrSize
  · rw [if_neg (by omega), if_pos (by omega), if_pos hkept]
  · rw [if_pos (by omega), if_neg hkept]

/-- Scrolling by `n` rows, of which the screen has at most 25. -/
theorem ttyScroll_of_gap {n gap : Nat} (hfits : vgaWidth * n < 2 ^ 32)
    (hgap : min (vgaWidth * n) vgaScrSize = gap) (s : Screen) :
    (ttyScroll n s).ttyPtr = (s.ttyPtr + (2 ^ 32 - gap)) % 2 ^ 32 ∧
      (ttyScroll n s).ttyColor = s.ttyColor ∧
      ∀ j < vgaScrSize, (ttyScroll n s).ttyBuffer j =
        if j + gap < vgaScrSize then recolor s.ttyColor (s.ttyBuffer (j + gap))
        else vgaEntry 0 s.ttyColor := by
  have hbytes : ((n : Int) * vgaWidth % 2 ^ 32).toNat = vgaWidth * n := by
    have hcast : (n : Int) * vgaWidth % 2 ^ 32 = ((n * vgaWidth % 2 ^ 32 : Nat) : Int) := by
      rw [Int.natCast_mod, Int.natCast_mul]
      rfl
    rw [hcast, Int.toNat_natCast, Nat.mul_comm, Nat.mod_eq_of_lt hfits]
  have hclamp : (if vgaScrSize < vgaWidth * n then vgaScrSize else vgaWidth * n) = gap := by
    rw [← hgap]
    split <;> omega
  have hle : gap ≤ vgaScrSize := by
    rw [← hgap]
    exact Nat.min_le_right _ _
  obtain ⟨hptr, hcolor, hcells⟩ := scrollLoops hle (criticalSectionStart s)
  unfold ttyScroll
  simp only [hbytes, hclamp, if_pos (Int.natCast_nonneg n)]
  exact ⟨congrArg (fun p => (p + (2 ^ 32 - gap)) % 2 ^ 32) hptr, hcolor, hcells⟩

theorem ttyScroll_cells {n : Nat} (hn : vgaWidth * n ≤ vgaScrSize) (s : Screen) :
    (ttyScroll n s).ttyPtr = (s.ttyPtr + (2 ^ 32 - vgaWidth * n)) % 2 ^ 32 ∧
      (ttyScroll n s).ttyColor = s.ttyColor ∧
      ∀ j < vgaScrSize, (ttyScroll n s).ttyBuffer j =
        if j + vgaWidth * n < vgaScrSize then
          recolor s.ttyColor (s.ttyBuffer (j + vgaWidth * n))
        else vgaEntry 0 s.ttyColor :=
  ttyScroll_of_gap (Nat.lt_of_le_of_lt hn (by decide)) (Nat.min_eq_left hn) s

/-- Setting the colour repaints every cell and leaves its character. -/
theorem ttySetColor_cells (fg bg : Word) (s : Screen) {j : Nat} (hj : j < vgaScrSize) :
    (ttySetColor fg bg s).ttyBuffer j = recolor (vgaColor fg bg) (s.ttyBuffer j) := by
  have hgap : vgaWidth * 0 ≤ vgaScrSize := Nat.zero_le _
  obtain ⟨-, -, hcells⟩ := ttyScroll_cells hgap { s with ttyColor := vgaColor fg bg }
  have hzero : ((0 : Nat) : Int) = 0 := rfl
  simp only [Nat.mul_zero, Nat.add_zero, hzero] at hcells
  rw [ttySetColor, hcells j hj, if_pos hj]

/-- What scrolling does to the characters. -/
theorem ttyScroll_spec {n : Nat} (hn : vgaWidth * n ≤ vgaScrSize) (s : Screen) :
    (ttyScroll n s).ttyPtr = (s.ttyPtr + (2 ^ 32 - vgaWidth * n)) % 2 ^ 32 ∧
      ∀ j < vgaScrSize, charAt (ttyScroll n s) j =
        if j + vgaWidth * n < vgaScrSize then charAt s (j + vgaWidth * n) else 0 := by
  obtain ⟨hptr, _, hcells⟩ := ttyScroll_cells hn s
  refine ⟨hptr, fun j hj => ?_⟩
  rw [charAt, hcells j hj, apply_ite (BitVec.setWidth 8), setWidth_recolor, setWidth_vgaEntry]
  rfl

/-- The cursor is on the screen. -/
theorem ttyUpdateCursor_of_lt {s : Screen} (h : s.ttyPtr < vgaScrSize) :
    ttyUpdateCursor s = vgaMoveCursorTo s.ttyPtr s := by
  unfold ttyUpdateCursor
  rw [if_neg (Nat.not_le.mpr h)]

/-- The cursor is `n` rows below the last row of the screen. -/
theorem ttyUpdateCursor_of_row {s : Screen} {n : Nat} (hn : 1 ≤ n) (hfits : n < 2 ^ 31)
    (hrow : ttyRow s + 1 = vgaHeight + n) :
    ttyUpdateCursor s = vgaMoveCursorTo (ttyScroll (n : Int) s).ttyPtr (ttyScroll (n : Int) s) := by
  have hleft : vgaScrSize ≤ s.ttyPtr := by
    simp only [ttyRow, vgaScrSize, vgaHeight, vgaWidth] at hrow ⊢
    omega
  have harg : Int.bmod ((ttyRow s : Int) - vgaHeight + 1) (2 ^ 32) = (n : Int) := by
    have hrows : (ttyRow s : Int) - vgaHeight + 1 = (n : Int) := by omega
    rw [hrows]
    exact Int.bmod_eq_of_le (by omega) (by omega)
  unfold ttyUpdateCursor
  rw [if_pos hleft, harg]

/-! ## Characters -/

theorem setWidth_signExtend (c : Byte) : (c.signExtend 16).setWidth 8 = c := by
  ext i hi
  have hwide : i < 16 := Nat.lt_trans hi (by decide)
  rw [BitVec.getElem_setWidth, BitVec.getLsbD_signExtend, decide_eq_true hwide, if_pos hi,
    Bool.true_and, BitVec.getLsbD_eq_getElem hi]

theorem signExtend_eq_iff {c d : Byte} : c.signExtend 16 = d.signExtend 16 ↔ c = d := by
  constructor
  · intro h
    rw [← setWidth_signExtend c, h, setWidth_signExtend]
  · exact congrArg _

/-- Any character but the three that only move the cursor. -/
theorem ttyWriteChar_printed {c : BitVec 16} (hnl : c ≠ 0x0a) (hcr : c ≠ 0x0d) (hbs : c ≠ 0x08)
    (s : Screen) :
    ttyWriteChar c s = criticalSectionEnd
      { setCell s.ttyPtr (vgaEntry c s.ttyColor) (criticalSectionStart s) with
        ttyPtr := (s.ttyPtr + 1) % 2 ^ 32 } := by
  unfold ttyWriteChar
  simp only [if_neg hnl, if_neg hcr, if_neg hbs]
  rfl

/-- It is shown where the cursor is. -/
theorem ttyWriteChar_charAt {c : BitVec 16} (hnl : c ≠ 0x0a) (hcr : c ≠ 0x0d) (hbs : c ≠ 0x08)
    {s : Screen} (hfits : s.ttyPtr + 1 < 2 ^ 32) :
    (ttyWriteChar c s).ttyPtr = s.ttyPtr + 1 ∧
      ∀ j, charAt (ttyWriteChar c s) j =
        if j = s.ttyPtr then c.setWidth 8 else charAt s j := by
  rw [ttyWriteChar_printed hnl hcr hbs]
  refine ⟨Nat.mod_eq_of_lt hfits, fun j => charAt_setCell.trans ?_⟩
  rw [setWidth_vgaEntry]
  rfl

end DonutOS.Kernel
