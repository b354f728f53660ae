import DonutOS.Kernel.TtySpec

set_option autoImplicit false

/-!
# Kernel: the screen as a window onto a page

What output is for: characters are laid out on a page of 80 columns and any number
of rows, and the screen shows the 25 rows that the cursor is in.  The flat buffer
with its scrolling refines this.
-/

namespace DonutOS.Kernel

open DonutOS.Foundation

/-- The page, and the cursor on it. -/
structure Page where
  cell : Nat → Nat → Byte
  row : Nat
  col : Nat

/-- Lay out one character. -/
def Page.lay (c : Byte) (page : Page) : Page :=
  if c = 0x0a then { page with row := page.row + 1, col := 0 }
  else if c = 0x0d then { page with col := 0 }
  else
    { cell := fun r k => if r = page.row ∧ k = page.col then c else page.cell r k
      row := if page.col + 1 = vgaWidth then page.row + 1 else page.row
      col := if page.col + 1 = vgaWidth then 0 else page.col + 1 }

/-- The page, and the first of the rows that the window shows. -/
structure View where
  page : Page
  top : Nat

/-- The window moves down no further than the cursor needs. -/
def View.lay (c : Byte) (v : View) : View :=
  ⟨v.page.lay c, max v.top ((v.page.lay c).row + 1 - vgaHeight)⟩

/-- The empty page, seen from its start. -/
def View.empty : View := ⟨⟨fun _ _ => 0x20, 0, 0⟩, 0⟩

/-- What a character looks like: `0` is a blank too. -/
def glyph (c : Byte) : Byte := if c = 0 then 0x20 else c

/-- The screen shows the window that starts at the row `top`; the cursor may have
left it at the lower end, below which the page is still empty. -/
structure Shows (s : Screen) (top : Nat) (page : Page) : Prop where
  cells : ∀ r < vgaHeight, ∀ k < vgaWidth,
    glyph (charAt s (vgaWidth * r + k)) = glyph (page.cell (top + r) k)
  top_le : top ≤ page.row
  col_lt : page.col < vgaWidth
  ptr : s.ttyPtr = vgaWidth * (page.row - top) + page.col
  unseen : ∀ r, top + vgaHeight ≤ r → ∀ k, glyph (page.cell r k) = 0x20

/-! ## One character -/

theorem Shows.ttyCol_eq {s : Screen} {top : Nat} {page : Page} (h : Shows s top page) :
    ttyCol s = page.col := by
  rw [ttyCol, h.ptr, Nat.mul_add_mod, Nat.mod_eq_of_lt h.col_lt]

/-- A change of the cursor only. -/
theorem Shows.move {s t : Screen} {top row col : Nat} {page : Page} (h : Shows s top page)
    (hbuffer : t.ttyBuffer = s.ttyBuffer) (htop : top ≤ row) (hcol : col < vgaWidth)
    (hptr : t.ttyPtr = vgaWidth * (row - top) + col) :
    Shows t top { page with row := row, col := col } where
  cells := by
    intro r hr k hk
    have hsame : charAt t (vgaWidth * r + k) = charAt s (vgaWidth * r + k) := by
      rw [charAt, hbuffer]
      rfl
    rw [hsame]
    exact h.cells r hr k hk
  top_le := htop
  col_lt := hcol
  ptr := hptr
  unseen := h.unseen

theorem Shows.newline {s : Screen} {top : Nat} {page : Page} (h : Shows s top page)
    (hinside : page.row < top + vgaHeight) :
    Shows (ttyWriteChar 0x0a s) top { page with row := page.row + 1, col := 0 } := by
  have hcol := h.ttyCol_eq
  have hptr := h.ptr
  have hlt := h.col_lt
  have htop := h.top_le
  refine h.move rfl (Nat.le_succ_of_le htop) (Nat.succ_pos _) ?_
  change (s.ttyPtr + (vgaWidth - ttyCol s)) % 2 ^ 32 = _
  rw [hcol, hptr]
  simp only [vgaWidth, vgaHeight] at hlt hinside ⊢
  omega

theorem Shows.carriageReturn {s : Screen} {top : Nat} {page : Page} (h : Shows s top page) :
    Shows (ttyWriteChar 0x0d s) top { page with col := 0 } := by
  refine h.move rfl h.top_le (Nat.succ_pos _) ?_
  change s.ttyPtr - ttyCol s = _
  rw [h.ttyCol_eq, h.ptr, Nat.add_sub_cancel, Nat.add_zero]

/-- The cells of the window are numbered from left to right, row by row. -/
theorem cell_index_eq_iff {r k a b : Nat} (hk : k < vgaWidth) (hb : b < vgaWidth) :
    vgaWidth * r + k = vgaWidth * a + b ↔ r = a ∧ k = b := by
  simp only [vgaWidth] at hk hb ⊢
  omega

theorem Shows.character {s : Screen} {top : Nat} {page : Page} (h : Shows s top page)
    (hinside : page.row < top + vgaHeight) {c : Byte} (hnl : c ≠ 0x0a) (hcr : c ≠ 0x0d)
    (hbs : c ≠ 0x08) : Shows (ttyWriteChar (c.setWidth 16) s) top (page.lay c) := by
  have hother : ∀ {d : Byte}, c ≠ d → c.setWidth 16 ≠ d.setWidth 16 :=
    fun hne heq => hne (setWidth_eq_iff.mp heq)
  have hptr := h.ptr
  have hlt := h.col_lt
  have htop := h.top_le
  have hfits : s.ttyPtr + 1 < 2 ^ 32 := by
    rw [hptr]
    simp only [vgaWidth, vgaHeight] at hlt hinside ⊢
    omega
  obtain ⟨hmoved, hwritten⟩ := ttyWriteChar_charAt (hother hnl) (hother hcr) (hother hbs) hfits
  have hchar : ∀ j, charAt (ttyWriteChar (c.setWidth 16) s) j =
      if j = s.ttyPtr then c else charAt s j := by
    intro j
    rw [hwritten, BitVec.setWidth_setWidth_of_le _ (by decide), BitVec.setWidth_eq]
  rw [Page.lay, if_neg hnl, if_neg hcr]
  refine ⟨fun r hr k hk => ?_, ?_, ?_, ?_, fun r hr k => ?_⟩
  · rw [hchar, hptr, if_congr (cell_index_eq_iff hk hlt) rfl rfl]
    have hrow : top + r = page.row ↔ r = page.row - top := by omega
    change _ = glyph (if top + r = page.row ∧ k = page.col then c else page.cell (top + r) k)
    rw [if_congr (and_congr_left' hrow) rfl rfl, apply_ite glyph, apply_ite glyph,
      h.cells r hr k hk]
  · change top ≤ if page.col + 1 = vgaWidth then page.row + 1 else page.row
    split
    · exact Nat.le_succ_of_le htop
    · exact htop
  · change (if page.col + 1 = vgaWidth then 0 else page.col + 1) < vgaWidth
    split
    · exact Nat.succ_pos _
    · omega
  · change (ttyWriteChar (c.setWidth 16) s).ttyPtr =
      vgaWidth * ((if page.col + 1 = vgaWidth then page.row + 1 else page.row) - top) +
        if page.col + 1 = vgaWidth then 0 else page.col + 1
    rw [hmoved, hptr]
    by_cases hwrap : page.col + 1 = vgaWidth
    · rw [if_pos hwrap, if_pos hwrap]
      simp only [vgaWidth, vgaHeight] at hwrap hinside ⊢
      omega
    · rw [if_neg hwrap, if_neg hwrap]
      simp only [vgaWidth, vgaHeight] at hlt hinside ⊢
      omega
  · change glyph (if r = page.row ∧ k = page.col then c else page.cell r k) = 0x20
    rw [if_neg (by omega)]
    exact h.unseen r hr k

/-- A character written inside the window is laid out on the page. -/
theorem Shows.write {s : Screen} {top : Nat} {page : Page} (h : Shows s top page)
    (hinside : page.row < top + vgaHeight) {c : Byte} (hbs : c ≠ 0x08) :
    Shows (ttyWriteChar (c.setWidth 16) s) top (page.lay c) := by
  by_cases hnl : c = 0x0a
  · rw [Page.lay, if_pos hnl, hnl]
    exact h.newline hinside
  · by_cases hcr : c = 0x0d
    · rw [Page.lay, if_neg hnl, if_pos hcr, hcr]
      exact h.carriageReturn
    · exact h.character hinside hnl hcr hbs

/-- The cells of a screen that was scrolled by a row: the rows that were on it before, and
the one that has come in. -/
theorem Shows.cells_scrolled {s : Screen} {top : Nat} {page : Page} (h : Shows s top page)
    {r k : Nat} (hr : r < vgaHeight) (hk : k < vgaWidth) :
    glyph (charAt (ttyScroll ((1 : Nat) : Int) s) (vgaWidth * r + k)) =
      glyph (page.cell (top + 1 + r) k) := by
  obtain ⟨-, hcells⟩ := ttyScroll_spec (n := 1) (by decide) s
  have hindex : vgaWidth * r + k < vgaScrSize := by
    simp only [vgaWidth, vgaHeight, vgaScrSize] at hr hk ⊢
    omega
  have hcell := hcells _ hindex
  by_cases hlast : r + 1 < vgaHeight
  · have hshown : vgaWidth * r + k + vgaWidth * 1 < vgaScrSize := by
      simp only [vgaWidth, vgaHeight, vgaScrSize] at hlast hk ⊢
      omega
    have hbelow : vgaWidth * r + k + vgaWidth * 1 = vgaWidth * (r + 1) + k := by
      rw [Nat.mul_one, Nat.mul_succ, Nat.add_right_comm]
    have hpage : top + 1 + r = top + (r + 1) := by omega
    rw [if_pos hshown, hbelow] at hcell
    rw [hpage]
    exact (congrArg glyph hcell).trans (h.cells (r + 1) hlast k hk)
  · have hnew : ¬ vgaWidth * r + k + vgaWidth * 1 < vgaScrSize := by
      simp only [vgaWidth, vgaHeight, vgaScrSize] at hlast ⊢
      omega
    rw [if_neg hnew] at hcell
    exact (congrArg glyph hcell).trans (h.unseen (top + 1 + r) (by omega) k).symm

/-- With the cursor in the row behind the window, the window moves down a row. -/
theorem Shows.scroll {s : Screen} {top : Nat} {page : Page} (h : Shows s top page)
    (hrow : page.row = top + vgaHeight) :
    Shows (ttyScroll ((1 : Nat) : Int) s) (top + 1) page ∧
      (ttyScroll ((1 : Nat) : Int) s).ttyPtr < vgaScrSize := by
  have hcol := h.col_lt
  obtain ⟨hptr', -⟩ := ttyScroll_spec (n := 1) (by decide) s
  have hmoved : (ttyScroll ((1 : Nat) : Int) s).ttyPtr =
      vgaWidth * (page.row - (top + 1)) + page.col := by
    refine hptr'.trans ?_
    rw [h.ptr, hrow]
    simp only [vgaWidth, vgaHeight] at hcol ⊢
    omega
  refine ⟨⟨fun r hr k hk => h.cells_scrolled hr hk, ?_, hcol, hmoved,
    fun r hr k => h.unseen r (by omega) k⟩, ?_⟩
  · rw [hrow]
    exact Nat.add_le_add_left (Nat.succ_pos _) top
  · rw [hmoved, hrow]
    simp only [vgaWidth, vgaHeight, vgaScrSize] at hcol ⊢
    omega

/-- Where the cursor has left the window, the window moves down a row. -/
theorem Shows.updateCursor {s : Screen} {top : Nat} {page : Page} (h : Shows s top page)
    (hinside : page.row ≤ top + vgaHeight) :
    Shows (ttyUpdateCursor s) (max top (page.row + 1 - vgaHeight)) page ∧
      (ttyUpdateCursor s).ttyPtr < vgaScrSize := by
  have hptr := h.ptr
  have hcol := h.col_lt
  have htop := h.top_le
  by_cases hleft : vgaScrSize ≤ s.ttyPtr
  · have hrow : page.row = top + vgaHeight := by
      simp only [vgaWidth, vgaHeight, vgaScrSize] at hptr hcol hleft hinside ⊢
      omega
    have htty : ttyRow s + 1 = vgaHeight + 1 := by
      rw [ttyRow, hptr, hrow, Nat.add_sub_cancel_left]
      simp only [vgaWidth] at hcol ⊢
      omega
    have hmax : max top (page.row + 1 - vgaHeight) = top + 1 := by
      rw [hrow]
      omega
    obtain ⟨hshows, hlow⟩ := h.scroll hrow
    rw [ttyUpdateCursor_of_row (Nat.le_refl 1) (by decide) htty, hmax]
    exact ⟨hshows.move rfl hshows.top_le hcol hshows.ptr, hlow⟩
  · have hmax : max top (page.row + 1 - vgaHeight) = top := by
      simp only [vgaWidth, vgaHeight, vgaScrSize] at hptr hcol hleft ⊢
      omega
    rw [ttyUpdateCursor_of_lt (Nat.lt_of_not_le hleft), hmax]
    exact ⟨h.move rfl htop hcol hptr, Nat.lt_of_not_le hleft⟩

/-! ## A text -/

/-- A blank screen shows the empty page. -/
theorem shows_blank {s : Screen} (hcells : ∀ j < vgaScrSize, charAt s j = 0x20) :
    Shows { s with ttyPtr := 0 } View.empty.top View.empty.page := by
  refine ⟨fun r hr k hk => ?_, Nat.le_refl _, Nat.succ_pos _, rfl, fun _ _ _ => rfl⟩
  have hindex : vgaWidth * r + k < vgaScrSize := by
    simp only [vgaWidth, vgaHeight, vgaScrSize] at hr hk ⊢
    omega
  exact congrArg glyph (hcells _ hindex)

theorem shows_ttyClearScr (s : Screen) :
    Shows (ttyClearScr s) View.empty.top View.empty.page ∧ (ttyClearScr s).ttyPtr < vgaScrSize := by
  obtain ⟨-, -, hcells⟩ := fillLoop (vgaEntry 0x20 s.ttyColor) 0 vgaScrSize s
  have hblank := shows_blank fun j hj => by
    rw [charAt, hcells, if_pos ⟨Nat.zero_le _, (Nat.zero_add vgaScrSize).symm ▸ hj⟩,
      setWidth_vgaEntry]
    rfl
  unfold ttyClearScr
  exact hblank.updateCursor (Nat.zero_le _)

/-- No character moves the cursor up, and none moves it down more than a row. -/
theorem Page.lay_row (c : Byte) (page : Page) :
    page.row ≤ (page.lay c).row ∧ (page.lay c).row ≤ page.row + 1 := by
  unfold Page.lay
  split
  · exact ⟨Nat.le_succ _, Nat.le_refl _⟩
  split
  · exact ⟨Nat.le_refl _, Nat.le_succ _⟩
  · change page.row ≤ (if _ then _ else _) ∧ (if _ then _ else _) ≤ page.row + 1
    split
    · exact ⟨Nat.le_succ _, Nat.le_refl _⟩
    · exact ⟨Nat.le_refl _, Nat.le_succ _⟩

/-- The screen shows the view: its window is the first one that has the cursor in
it. -/
structure Refines (s : Screen) (v : View) : Prop where
  shows : Shows s v.top v.page
  ptr_lt : s.ttyPtr < vgaScrSize
  top_eq : v.top = v.page.row + 1 - vgaHeight

/-- `tty_putc` refines the layout of one character. -/
theorem Refines.putc {s : Screen} {v : View} (h : Refines s v) {c : Byte} (hbs : c ≠ 0x08) :
    Refines (ttyPutc (c.setWidth 16) s) (v.lay c) := by
  have htop := h.top_eq
  obtain ⟨hmono, hstep⟩ := Page.lay_row c v.page
  have hinside : v.page.row < v.top + vgaHeight := by omega
  obtain ⟨hshows, hptr⟩ := (h.shows.write hinside hbs).updateCursor (by omega)
  refine ⟨hshows, hptr, ?_⟩
  change max v.top ((v.page.lay c).row + 1 - vgaHeight) = (v.page.lay c).row + 1 - vgaHeight
  omega

/-- Write the characters of a text one by one. -/
def putAll (cs : List Byte) (s : Screen) : Screen :=
  cs.foldl (fun s c => ttyPutc (c.setWidth 16) s) s

/-- Lay out the characters of a text. -/
def View.layAll (cs : List Byte) (v : View) : View := cs.foldl (fun v c => v.lay c) v

theorem Refines.putAll {s : Screen} {v : View} (h : Refines s v) (cs : List Byte)
    (hbs : ∀ c ∈ cs, c ≠ 0x08) : Refines (putAll cs s) (v.layAll cs) := by
  induction cs generalizing s v with
  | nil => exact h
  | cons c cs ih =>
      have hstep := h.putc (hbs c (List.mem_cons_self ..))
      exact ih hstep fun d hd => hbs d (List.mem_cons_of_mem _ hd)

/-- A text written after the screen was cleared: the screen is the window, moved down
as far as the cursor needs, onto the page on which the text was laid out, and
`tty_ptr` is the cursor in it. -/
theorem ttyRuns_shows (cs : List Byte) (hbs : ∀ c ∈ cs, c ≠ 0x08) (s : Screen) :
    let shown := putAll cs (ttyClearScr s)
    let v := View.empty.layAll cs
    (∀ r < vgaHeight, ∀ k < vgaWidth,
      glyph (charAt shown (vgaWidth * r + k)) = glyph (v.page.cell (v.top + r) k)) ∧
      v.top = v.page.row + 1 - vgaHeight ∧
      v.page.col < vgaWidth ∧
      shown.ttyPtr = vgaWidth * (v.page.row - v.top) + v.page.col ∧
      shown.ttyPtr < vgaScrSize := by
  obtain ⟨hshows, hptr⟩ := shows_ttyClearScr s
  have h : Refines (putAll cs (ttyClearScr s)) (View.empty.layAll cs) :=
    Refines.putAll ⟨hshows, hptr, rfl⟩ cs hbs
  exact ⟨h.shows.cells, h.top_eq, h.shows.col_lt, h.shows.ptr, h.ptr_lt⟩

/-- `a`, a new line, and `c` over `b`. -/
theorem ttyRuns_shows_overwrite :
    (putAll [0x61, 0x0a, 0x62, 0x0d, 0x63] (ttyClearScr ⟨fun _ => 0, 1999, 0x07, 0, 0⟩)).ttyPtr =
        vgaWidth + 1 ∧
      glyph (charAt (putAll [0x61, 0x0a, 0x62, 0x0d, 0x63]
        (ttyClearScr ⟨fun _ => 0, 1999, 0x07, 0, 0⟩)) (vgaWidth * 1 + 0)) = 0x63 := by
  obtain ⟨hcells, -, -, hptr, -⟩ := ttyRuns_shows [0x61, 0x0a, 0x62, 0x0d, 0x63] (by decide)
    ⟨fun _ => 0, 1999, 0x07, 0, 0⟩
  exact ⟨hptr, hcells 1 (by decide) 0 (by decide)⟩

end DonutOS.Kernel
