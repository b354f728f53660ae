import DonutOS.Kernel.TtySpec
import DonutOS.Libc.StrSpec

set_option autoImplicit false

/-!
# Kernel: a string at once and character by character (`kernel/src/tty.c`)

`tty_putc` brings the cursor back onto the screen after every character, `tty_puts`
once at the end of the string.  `Deferred` relates the two screens on the way.
-/

namespace DonutOS.Kernel

open DonutOS.Foundation DonutOS.Libc

/-- Write the characters of a text, without looking where the cursor is. -/
def writeAll (cs : List Byte) (s : Screen) : Screen :=
  cs.foldl (fun s c => ttyWriteChar (c.signExtend 16) s) s

/-- `tty_putc` for every character of a text. -/
def putcAll (cs : List Byte) (s : Screen) : Screen :=
  cs.foldl (fun s c => ttyPutc (c.signExtend 16) s) s

/-- The same cells on the screen, and the same cursor. -/
def SameScreen (s t : Screen) : Prop :=
  (∀ j < vgaScrSize, s.ttyBuffer j = t.ttyBuffer j) ∧ s.ttyPtr = t.ttyPtr

theorem ttyPutsLoop_eq {m : Memory} {cs : List Byte} :
    ∀ {fuel str : Nat} {s : Screen}, StrAt m str cs → (∀ c ∈ cs, c ≠ 0x1b) →
      cs.length < fuel → ttyPutsLoop m fuel str s = (writeAll cs s, str + cs.length) := by
  induction cs with
  | nil =>
      intro fuel str s hstr _ hfuel
      obtain ⟨fuel, rfl⟩ : ∃ k, fuel = k + 1 := ⟨fuel - 1, by omega⟩
      have hnul : m str = 0 := hstr
      rw [ttyPutsLoop, if_pos hnul]
      rfl
  | cons c cs ih =>
      intro fuel str s hstr hesc hfuel
      rw [List.length_cons] at hfuel
      obtain ⟨fuel, rfl⟩ : ∃ k, fuel = k + 1 := ⟨fuel - 1, by omega⟩
      obtain ⟨hc, hne, hcs⟩ := hstr
      rw [ttyPutsLoop, hc, if_neg hne, if_pos (hesc c List.mem_cons_self),
        ih hcs (fun d hd => hesc d (List.mem_cons_of_mem _ hd)) (Nat.lt_of_succ_lt_succ hfuel),
        Nat.add_assoc, Nat.add_comm 1]
      rfl

theorem ttyPuts_eq {m : Memory} {str : Nat} {cs : List Byte} (hstr : StrAt m str cs)
    (hlen : cs.length < stringFuel) (hesc : ∀ c ∈ cs, c ≠ 0x1b) (s : Screen) :
    ttyPuts m str s = (ttyUpdateCursor (writeAll cs s), cs.length) := by
  unfold ttyPuts
  rw [ttyPutsLoop_eq hstr hesc hlen]
  exact congrArg (Prod.mk _) (Nat.add_sub_cancel_left _ _)

/-! ## The cursor on a page without end -/

/-- The character shows, and does not only move the cursor. -/
def printed (c : Byte) : Bool := c != 0x0a && c != 0x0d

/-- The cursor behind a character. -/
def advance (c : Byte) (p : Nat) : Nat :=
  if c = 0x0a then p + (vgaWidth - p % vgaWidth)
  else if c = 0x0d then p - p % vgaWidth
  else p + 1

/-- The cursor behind a text. -/
def cursorAfter (cs : List Byte) (p : Nat) : Nat := cs.foldl (fun p c => advance c p) p

/-- Some character shows below the last row of the screen. -/
def printsBelow : List Byte → Nat → Bool
  | [], _ => false
  | c :: cs, p => (decide (vgaScrSize ≤ p) && printed c) || printsBelow cs (advance c p)

/-- The cursor stays a 32-bit number. -/
def NoWrap : List Byte → Nat → Prop
  | [], _ => True
  | c :: cs, p => advance c p < 2 ^ 32 ∧ NoWrap cs (advance c p)

/-- No character shows below the screen, and the cursor ends less than a screen
below it. -/
def TextFits (cs : List Byte) (p : Nat) : Prop :=
  printsBelow cs p = false ∧ cursorAfter cs p < 2 * vgaScrSize

theorem advance_add (c : Byte) (p k : Nat) :
    advance c (p + vgaWidth * k) = advance c p + vgaWidth * k := by
  have hcol : (p + vgaWidth * k) % vgaWidth = p % vgaWidth := Nat.add_mul_mod_self_left _ _ _
  have hle : p % vgaWidth ≤ p := Nat.mod_le _ _
  unfold advance
  rw [hcol]
  split
  · omega
  split
  · omega
  · omega

/-- No character moves the cursor to a row above. -/
theorem row_le_row_advance (c : Byte) (p : Nat) : p / vgaWidth ≤ advance c p / vgaWidth := by
  unfold advance
  simp only [vgaWidth]
  split
  · omega
  split
  · omega
  · omega

theorem row_le_row_cursorAfter (cs : List Byte) (p : Nat) :
    p / vgaWidth ≤ cursorAfter cs p / vgaWidth := by
  induction cs generalizing p with
  | nil => exact Nat.le_refl _
  | cons c cs ih => exact Nat.le_trans (row_le_row_advance c p) (ih (advance c p))

theorem noWrap_of_textFits {cs : List Byte} {p : Nat} (h : cursorAfter cs p < 2 * vgaScrSize) :
    NoWrap cs p := by
  induction cs generalizing p with
  | nil => trivial
  | cons c cs ih =>
      refine ⟨?_, ih h⟩
      have hrow : advance c p / vgaWidth ≤ cursorAfter (c :: cs) p / vgaWidth :=
        row_le_row_cursorAfter cs (advance c p)
      simp only [vgaScrSize, vgaHeight, vgaWidth] at h hrow
      omega

theorem cursorAfter_lt {cs : List Byte} {p : Nat} (hp : p < 2 ^ 32) (h : NoWrap cs p) :
    cursorAfter cs p < 2 ^ 32 := by
  induction cs generalizing p with
  | nil => exact hp
  | cons c cs ih => exact ih h.1 h.2

/-- What a character does to cells and cursor. -/
theorem ttyWriteChar_spec {c : Byte} (hbs : c ≠ 0x08) {s : Screen}
    (hfits : advance c s.ttyPtr < 2 ^ 32) :
    (ttyWriteChar (c.signExtend 16) s).ttyColor = s.ttyColor ∧
      (ttyWriteChar (c.signExtend 16) s).ttyPtr = advance c s.ttyPtr ∧
      ∀ j, (ttyWriteChar (c.signExtend 16) s).ttyBuffer j =
        if printed c = true ∧ j = s.ttyPtr then vgaEntry (c.signExtend 16) s.ttyColor
        else s.ttyBuffer j := by
  by_cases hnl : c = 0x0a
  · subst hnl
    exact ⟨rfl, Nat.mod_eq_of_lt hfits, fun j => (if_neg fun h => Bool.noConfusion h.1).symm⟩
  · by_cases hcr : c = 0x0d
    · subst hcr
      exact ⟨rfl, rfl, fun j => (if_neg fun h => Bool.noConfusion h.1).symm⟩
    · have hother : ∀ {d : Byte}, c ≠ d → c.signExtend 16 ≠ d.signExtend 16 :=
        fun hne heq => hne (signExtend_eq_iff.mp heq)
      have hprinted : printed c = true := by
        rw [printed, Bool.and_eq_true, bne_iff_ne, bne_iff_ne]
        exact ⟨hnl, hcr⟩
      rw [advance, if_neg hnl, if_neg hcr] at hfits ⊢
      rw [ttyWriteChar_printed (hother hnl) (hother hcr) (hother hbs)]
      refine ⟨rfl, Nat.mod_eq_of_lt hfits, fun j => ?_⟩
      rw [if_congr (and_iff_right hprinted) rfl rfl]
      exact ttyBuffer_setCell _ _ _ _

/-! ## The two screens on the way -/

/-- The screen `W` of `tty_putc` is `k` rows ahead of the screen `F` of `tty_puts`.
`below` tells whether a character has been shown below the last row of `F`. -/
structure Deferred (k : Nat) (below : Bool) (F W : Screen) : Prop where
  color : W.ttyColor = F.ttyColor
  ptr : F.ttyPtr = W.ttyPtr + vgaWidth * k
  inside : W.ttyPtr ≤ vgaScrSize
  same : k = 0 → ∀ j < vgaScrSize, W.ttyBuffer j = F.ttyBuffer j
  lastRow : 0 < k → vgaScrSize - vgaWidth ≤ W.ttyPtr
  kept : 0 < k → ∀ j, j + vgaWidth * k < vgaScrSize →
    W.ttyBuffer j = recolor F.ttyColor (F.ttyBuffer (j + vgaWidth * k))
  fresh : 0 < k → below = false → ∀ j < vgaScrSize, vgaScrSize ≤ j + vgaWidth * k →
    W.ttyBuffer j = vgaEntry 0 F.ttyColor
  seen : k ≤ vgaHeight → below = true →
    ∃ j < vgaScrSize, vgaScrSize ≤ j + vgaWidth * k ∧ charAt W j ≠ 0

/-- A character on both screens. -/
theorem Deferred.write {k : Nat} {below : Bool} {F W : Screen} (h : Deferred k below F W)
    (hinside : W.ttyPtr < vgaScrSize) {c : Byte} (hbs : c ≠ 0x08) (hne : c ≠ 0)
    (hfits : advance c F.ttyPtr < 2 ^ 32) :
    Deferred k (below || (decide (vgaScrSize ≤ F.ttyPtr) && printed c))
      (ttyWriteChar (c.signExtend 16) F) (ttyWriteChar (c.signExtend 16) W) := by
  have hptr := h.ptr
  have hadvance : advance c F.ttyPtr = advance c W.ttyPtr + vgaWidth * k := by
    rw [hptr, advance_add]
  have hnear : advance c W.ttyPtr ≤ vgaScrSize := by
    unfold advance
    simp only [vgaScrSize, vgaHeight, vgaWidth] at hinside ⊢
    split
    · omega
    split <;> omega
  obtain ⟨hcolorF, hptrF, hcellsF⟩ := ttyWriteChar_spec hbs hfits
  obtain ⟨hcolorW, hptrW, hcellsW⟩ := ttyWriteChar_spec hbs (s := W) (by omega)
  -- behind the first scroll `F` writes below its last row only
  have hdeep : 0 < k → vgaScrSize ≤ F.ttyPtr := by
    intro hk
    have hlast := h.lastRow hk
    simp only [vgaScrSize, vgaHeight, vgaWidth] at hlast hptr ⊢
    omega
  constructor
  · rw [hcolorW, hcolorF, h.color]
  · rw [hptrF, hptrW, hadvance]
  · rw [hptrW]
    exact hnear
  · intro hk j hj
    have hsame : F.ttyPtr = W.ttyPtr := by
      rw [hptr, hk]
      rfl
    rw [hcellsW, hcellsF, h.same hk j hj, h.color, hsame]
  · intro hk
    have hlast := h.lastRow hk
    rw [hptrW]
    unfold advance
    simp only [vgaScrSize, vgaHeight, vgaWidth] at hlast ⊢
    split
    · omega
    split <;> omega
  · intro hk j hj
    have hdeep := hdeep hk
    rw [hcellsW, hcellsF, hcolorF, if_neg (by omega), if_neg (by omega)]
    exact h.kept hk j hj
  · intro hk hbelow j hj hlow
    rw [Bool.or_eq_false_iff, decide_eq_true (hdeep hk), Bool.true_and] at hbelow
    rw [hcellsW, hcolorF, if_neg fun hp => Bool.noConfusion (hbelow.2.symm.trans hp.1)]
    exact h.fresh hk hbelow.1 j hj hlow
  · intro hk hbelow
    have hchar : ∀ j, charAt (ttyWriteChar (c.signExtend 16) W) j =
        if printed c = true ∧ j = W.ttyPtr then c else charAt W j := by
      intro j
      rw [charAt, hcellsW, apply_ite (BitVec.setWidth 8), setWidth_vgaEntry, setWidth_signExtend]
      rfl
    rw [Bool.or_eq_true, Bool.and_eq_true, decide_eq_true_eq] at hbelow
    rcases hbelow with hbefore | ⟨hdeep, hprinted⟩
    · obtain ⟨j, hj, hlow, hshown⟩ := h.seen hk hbefore
      refine ⟨j, hj, hlow, ?_⟩
      rw [hchar]
      split
      · exact hne
      · exact hshown
    · refine ⟨W.ttyPtr, hinside, hptr ▸ hdeep, ?_⟩
      rw [hchar, if_pos ⟨hprinted, rfl⟩]
      exact hne

/-- With the cursor behind the last cell, the screen scrolls by a row. -/
theorem ttyUpdateCursor_of_end {s : Screen} (hleft : s.ttyPtr = vgaScrSize) :
    (ttyUpdateCursor s).ttyPtr = vgaScrSize - vgaWidth ∧
      (ttyUpdateCursor s).ttyColor = s.ttyColor ∧
      ∀ j < vgaScrSize, (ttyUpdateCursor s).ttyBuffer j =
        if j + vgaWidth < vgaScrSize then recolor s.ttyColor (s.ttyBuffer (j + vgaWidth))
        else vgaEntry 0 s.ttyColor := by
  have hrow : ttyRow s + 1 = vgaHeight + 1 := by
    rw [ttyRow, hleft]
    rfl
  obtain ⟨hptr, hcolor, hcells⟩ := ttyScroll_cells (n := 1) (by decide) s
  rw [ttyUpdateCursor_of_row (Nat.le_refl 1) (by decide) hrow]
  generalize ttyScroll ((1 : Nat) : Int) s = t at hptr hcolor hcells
  rw [hleft] at hptr
  exact ⟨hptr, hcolor, hcells⟩

/-- The cursor of `tty_putc` has left the screen, which scrolls by a row. -/
theorem Deferred.scroll {k : Nat} {below : Bool} {F W : Screen} (h : Deferred k below F W)
    (hleft : W.ttyPtr = vgaScrSize) :
    Deferred (k + 1) below F (ttyUpdateCursor W) ∧ (ttyUpdateCursor W).ttyPtr < vgaScrSize := by
  obtain ⟨hptr', hcolor, hcells'⟩ := ttyUpdateCursor_of_end hleft
  rw [h.color] at hcolor hcells'
  have hdistance : ∀ j, j + vgaWidth * (k + 1) = j + vgaWidth + vgaWidth * k := by
    intro j
    rw [Nat.mul_succ]
    omega
  refine ⟨?_, hptr' ▸ Nat.sub_lt (by decide) (by decide)⟩
  constructor
  · exact hcolor
  · rw [hptr', h.ptr, hleft, hdistance, Nat.sub_add_cancel (by decide)]
  · rw [hptr']
    exact Nat.sub_le _ _
  · exact fun hk => absurd hk (Nat.succ_ne_zero k)
  · exact fun _ => Nat.le_of_eq hptr'.symm
  · intro _ j hj
    rw [hdistance] at hj ⊢
    have hrow' : j + vgaWidth < vgaScrSize := by omega
    rw [hcells' j (by omega), if_pos hrow']
    apply recolor_congr
    rcases Nat.eq_zero_or_pos k with rfl | hk
    · rw [h.same rfl _ hrow']
      rfl
    · rw [h.kept hk _ hj, setWidth_recolor]
  · intro _ hbelow j hj hlow
    rw [hdistance] at hlow
    rw [hcells' j hj]
    split
    · next hrow' =>
        have hk : 0 < k := by
          rcases Nat.eq_zero_or_pos k with rfl | hk
          · omega
          · exact hk
        rw [h.fresh hk hbelow _ hrow' hlow, recolor_blank]
    · rfl
  · intro hk hbelow
    obtain ⟨j, hj, hlow, hshown⟩ := h.seen (Nat.le_of_succ_le hk) hbelow
    -- the row of `j` is not the first one, which scrolls away
    have hsecond : vgaWidth ≤ j := by
      simp only [vgaScrSize, vgaHeight, vgaWidth] at hk hlow ⊢
      omega
    have hback : j - vgaWidth + vgaWidth = j := Nat.sub_add_cancel hsecond
    refine ⟨j - vgaWidth, by omega, by rw [hdistance, hback]; exact hlow, ?_⟩
    rw [charAt, hcells' _ (by omega), hback, if_pos hj, setWidth_recolor]
    exact hshown

/-- `tty_putc` of a character, where `tty_puts` only writes it. -/
theorem Deferred.step {k : Nat} {below : Bool} {F W : Screen} (h : Deferred k below F W)
    (hinside : W.ttyPtr < vgaScrSize) {c : Byte} (hbs : c ≠ 0x08) (hne : c ≠ 0)
    (hfits : advance c F.ttyPtr < 2 ^ 32) :
    ∃ k', Deferred k' (below || (decide (vgaScrSize ≤ F.ttyPtr) && printed c))
        (ttyWriteChar (c.signExtend 16) F) (ttyPutc (c.signExtend 16) W) ∧
      (ttyPutc (c.signExtend 16) W).ttyPtr < vgaScrSize := by
  have hwrite := h.write hinside hbs hne hfits
  rcases Nat.lt_or_eq_of_le hwrite.inside with hin | hleft
  · refine ⟨k, ?_, ?_⟩
    · unfold ttyPutc
      rw [ttyUpdateCursor_of_lt hin]
      exact ⟨hwrite.color, hwrite.ptr, hwrite.inside, hwrite.same, hwrite.lastRow, hwrite.kept,
        hwrite.fresh, hwrite.seen⟩
    · unfold ttyPutc
      rw [ttyUpdateCursor_of_lt hin]
      exact hin
  · exact ⟨k + 1, hwrite.scroll hleft⟩

theorem Deferred.run {k : Nat} {below : Bool} {F W : Screen} (h : Deferred k below F W)
    (hinside : W.ttyPtr < vgaScrSize) {cs : List Byte} (hplain : ∀ c ∈ cs, c ≠ 0x08 ∧ c ≠ 0)
    (hfits : NoWrap cs F.ttyPtr) :
    ∃ k', Deferred k' (below || printsBelow cs F.ttyPtr) (writeAll cs F) (putcAll cs W) ∧
      (putcAll cs W).ttyPtr < vgaScrSize ∧
      (writeAll cs F).ttyPtr = cursorAfter cs F.ttyPtr := by
  induction cs generalizing k below F W with
  | nil =>
      refine ⟨k, ?_, hinside, rfl⟩
      rw [printsBelow, Bool.or_false]
      exact h
  | cons c cs ih =>
      obtain ⟨hbs, hne⟩ := hplain c List.mem_cons_self
      obtain ⟨k', hstep, hinside'⟩ := h.step hinside hbs hne hfits.1
      obtain ⟨-, hptr, -⟩ := ttyWriteChar_spec hbs hfits.1
      have hrest := ih hstep hinside' (fun d hd => hplain d (List.mem_cons_of_mem _ hd))
        (hptr ▸ hfits.2)
      rw [hptr, Bool.or_assoc] at hrest
      exact hrest

/-- How far the cursor of `tty_puts` is below the last row. -/
theorem Deferred.row {k : Nat} {below : Bool} {F W : Screen} (h : Deferred k below F W)
    (hinside : W.ttyPtr < vgaScrSize) (hk : 0 < k) : ttyRow F + 1 = vgaHeight + k := by
  have hptr := h.ptr
  have hlast := h.lastRow hk
  simp only [ttyRow, vgaScrSize, vgaHeight, vgaWidth] at hptr hlast hinside ⊢
  omega

/-- One scroll for at most a screen of rows: what was shown below the screen is lost. -/
theorem Deferred.same_iff_near {k : Nat} {below : Bool} {F W : Screen} (h : Deferred k below F W)
    (hinside : W.ttyPtr < vgaScrSize) (hk : 0 < k) (hscreen : k ≤ vgaHeight) :
    SameScreen (ttyUpdateCursor F) W ↔ below = false := by
  have hptr := h.ptr
  have hgap : vgaWidth * k ≤ vgaScrSize := by
    simp only [vgaScrSize, vgaHeight, vgaWidth] at hscreen ⊢
    omega
  have hrows : k < 2 ^ 31 := Nat.lt_of_le_of_lt hscreen (by decide)
  obtain ⟨hptr', _, hcells⟩ := ttyScroll_cells hgap F
  rw [ttyUpdateCursor_of_row hk hrows (h.row hinside hk)]
  generalize ttyScroll (k : Int) F = F' at hptr' hcells
  have hcursor : F'.ttyPtr = W.ttyPtr := by
    rw [hptr', hptr]
    simp only [vgaScrSize, vgaHeight, vgaWidth] at hgap hinside ⊢
    omega
  constructor
  · rintro ⟨hall, _⟩
    cases hbelow : below with
    | false => rfl
    | true =>
        obtain ⟨j, hj, hlow, hshown⟩ := h.seen hscreen hbelow
        refine absurd ?_ hshown
        have hblank : F'.ttyBuffer j = W.ttyBuffer j := hall j hj
        rw [hcells j hj, if_neg (Nat.not_lt.mpr hlow)] at hblank
        rw [charAt, ← hblank, setWidth_vgaEntry]
        rfl
  · intro hbelow
    refine ⟨fun j hj => (hcells j hj).trans ?_, hcursor⟩
    split
    · next hkept => exact (h.kept hk j hkept).symm
    · next hlow => exact (h.fresh hk hbelow j hj (Nat.not_lt.mp hlow)).symm

/-- For more rows than that, the cursor stays below the screen. -/
theorem Deferred.not_same_far {k : Nat} {below : Bool} {F W : Screen} (h : Deferred k below F W)
    (hinside : W.ttyPtr < vgaScrSize) (hfits : F.ttyPtr < 2 ^ 32) (hscreen : vgaHeight < k) :
    ¬ SameScreen (ttyUpdateCursor F) W ∧ 2 * vgaScrSize ≤ F.ttyPtr := by
  have hptr := h.ptr
  have hk : 0 < k := Nat.zero_lt_of_lt hscreen
  have hlast := h.lastRow hk
  have hrows : k < 2 ^ 31 := by
    simp only [vgaWidth] at hptr
    omega
  have hgap : min (vgaWidth * k) vgaScrSize = vgaScrSize := by
    simp only [vgaScrSize, vgaHeight, vgaWidth] at hscreen ⊢
    omega
  have hfar : 2 * vgaScrSize ≤ F.ttyPtr := by
    simp only [vgaScrSize, vgaHeight, vgaWidth] at hscreen hlast hptr ⊢
    omega
  obtain ⟨hptr', -, -⟩ := ttyScroll_of_gap (by omega) hgap F
  rw [ttyUpdateCursor_of_row hk hrows (h.row hinside hk)]
  generalize ttyScroll (k : Int) F = F' at hptr'
  refine ⟨?_, hfar⟩
  rintro ⟨_, hcursor⟩
  have hcursor' : F'.ttyPtr = W.ttyPtr := hcursor
  omega

/-- The one scroll at the end of `tty_puts` makes good for the others exactly when
nothing was shown below the screen and the cursor is less than a screen below it. -/
theorem Deferred.same_iff {k : Nat} {below : Bool} {F W : Screen} (h : Deferred k below F W)
    (hinside : W.ttyPtr < vgaScrSize) (hfits : F.ttyPtr < 2 ^ 32) :
    SameScreen (ttyUpdateCursor F) W ↔ below = false ∧ F.ttyPtr < 2 * vgaScrSize := by
  have hptr := h.ptr
  rcases Nat.eq_zero_or_pos k with rfl | hk
  · have hsame : F.ttyPtr = W.ttyPtr := hptr
    rw [ttyUpdateCursor_of_lt (hsame ▸ hinside)]
    refine iff_of_true ⟨fun j hj => (h.same rfl j hj).symm, hsame⟩ ⟨?_, by omega⟩
    cases hbelow : below with
    | false => rfl
    | true =>
        obtain ⟨j, hj, hlow, _⟩ := h.seen (Nat.zero_le _) hbelow
        exact absurd hlow (Nat.not_le.mpr hj)
  · rcases Nat.lt_or_ge vgaHeight k with hscreen | hscreen
    · obtain ⟨hother, hfar⟩ := h.not_same_far hinside hfits hscreen
      exact iff_of_false hother fun hnear => Nat.not_lt.mpr hfar hnear.2
    · have hnear : F.ttyPtr < 2 * vgaScrSize := by
        simp only [vgaScrSize, vgaHeight, vgaWidth] at hscreen hinside hptr ⊢
        omega
      rw [and_iff_left hnear]
      exact h.same_iff_near hinside hk hscreen

/-! ## The two ways to show a string -/

theorem deferred_refl {s : Screen} (hptr : s.ttyPtr < vgaScrSize) : Deferred 0 false s s where
  color := rfl
  ptr := rfl
  inside := Nat.le_of_lt hptr
  same := fun _ _ _ => rfl
  lastRow := fun hk => absurd hk (Nat.lt_irrefl 0)
  kept := fun hk => absurd hk (Nat.lt_irrefl 0)
  fresh := fun hk => absurd hk (Nat.lt_irrefl 0)
  seen := fun _ hbelow => Bool.noConfusion hbelow

/-- One scroll for many, as long as the cursor is a 32-bit number. -/
theorem sameScreen_iff {s : Screen} (hptr : s.ttyPtr < vgaScrSize) {cs : List Byte}
    (hplain : ∀ c ∈ cs, c ≠ 0x08 ∧ c ≠ 0) (hfits : NoWrap cs s.ttyPtr) :
    SameScreen (ttyUpdateCursor (writeAll cs s)) (putcAll cs s) ↔ TextFits cs s.ttyPtr := by
  obtain ⟨k, hrun, hinside, hcursor⟩ := (deferred_refl hptr).run hptr hplain hfits
  have hlt : (writeAll cs s).ttyPtr < 2 ^ 32 := by
    rw [hcursor]
    exact cursorAfter_lt (Nat.lt_trans hptr (by decide)) hfits
  rw [hrun.same_iff hinside hlt, hcursor, Bool.false_or]
  rfl

/-- A string without escape sequences and backspaces: `tty_puts` shows what `tty_putc`
shows for its characters when no character shows below the screen and the cursor ends
less than a screen below it, and only then, as long as `tty_ptr` does not wrap. -/
theorem ttyPuts_sameScreen_iff {m : Memory} {str : Nat} {cs : List Byte}
    (hstr : StrAt m str cs) (hlen : cs.length < stringFuel)
    (hplain : ∀ c ∈ cs, c ≠ 0x1b ∧ c ≠ 0x08) {s : Screen} (hptr : s.ttyPtr < vgaScrSize) :
    (TextFits cs s.ttyPtr → SameScreen (ttyPuts m str s).1 (putcAll cs s)) ∧
      (NoWrap cs s.ttyPtr → SameScreen (ttyPuts m str s).1 (putcAll cs s) →
        TextFits cs s.ttyPtr) := by
  have hplain' : ∀ c ∈ cs, c ≠ 0x08 ∧ c ≠ 0 :=
    fun c hc => ⟨(hplain c hc).2, hstr.ne_zero c hc⟩
  rw [ttyPuts_eq hstr hlen fun c hc => (hplain c hc).1]
  constructor
  · intro hfits
    exact (sameScreen_iff hptr hplain' (noWrap_of_textFits hfits.2)).mpr hfits
  · intro hwrap hsame
    exact (sameScreen_iff hptr hplain' hwrap).mp hsame

/-- The string `ab`. -/
def stringAb : Memory := fun i => if i = 0 then 0x61 else if i = 1 then 0x62 else 0

theorem strAt_stringAb : StrAt stringAb 0 [0x61, 0x62] :=
  ⟨rfl, by decide, rfl, by decide, (rfl : stringAb 2 = 0)⟩

/-- A screen with the cursor at the cell `ptr`. -/
def screenAt (ptr : Nat) : Screen := ⟨fun _ => 0, ptr, 0x07, 0, 0⟩

/-- With the cursor in the last but one cell, both characters of `ab` are shown. -/
theorem ttyPuts_sameScreen_iff_last_two :
    SameScreen (ttyPuts stringAb 0 (screenAt 1998)).1 (putcAll [0x61, 0x62] (screenAt 1998)) :=
  (ttyPuts_sameScreen_iff strAt_stringAb (by decide) (by decide) (by decide)).1
    ⟨by decide, by decide⟩

/-- With the cursor in the last cell, the `b` of `ab` is lost. -/
theorem ttyPuts_loses_character :
    StrAt stringAb 0 [0x61, 0x62] ∧ (screenAt 1999).ttyPtr < vgaScrSize ∧
      ¬ SameScreen (ttyPuts stringAb 0 (screenAt 1999)).1
        (putcAll [0x61, 0x62] (screenAt 1999)) := by
  refine ⟨strAt_stringAb, by decide, fun hsame => ?_⟩
  rw [ttyPuts_eq strAt_stringAb (by decide) (by decide)] at hsame
  have hwrap : NoWrap [0x61, 0x62] (screenAt 1999).ttyPtr := ⟨by decide, by decide, trivial⟩
  have hfits := (sameScreen_iff (by decide) (by decide) hwrap).mp hsame
  exact absurd hfits.1 (by decide)

end DonutOS.Kernel
