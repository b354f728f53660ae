import DonutOS.Kernel.DonutPicture
import DonutOS.Kernel.TtyCells
import DonutOS.Libc.PrintfExpansion

set_option autoImplicit false

/-!
# Kernel: the donut on the screen (`kernel/src/donut.c`)

A frame is written character by character below the cursor, and an escape takes the
cursor back to where it was.  The first column of `b` is not shown: in its place there is
the end of the line above.
-/

namespace DonutOS.Kernel

open DonutOS.Foundation DonutOS.Libc

/-- `putchar`; a `char` is signed. -/
def putchar (c : Byte) (s : Screen) : Screen := ttyPutc (c.signExtend 16) s

/-- The loop that shows `b`. -/
def putCanvas (c : Canvas) (s : Screen) : Option Screen :=
  forLoop (fun k s => do
    let s ← s
    let ch ← canvasByte c k
    return putchar ch s) 0 1761 (some s)

/-- What a frame leaves to the next: the number and the angles, the memory of `printf` and
the screen. -/
structure Spin where
  frame : Int
  angles : Angles
  st : Store
  screen : Screen

/-- The two arguments of `tty_set_color`; `saved` is `__tty_color`, which has 16 bits. -/
def frameColors (saved : BitVec 16) (frame : Int) : Option (Word × Word) := do
  let fg ← (frameForeground (.of frame)).val
  return (BitVec.ofInt 32 fg, (saved.setWidth 32 >>> 16) % 16)

/-- The colour that a frame sets. -/
def frameColor (saved : BitVec 16) (frame : Int) : Option (BitVec 16) :=
  (frameColors saved frame).map fun c => vgaColor c.1 c.2

section Rounds

variable (fpu : Doubles) (frame : PrintfFrame) (text : Memory) (fmt : Nat)

/-- The body of the loop of `donut` when it does not return; `fmt` is the address of
`"\x1b[23A"` in `text`. -/
def donutRound (saved : BitVec 16) (s : Spin) : Option Spin := do
  let (fg, bg) ← frameColors saved s.frame
  let screen := ttySetColor fg bg s.screen
  let canvas ← drawFrame s.angles
  let screen ← putCanvas canvas screen
  let angles ← nextAngles s.angles
  let printed ← printf fpu frame text fmt (fun _ => 0) s.st screen
  return ⟨s.frame, angles, printed.final.st, printed.screen⟩

/-- `frame++`. -/
def Spin.next (s : Spin) : Option Spin := do
  let frame ← (CInt.of s.frame + 1).val
  return { s with frame }

/-- The first rounds of the loop, each with its `frame++`. -/
def donutRounds (saved : BitVec 16) : Nat → Spin → Option Spin
  | 0, s => some s
  | n + 1, s => do
      let s ← donutRounds saved n s
      let s ← donutRound fpu frame text fmt saved s
      s.next

end Rounds

/-! ## The characters of a frame -/

/-- The part of the screen below row `r` that a frame writes. -/
def InWindow (r j : Nat) : Prop := 80 * (r + 1) ≤ j ∧ j < 80 * (r + 23) ∧ j % 80 ≠ 79

instance (r j : Nat) : Decidable (InWindow r j) := inferInstanceAs (Decidable (_ ∧ _ ∧ _))

/-- The cell of `b` that is shown there. -/
def canvasCell (r j : Nat) : Nat := j - (80 * r + 79)

/-- A character that takes a cell and nothing else. -/
def TakesCell (c : Byte) : Prop := c ≠ 0x08 ∧ printed c = true

theorem advance_of_printed {c : Byte} (h : printed c = true) (p : Nat) : advance c p = p + 1 := by
  rw [printed, Bool.and_eq_true, bne_iff_ne, bne_iff_ne] at h
  rw [advance, if_neg h.1, if_neg h.2]

theorem putchar_spec {c : Byte} (hbs : c ≠ 0x08) {s : Screen}
    (hfits : advance c s.ttyPtr < vgaScrSize) :
    (putchar c s).ttyColor = s.ttyColor ∧ (putchar c s).ttyPtr = advance c s.ttyPtr ∧
      ∀ j, (putchar c s).ttyBuffer j =
        if printed c = true ∧ j = s.ttyPtr then vgaEntry (c.signExtend 16) s.ttyColor
        else s.ttyBuffer j := by
  obtain ⟨hcolor, hptr, hcells⟩ := ttyWriteChar_spec hbs
    (Nat.lt_trans hfits (by decide : vgaScrSize < 2 ^ 32))
  rw [← hptr] at hfits
  unfold putchar ttyPutc
  rw [ttyUpdateCursor_of_lt hfits]
  exact ⟨hcolor, hptr, hcells⟩

/-- What the loop that shows `b` has done when the round of index `k` starts. -/
structure ShownUpTo (c : Canvas) (r k : Nat) (before after : Screen) : Prop where
  color : after.ttyColor = before.ttyColor
  ptr : after.ttyPtr = if k = 0 then 80 * r else 80 * r + 79 + k
  cells : ∀ j, after.ttyBuffer j =
    if 80 * (r + 1) ≤ j ∧ j < 80 * r + 79 + k ∧ j % 80 ≠ 79 then
      vgaEntry ((c.b (canvasCell r j)).signExtend 16) before.ttyColor
    else before.ttyBuffer j

/-- A character of `b`. -/
theorem ShownUpTo.character {c : Canvas} {r k : Nat} (hr : r ≤ 1) {s t : Screen}
    (h : ShownUpTo c r k s t) (hc : TakesCell (c.b k)) (hk : k < 1761) (hline : k % 80 ≠ 0) :
    ShownUpTo c r (k + 1) s (putchar (c.b k) t) := by
  obtain ⟨hcolor, hcursor, hcells⟩ := h
  have hpos : k ≠ 0 := by omega
  have hnext : ¬ k + 1 = 0 := by omega
  rw [if_neg hpos] at hcursor
  obtain ⟨hbs, hprinted⟩ := hc
  have hadvance : advance (c.b k) t.ttyPtr = t.ttyPtr + 1 := advance_of_printed hprinted _
  obtain ⟨hcolor', hptr', hcells'⟩ := putchar_spec hbs (s := t)
    (by rw [hadvance]; unfold vgaScrSize vgaHeight vgaWidth; omega)
  refine ⟨hcolor'.trans hcolor, by rw [hptr', hadvance, if_neg hnext]; omega, fun j => ?_⟩
  rw [hcells', hcells, hcolor, hcursor]
  by_cases hj : j = 80 * r + 79 + k
  · have hcell : canvasCell r j = k := by
      unfold canvasCell
      omega
    rw [if_pos ⟨hprinted, hj⟩, if_pos (by omega), hcell]
  · have hother : ¬ (printed (c.b k) = true ∧ j = 80 * r + 79 + k) := fun h => hj h.2
    rw [if_neg hother]
    refine if_congr ?_ rfl rfl
    omega

/-- The end of a line. -/
theorem ShownUpTo.line {c : Canvas} {r k : Nat} (hr : r ≤ 1) {s t : Screen}
    (h : ShownUpTo c r k s t) (hk : k < 1761) (hline : k % 80 = 0) :
    ShownUpTo c r (k + 1) s (putchar 0x0a t) := by
  obtain ⟨hcolor, hcursor, hcells⟩ := h
  have hnext : ¬ k + 1 = 0 := by omega
  have hadvance : advance 0x0a t.ttyPtr = 80 * r + 79 + (k + 1) := by
    unfold advance vgaWidth
    rw [if_pos rfl, hcursor]
    split <;> omega
  obtain ⟨hcolor', hptr', hcells'⟩ := putchar_spec (c := 0x0a) (by decide) (s := t)
    (by rw [hadvance]; unfold vgaScrSize vgaHeight vgaWidth; omega)
  refine ⟨hcolor'.trans hcolor, by rw [hptr', hadvance, if_neg hnext], fun j => ?_⟩
  have hsilent : ¬ (printed 0x0a = true ∧ j = t.ttyPtr) := fun h => absurd h.1 (by decide)
  rw [hcells', if_neg hsilent, hcells]
  refine if_congr ?_ rfl rfl
  omega

/-- All characters of a frame, from the start of row 0 or 1 on. -/
theorem putCanvas_spec {c : Canvas} (hc : ∀ k, TakesCell (c.b k)) {r : Nat} (hr : r ≤ 1)
    {s : Screen} (hptr : s.ttyPtr = 80 * r) :
    ∃ t, putCanvas c s = some t ∧ t.ttyColor = s.ttyColor ∧ t.ttyPtr = 80 * (r + 23) ∧
      ∀ j, t.ttyBuffer j =
        if InWindow r j then vgaEntry ((c.b (canvasCell r j)).signExtend 16) s.ttyColor
        else s.ttyBuffer j := by
  obtain ⟨t, hrun, hcolor, hend, hcells⟩ := forLoop_invariant
    (fun k o => ∃ t, o = some t ∧ ShownUpTo c r k s t) 1761 0 (some s)
    ⟨s, rfl, rfl, hptr, fun j => (if_neg (by omega)).symm⟩
    (f := fun k s => do
      let s ← s
      let ch ← canvasByte c k
      return putchar ch s) (by
    rintro k _ - hk ⟨t, rfl, hshown⟩
    rw [Nat.zero_add] at hk
    refine ⟨putchar (if k % 80 ≠ 0 then c.b k else 0x0a) t, ?_, ?_⟩
    · rw [canvasByte_eq c hk]
      rfl
    · by_cases hline : k % 80 ≠ 0
      · rw [if_pos hline]
        exact hshown.character hr (hc k) hk hline
      · rw [if_neg hline]
        exact hshown.line hr hk (not_not.mp hline))
  have hlast : ¬ 0 + 1761 = 0 := by omega
  rw [if_neg hlast] at hend
  refine ⟨t, hrun, hcolor, by omega, fun j => (hcells j).trans (if_congr ?_ rfl rfl)⟩
  unfold InWindow
  omega

/-! ## Back to the first line -/

/-- `"\x1b[23A"`. -/
def upBytes : List Byte := [0x1b, 0x5b, 0x32, 0x33, 0x41]

theorem ttyPutsLoop_nul {m : Memory} {str : Nat} (h : m str = 0) (fuel : Nat) (s : Screen) :
    ttyPutsLoop m (fuel + 1) str s = (s, str) := if_pos h

theorem ttyPuts_fst (m : Memory) (str : Nat) (s : Screen) :
    (ttyPuts m str s).1 = ttyUpdateCursor (ttyPutsLoop m stringFuel str s).1 := by
  unfold ttyPuts
  generalize ttyPutsLoop m stringFuel str s = r
  cases r
  rfl

theorem exists_stringFuel : ∃ k, stringFuel = k + 1 + 1 := by
  have hrounds : 2 ≤ stringFuel := by decide
  exact ⟨stringFuel - 2, by omega⟩

/-- The loop of `tty_puts` over the escape. -/
theorem ttyPutsLoop_up {m : Memory} {str : Nat} (h : StrAt m str upBytes) (fuel : Nat)
    (s : Screen) :
    (ttyPutsLoop m (fuel + 1 + 1) str s).1 =
      ttyEscape CursorLetter.up.code (numeral [2, 3]) s := by
  have hsplit : StrAt m str
      (0x1b :: 0x5b :: (([2, 3] : List (Fin 10)).map digitByte ++ [CursorLetter.up.code])) := h
  obtain ⟨hrest, _, _, hround⟩ :=
    ttyPutsLoopLog_escape (fuel + 1) (by decide) s hsplit (by decide)
  have hloop := congrArg Prod.fst hround
  rw [ttyPutsLoopLog_fst, ttyPutsLoopLog_fst, ttyPutsLoop_nul hrest] at hloop
  exact congrArg Prod.fst hloop

theorem ttyEscape_up {s : Screen} {p : Nat} (hptr : s.ttyPtr = p + 80 * 23)
    (hp : p < vgaScrSize) :
    ttyEscape CursorLetter.up.code (numeral [2, 3]) s = { s with ttyPtr := p } := by
  have hsame : ((s.ttyPtr - vgaWidth * (numeral [2, 3] : Int)) % 2 ^ 32).toNat = p := by
    have hnumeral : numeral [2, 3] = 23 := by decide
    rw [hptr, hnumeral]
    unfold vgaScrSize vgaHeight vgaWidth at hp
    unfold vgaWidth
    omega
  exact congrArg (fun q => { s with ttyPtr := q }) hsame

/-- `tty_puts` of the escape. -/
theorem ttyPuts_up {m : Memory} {str : Nat} (h : StrAt m str upBytes) {s : Screen} {p : Nat}
    (hptr : s.ttyPtr = p + 80 * 23) (hp : p < vgaScrSize) :
    (ttyPuts m str s).1 = { s with ttyPtr := p, cursor := p } := by
  obtain ⟨fuel, hfuel⟩ := exists_stringFuel
  have hcursor : p % 2 ^ 16 = p := Nat.mod_eq_of_lt (Nat.lt_trans hp (by decide))
  rw [ttyPuts_fst, hfuel, ttyPutsLoop_up h, ttyEscape_up hptr hp, ttyUpdateCursor_of_lt hp,
    vgaMoveCursorTo, hcursor]

/-- The screen of `printf` is that of its last call, whatever function that is. -/
theorem printed_screen {puts : Memory → Nat → Screen → Screen × Nat} {str : Nat} {s : Screen}
    {x : Libc.Printed} {r : Option PrintfState}
    (h : (r.map fun p =>
      (⟨(puts (p.st.put p.s 0).bytes str s).2, { p with st := p.st.put p.s 0 },
        (puts (p.st.put p.s 0).bytes str s).1⟩ : Libc.Printed)) = some x) :
    x.screen = (puts x.final.st.bytes str s).1 := by
  obtain ⟨p, -, rfl⟩ := Option.map_eq_some_iff.mp h
  rfl

theorem printf_screen {fpu : Doubles} {frame : PrintfFrame} {text : Memory} {fmt : Nat}
    (hfmt : fmt ≠ 0) {args : Nat → Nat} {st : Store} {s : Screen} {x : Libc.Printed}
    (h : printf fpu frame text fmt args st s = some x) :
    x.screen = (ttyPuts x.final.st.bytes frame.str s).1 := by
  rw [printf_eq _ _ _ hfmt] at h
  exact printed_screen h

/-- `printf` of the escape shows nothing and takes the cursor up. -/
theorem printf_up (fpu : Doubles) {frame : PrintfFrame} (happart : frame.Apart) {text : Memory}
    {fmt : Nat} (hfmt : fmt ≠ 0) (htext : StrAt text fmt upBytes) (st : Store) {s : Screen}
    {p : Nat} (hptr : s.ttyPtr = p + 80 * 23) (hp : p < vgaScrSize) :
    ∃ x, printf fpu frame text fmt (fun _ => 0) st s = some x ∧
      x.screen = { s with ttyPtr := p, cursor := p } := by
  have hok : ∀ piece ∈ upBytes.map Piece.char, piece.Ok ∧ piece.WidthFits := by
    intro piece hpiece
    obtain ⟨c, hc, rfl⟩ := List.mem_map.mp hpiece
    have hplain : ∀ c ∈ upBytes, c ≠ 0 ∧ c ≠ 0x25 := by decide
    exact ⟨hplain c hc, Nat.succ_pos _⟩
  have hloaded : Loaded frame text fmt (fun _ => 0) st (upBytes.map Piece.char) :=
    ⟨happart, hfmt, htext, by decide, trivial, trivial, trivial, trivial, trivial, trivial⟩
  have htext : textOfPieces fpu unsignedRendering (upBytes.map Piece.char) = upBytes := rfl
  have hroom : (textOfPieces fpu unsignedRendering (upBytes.map Piece.char)).length <
      vgaScrSize := by
    rw [htext]
    decide
  obtain ⟨x, hx, ⟨hbytes, hend⟩, -⟩ := printf_built fpu s hok hloaded hroom
  refine ⟨x, hx, ?_⟩
  rw [printf_screen hfmt hx]
  exact ttyPuts_up (strAt_of_get (by decide) hbytes hend) hptr hp

/-! ## One round -/

/-- Setting the colour changes the colour of every cell and no character. -/
theorem ttySetColor_spec (fg bg : Word) {s : Screen} (hptr : s.ttyPtr < 2 ^ 32) :
    (ttySetColor fg bg s).ttyPtr = s.ttyPtr ∧
      (ttySetColor fg bg s).ttyColor = vgaColor fg bg ∧
      ∀ j < vgaScrSize, (ttySetColor fg bg s).ttyBuffer j =
        recolor (vgaColor fg bg) (s.ttyBuffer j) := by
  have hgap : vgaWidth * 0 ≤ vgaScrSize := Nat.zero_le _
  obtain ⟨hptr', hcolor, -⟩ := ttyScroll_cells hgap { s with ttyColor := vgaColor fg bg }
  simp only [Nat.mul_zero, Nat.sub_zero, Nat.cast_zero] at hptr'
  refine ⟨?_, hcolor, fun j hj => ttySetColor_cells fg bg s hj⟩
  rw [ttySetColor, hptr', Nat.add_mod_right]
  exact Nat.mod_eq_of_lt hptr

theorem takesCell_of_canvas {canvas : Canvas} {n : Nat} {a : Angles} (ha : a.OnCircles)
    (hbuffer : canvas.buffer = blankCanvas.buffer.drawAll (frameSamples a n)) (k : Nat) :
    TakesCell (canvas.b k) := by
  have hall : ∀ c ∈ (32 : Byte) :: shades.take 12, TakesCell c := by
    unfold TakesCell
    decide
  have hshows := DepthBuffer.shows_drawAll blankCanvas.buffer (frameSamples a n) k
  rw [← hbuffer] at hshows
  rcases hshows with ⟨s, hs, -, -, -, hcolour⟩ | ⟨-, -, hblank⟩
  · obtain ⟨before, after, hsplit, -, -⟩ := hs
    have hmem : s ∈ frameSamples a n := by
      rw [hsplit]
      exact List.mem_append_right _ List.mem_cons_self
    have hcell : canvas.b k = s.colour := hcolour
    rw [hcell]
    exact hall _ (List.mem_cons_of_mem _ (onPicture_of_mem ha hmem).colour)
  · have hcell : canvas.b k = 32 := hblank
    rw [hcell]
    exact hall _ List.mem_cons_self

/-- What is on the screen after a frame that began with the cursor at the start of row
`r`, in the colour of the frame. -/
structure FrameShown (r : Nat) (color : BitVec 16) (canvas : Canvas) (before after : Screen) :
    Prop where
  ptr : after.ttyPtr = 80 * r
  cells : ∀ j < vgaScrSize, after.ttyBuffer j =
    if InWindow r j then vgaEntry ((canvas.b (canvasCell r j)).signExtend 16) color
    else recolor color (before.ttyBuffer j)

/-- `frameColors` of an `int`. -/
theorem frameColors_eq (saved : BitVec 16) {n : Nat} (hn : n < 2 ^ 31) :
    frameColors saved n =
      some (BitVec.ofInt 32 ((n / 50 + 1) % 16 : Nat), (saved.setWidth 32 >>> 16) % 16) := by
  rw [frameColors, frameForeground_eq hn]
  rfl

section Rounds

variable (fpu : Doubles) {frame : PrintfFrame} (happart : frame.Apart) {text : Memory} {fmt : Nat}
  (hfmt : fmt ≠ 0) (htext : StrAt text fmt upBytes) (saved : BitVec 16) {r : Nat} (hr : r ≤ 1)

include happart hfmt htext hr

/-- A round shows its frame and takes the cursor back. -/
theorem donutRound_spec {n : Nat} (hn : n < 2 ^ 31) {s : Spin} (hframe : s.frame = n)
    (ha : s.angles.OnCircles) (hptr : s.screen.ttyPtr = 80 * r) :
    ∃ color canvas s', frameColor saved n = some color ∧ drawFrame s.angles = some canvas ∧
      donutRound fpu frame text fmt saved s = some s' ∧ s'.frame = n ∧
      nextAngles s.angles = some s'.angles ∧ FrameShown r color canvas s.screen s'.screen := by
  obtain ⟨canvas, hcanvas, hbuffer⟩ := drawFrame_eq ha
  obtain ⟨a', ha', -⟩ := nextAngles_eq ha
  have hcolors := frameColors_eq saved hn
  generalize BitVec.ofInt 32 ((n / 50 + 1) % 16 : Nat) = fg at hcolors
  generalize (saved.setWidth 32 >>> 16) % 16 = bg at hcolors
  have hstart : s.screen.ttyPtr < 2 ^ 32 := by omega
  obtain ⟨hptr₁, hcolor₁, hcells₁⟩ := ttySetColor_spec fg bg hstart
  obtain ⟨screen₂, hput, hcolor₂, hptr₂, hcells₂⟩ :=
    putCanvas_spec (takesCell_of_canvas ha hbuffer) hr (hptr₁.trans hptr)
  have hrow : 80 * r < vgaScrSize := by
    unfold vgaScrSize vgaHeight vgaWidth
    omega
  obtain ⟨x, hx, hshown⟩ := printf_up fpu happart hfmt htext s.st
    (hptr₂.trans (Nat.mul_add 80 r 23)) hrow
  refine ⟨vgaColor fg bg, canvas, ⟨s.frame, a', x.final.st, x.screen⟩, ?_, hcanvas, ?_, hframe,
    ha', ?_⟩
  · rw [frameColor, hcolors]
    rfl
  · simp only [donutRound, hframe, hcolors, hcanvas, hput, ha', hx, Option.bind_eq_bind,
      Option.bind_some]
    rfl
  · rw [hshown]
    refine ⟨rfl, fun j hj => ?_⟩
    dsimp only
    rw [hcells₂, hcolor₁, hcells₁ j hj]

/-- What holds between two rounds. -/
structure Spinning (r n : Nat) (screen : Screen) (s : Spin) : Prop where
  number : s.frame = n
  angles : frameAngles n = some s.angles
  circles : s.angles.OnCircles
  ptr : s.screen.ttyPtr = 80 * r
  around : ∀ j < vgaScrSize, ¬ InWindow r j → charAt s.screen j = charAt screen j

theorem donutRounds_spinning {n : Nat} (hn : n < 2 ^ 31) (st : Store) {screen : Screen}
    (hptr : screen.ttyPtr = 80 * r) :
    ∃ s, donutRounds fpu frame text fmt saved n ⟨0, firstAngles, st, screen⟩ = some s ∧
      Spinning r n screen s := by
  induction n with
  | zero => exact ⟨_, rfl, rfl, rfl, onCircles_first, hptr, fun _ _ _ => rfl⟩
  | succ n ih =>
      have hn' : n < 2 ^ 31 := Nat.lt_of_succ_lt hn
      obtain ⟨s, hs, hspin⟩ := ih hn'
      obtain ⟨color, canvas, s', -, -, hround, hnumber, hangles, hshown⟩ :=
        donutRound_spec fpu happart hfmt htext saved hr hn' hspin.number hspin.circles hspin.ptr
      obtain ⟨a, ha, hcircles⟩ := nextAngles_eq hspin.circles
      rw [hangles] at ha
      cases ha
      have hnext : s'.next = some { s' with frame := (n + 1 : Nat) } := by
        rw [Spin.next, hnumber, frame_succ hn]
        rfl
      refine ⟨{ s' with frame := (n + 1 : Nat) }, ?_, rfl, ?_, hcircles, hshown.ptr,
        fun j hj hout => ?_⟩
      · rw [donutRounds, hs, Option.bind_eq_bind, Option.bind_some, hround, Option.bind_some,
          hnext]
      · rw [frameAngles, hspin.angles, Option.bind_some, hangles]
      · rw [charAt, hshown.cells j hj, if_neg hout, setWidth_recolor]
        exact hspin.around j hj hout

/-- The round of the last `int` has no next one. -/
theorem donutRounds_last (st : Store) {screen : Screen} (hptr : screen.ttyPtr = 80 * r) {n : Nat}
    (hn : n < 2 ^ 31) (hlast : ¬ n + 1 < 2 ^ 31) :
    donutRounds fpu frame text fmt saved (n + 1) ⟨0, firstAngles, st, screen⟩ = none := by
  obtain ⟨s, hs, hspin⟩ := donutRounds_spinning fpu happart hfmt htext saved hr hn st hptr
  obtain ⟨color, canvas, s', -, -, hround, hnumber, -, -⟩ :=
    donutRound_spec fpu happart hfmt htext saved hr hn hspin.number hspin.circles hspin.ptr
  have hnext : s'.next = none := by
    rw [Spin.next, hnumber, frame_overflow hlast]
    rfl
  rw [donutRounds, hs, Option.bind_eq_bind, Option.bind_some, hround, Option.bind_some, hnext]

omit happart hfmt htext hr in
theorem donutRounds_none {n m : Nat} (hle : n ≤ m) {s : Spin}
    (hn : donutRounds fpu frame text fmt saved n s = none) :
    donutRounds fpu frame text fmt saved m s = none := by
  induction hle with
  | refl => exact hn
  | step _ ih =>
      rw [donutRounds, ih]
      rfl

/-- The first `2 ^ 31` frames of a donut that nobody stops are shown whole: on the 22 lines
below the cursor, without the first column, in the frame's own colour, with the rest of the
screen around it in that colour too and otherwise as it was, and the cursor where it was.
Then `frame++` overflows. -/
theorem donutRounds_shown (n : Nat) (st : Store) {screen : Screen}
    (hptr : screen.ttyPtr = 80 * r) :
    (n < 2 ^ 31 →
        ∃ a color canvas s s', frameAngles n = some a ∧ frameColor saved n = some color ∧
          drawFrame a = some canvas ∧
          donutRounds fpu frame text fmt saved n ⟨0, firstAngles, st, screen⟩ = some s ∧
          donutRound fpu frame text fmt saved s = some s' ∧
          FrameShown r color canvas screen s'.screen) ∧
      (2 ^ 31 ≤ n →
        donutRounds fpu frame text fmt saved n ⟨0, firstAngles, st, screen⟩ = none) := by
  refine ⟨fun hn => ?_, fun hn => ?_⟩
  · obtain ⟨s, hs, hspin⟩ :=
      donutRounds_spinning fpu happart hfmt htext saved hr hn st hptr
    obtain ⟨color, canvas, s', hcolor, hcanvas, hround, -, -, hshown⟩ :=
      donutRound_spec fpu happart hfmt htext saved hr hn hspin.number hspin.circles hspin.ptr
    refine ⟨s.angles, color, canvas, s, s', hspin.angles, hcolor, hcanvas, hs, hround,
      hshown.ptr, fun j hj => ?_⟩
    rw [hshown.cells j hj]
    by_cases hin : InWindow r j
    · rw [if_pos hin, if_pos hin]
    · rw [if_neg hin, if_neg hin]
      exact recolor_congr _ (hspin.around j hj hin)
  · have hlast := donutRounds_last fpu happart hfmt htext saved hr st hptr
      (n := 2 ^ 31 - 1) (by decide) (by decide)
    exact donutRounds_none fpu saved hn hlast

end Rounds

/-- Frame 100, on a cleared screen. -/
theorem donutRounds_shown_cleared : ∃ a color canvas s s',
    frameAngles 100 = some a ∧ frameColor 0x07 (100 : Nat) = some color ∧
      drawFrame a = some canvas ∧
      donutRounds noDoubles sampleFrame (textOf upBytes) 1 0x07 100
        ⟨0, firstAngles, ⟨fun _ => 0, []⟩, ⟨fun _ => 0x0720, 0, 0x07, 0, 0⟩⟩ = some s ∧
      donutRound noDoubles sampleFrame (textOf upBytes) 1 0x07 s = some s' ∧
      FrameShown 0 color canvas ⟨fun _ => 0x0720, 0, 0x07, 0, 0⟩ s'.screen :=
  (donutRounds_shown noDoubles (Or.inl (by decide)) (by decide) (strAt_textOf (by decide)) 0x07
    (Nat.zero_le 1) 100 _ rfl).1 (by decide)

end DonutOS.Kernel
