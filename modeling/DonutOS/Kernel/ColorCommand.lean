import DonutOS.Kernel.Commands
import DonutOS.Kernel.TtySpec
import DonutOS.Libc.AtoiText

set_option autoImplicit false

/-!
# Kernel: the command `color` (`kernel/src/tty.c`)

The command asks two questions, reads two lines, and sets the colour that the two numbers
make, from the keyboard to the cells of the screen.
-/

namespace DonutOS.Kernel

open DonutOS.Foundation DonutOS.Libc

/-- `tty_puts` of a constant. -/
def putsLine (text : List Byte) (s : Tty) : Tty :=
  s.onScreen fun screen => (ttyPuts (literal text) 0 screen).1

/-- A question and the answer, which is typed with these codes and read to `input`. -/
def askLine (input : Dest) (question codes : List Byte) (s : Tty) : Tty :=
  (scanAll codes ⟨ttyReadStart (putsLine question s), some input, []⟩).tty

/-- `"Enter color: "` -/
def enterColor : List Byte :=
  chars ['E', 'n', 't', 'e', 'r', ' ', 'c', 'o', 'l', 'o', 'r', ':', ' ']

/-- `"Background color: "` -/
def backgroundColor : List Byte :=
  chars ['B', 'a', 'c', 'k', 'g', 'r', 'o', 'u', 'n', 'd', ' ', 'c', 'o', 'l', 'o', 'r', ':',
    ' ']

/-- `color` and `bg`, and what is there before `tty_set_color`. -/
def colorAnswers (input : Dest) (colorCodes bgCodes : List Byte) (s : Tty) :
    Option (Int × Int × Tty) := do
  let s := askLine input enterColor colorCodes s
  let color ← (atoiInt s.mem.bytes input.addr).val
  let s := askLine input backgroundColor bgCodes s
  let bg ← (atoiInt s.mem.bytes input.addr).val
  return (color, bg, putsLine [keyEnter] s)

/-- `__color_command`.  An `int` becomes an enumeration, which is unsigned. -/
def colorCommand (input : Dest) (colorCodes bgCodes : List Byte) (s : Tty) : Option Tty :=
  (colorAnswers input colorCodes bgCodes s).map fun (color, bg, s) =>
    s.onScreen (ttySetColor (BitVec.ofInt 32 color) (BitVec.ofInt 32 bg))

theorem Between.onScreen {s : Tty} (h : Between s) (f : Screen → Screen) :
    Between (s.onScreen f) := ⟨h.ptr, h.ends⟩

/-- A line that is typed as the answer. -/
theorem askLine_typed {s : Tty} (hs : Between s) (htidy : Tidy none s.mem) {cs codes : List Byte}
    (htyped : Typed s.kb.mods cs codes) (hlen : cs.length < ttyInputSize)
    (harrow : ∀ c ∈ cs, c ∉ arrowKeys) (input : Dest) (question : List Byte) :
    StrAt (askLine input question (codes ++ enterCodes) s).mem.bytes input.addr
        (cs.map (received s.kb.mods.capsLock)) ∧
      Between (askLine input question (codes ++ enterCodes) s) ∧
      Tidy none (askLine input question (codes ++ enterCodes) s).mem ∧
      (askLine input question (codes ++ enterCodes) s).kb.mods.capsLock =
        s.kb.mods.capsLock := by
  have hs' : Between (putsLine question s) := hs.onScreen _
  obtain ⟨htext, hread, hcaps⟩ := Typed.line hs' htidy htyped hlen harrow input []
  exact ⟨htext, hread.between, hread.tidy, hcaps⟩

/-- The number of an answer. -/
theorem atoiInt_received {m : Memory} {input : Dest} {text : List Byte}
    (htext : StrAt m input.addr text) (hlen : text.length < ttyInputSize)
    (hint : leadingDecimal (signSplit text).2 < 2 ^ 31) :
    (atoiInt m input.addr).val = some (textInt text) := by
  rw [atoiInt_text htext (Nat.lt_trans hlen (by decide)), if_pos hint]
  rfl

/-- Digits that are typed are digits to `atoi` exactly while caps lock is off: each of
them shares its key with a character that no number starts with. -/
theorem textInt_received {cs : List Byte} (hdigits : ∀ c ∈ cs, isDigit c = true)
    (capsLock : Bool) :
    textInt (cs.map (received capsLock)) = if capsLock = true then 0 else (decimalOf cs : Int) := by
  cases capsLock with
  | false =>
      have hsame : cs.map (received false) = cs := List.map_id'' (fun _ => rfl) cs
      obtain ⟨hsplit, hleading⟩ := signSplit_digits hdigits
      rw [hsame, textInt, hsplit, cond_false, hleading]
      rfl
  | true =>
      have hother : ∀ c : Byte, isDigit c = true → isBlank (received true c) = false ∧
          received true c ≠ 0x2d ∧ received true c ≠ 0x2b ∧
          isDigit (received true c) = false := by decide +kernel
      cases cs with
      | nil => rfl
      | cons c cs =>
          obtain ⟨hblank, hminus, hplus, hdigit⟩ := hother c (hdigits c List.mem_cons_self)
          have hsplit : signSplit ((c :: cs).map (received true)) =
              (false, (c :: cs).map (received true)) := by
            rw [List.map_cons]
            unfold signSplit
            rw [List.dropWhile_cons_of_neg (by rw [hblank]; exact Bool.false_ne_true)]
            simp only [hminus, hplus, if_false]
          rw [textInt, hsplit, cond_false, leadingDecimal, List.map_cons,
            List.takeWhile_cons_of_neg (by rw [hdigit]; exact Bool.false_ne_true)]
          rfl

/-- In any state that a run reaches between two sessions, two texts are typed whose
numbers an `int` has room for: `color` reads the numbers of what is received, gives every
cell of the screen their colour and leaves its character.  For two decimal numbers these
are the numbers while caps lock is off; while it is on both are 0, black on black. -/
theorem colorCommand_typed {boot : Tty} (hboot : HistoryZero boot)
    {path : List (TtyEvent × Session)} (hrun : IsPath SessionStep (sessionStart boot) path)
    (hshort : StepsMeet LineShort (sessionStart boot) path) {s : Tty}
    {submitted : List (List Byte)}
    (hmem : ⟨s, none, submitted⟩ ∈ visited (sessionStart boot) path) (input : Dest)
    {cs codes ds codes' : List Byte} (htyped : Typed s.kb.mods cs codes)
    (htyped' : Typed (askLine input enterColor (codes ++ enterCodes) s).kb.mods ds codes')
    (hlen : cs.length < ttyInputSize) (hlen' : ds.length < ttyInputSize)
    (harrow : ∀ c ∈ cs ++ ds, c ∉ arrowKeys)
    (hint : ∀ text ∈ [cs, ds],
      leadingDecimal (signSplit (text.map (received s.kb.mods.capsLock))).2 < 2 ^ 31) :
    let color := textInt (cs.map (received s.kb.mods.capsLock))
    let bg := textInt (ds.map (received s.kb.mods.capsLock))
    (∃ u t, colorAnswers input (codes ++ enterCodes) (codes' ++ enterCodes) s =
          some (color, bg, u) ∧
        colorCommand input (codes ++ enterCodes) (codes' ++ enterCodes) s = some t ∧
        Between t ∧ ∀ j < vgaScrSize, t.screen.ttyBuffer j =
          recolor (vgaColor (BitVec.ofInt 32 color) (BitVec.ofInt 32 bg))
            (u.screen.ttyBuffer j)) ∧
      ((∀ c ∈ cs ++ ds, isDigit c = true) →
        (color, bg) = if s.kb.mods.capsLock = true then (0, 0)
          else ((decimalOf cs : Int), (decimalOf ds : Int))) := by
  have hs : Between s := sessionRuns_sound boot hrun _ hmem
  have htidy : Tidy none s.mem := (hrun.invariant_of_stepsMeet
    (fun _ _ _ hinv hok hstep => (hstep.inside_iff hinv).2 hok) (tidySession_start hboot)
    hshort _ hmem).2
  obtain ⟨harrow₁, harrow₂⟩ := List.forall_mem_append.mp harrow
  obtain ⟨hint₁, hint₂⟩ : _ ∧ _ := ⟨hint cs (by simp), hint ds (by simp)⟩
  have hsize : ∀ {text : List Byte}, text.length < ttyInputSize →
      (text.map (received s.kb.mods.capsLock)).length < ttyInputSize :=
    fun h => by rwa [List.length_map]
  -- the first answer
  obtain ⟨htext₁, hbetween₁, htidy₁, hcaps₁⟩ :=
    askLine_typed hs htidy htyped hlen harrow₁ input enterColor
  have hcolor := atoiInt_received htext₁ (hsize hlen) hint₁
  -- the second, which caps lock treats as the first
  obtain ⟨htext₂, hbetween₂, -, -⟩ :=
    askLine_typed hbetween₁ htidy₁ htyped' hlen' harrow₂ input backgroundColor
  rw [hcaps₁] at htext₂
  have hbg := atoiInt_received htext₂ (hsize hlen') hint₂
  constructor
  · have hanswers : colorAnswers input (codes ++ enterCodes) (codes' ++ enterCodes) s =
        some (textInt (cs.map (received s.kb.mods.capsLock)),
          textInt (ds.map (received s.kb.mods.capsLock)),
          putsLine [keyEnter] (askLine input backgroundColor (codes' ++ enterCodes)
            (askLine input enterColor (codes ++ enterCodes) s))) := by
      unfold colorAnswers
      simp only [hcolor, hbg, Option.bind_eq_bind, Option.bind_some]
      rfl
    have hbetween : Between (putsLine [keyEnter] (askLine input backgroundColor
        (codes' ++ enterCodes) (askLine input enterColor (codes ++ enterCodes) s))) :=
      hbetween₂.onScreen _
    generalize putsLine [keyEnter] (askLine input backgroundColor (codes' ++ enterCodes)
      (askLine input enterColor (codes ++ enterCodes) s)) = u at hanswers hbetween
    generalize textInt (cs.map (received s.kb.mods.capsLock)) = color at hanswers ⊢
    generalize textInt (ds.map (received s.kb.mods.capsLock)) = bg at hanswers ⊢
    have hcommand : colorCommand input (codes ++ enterCodes) (codes' ++ enterCodes) s =
        some (u.onScreen (ttySetColor (BitVec.ofInt 32 color) (BitVec.ofInt 32 bg))) := by
      rw [colorCommand, hanswers, Option.map_some]
    refine ⟨u, _, hanswers, hcommand, hbetween.onScreen _, fun j hj => ?_⟩
    exact ttySetColor_cells _ _ u.screen hj
  · intro hdigits
    obtain ⟨hdigits₁, hdigits₂⟩ := List.forall_mem_append.mp hdigits
    rw [textInt_received hdigits₁, textInt_received hdigits₂]
    split <;> rfl

/-- `4` and `7` are typed in the first session: red on grey. -/
theorem colorCommand_typed_red : ∃ u t,
    colorAnswers promptDest ([0x05, 0x85] ++ enterCodes) ([0xaa, 0x08, 0x88] ++ enterCodes)
        (ttyInit bootTty) = some (4, 7, u) ∧
      colorCommand promptDest ([0x05, 0x85] ++ enterCodes) ([0xaa, 0x08, 0x88] ++ enterCodes)
        (ttyInit bootTty) = some t ∧
      ∀ j < vgaScrSize, t.screen.ttyBuffer j = recolor 0x74 (u.screen.ttyBuffer j) := by
  have hzero : HistoryZero bootTty := fun _ _ => rfl
  have hrun : IsPath SessionStep (sessionStart bootTty) [] := trivial
  have hfour : usKey false 0x05 = some 0x34 := by decide
  have hseven : usKey false 0x08 = some 0x37 := by decide
  have hplain : ∀ capsLock, false = needsShift capsLock false 0x37 := by decide
  have htyped : Typed (ttyInit bootTty).kb.mods [0x34] [0x05, 0x85] := .char hfour rfl (.nil _)
  have htyped' : ∀ mods, Typed mods [0x37] [0xaa, 0x08, 0x88] := fun mods =>
    .shift false (.char hseven (hplain _) (.nil _))
  obtain ⟨⟨u, t, hanswers, hcommand, -, hcells⟩, -⟩ := colorCommand_typed hzero hrun trivial
    (start_mem_visited _ _) promptDest htyped (htyped' _) (by decide) (by decide) (by decide)
    (by decide)
  exact ⟨u, t, hanswers, hcommand, hcells⟩

end DonutOS.Kernel
