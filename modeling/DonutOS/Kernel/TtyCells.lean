import DonutOS.Kernel.TtyEscape
import DonutOS.Kernel.TtySession

set_option autoImplicit false

/-!
# Kernel: the cursor and the cells of the screen (`kernel/src/tty.c`)

Runs of `tty_putc` and `tty_puts` from `tty_init` on.  The cursor is brought back at the
end of a call, by at most a screen, and the characters before that go where it is.
-/

namespace DonutOS.Kernel

open DonutOS.Foundation DonutOS.Libc

/-! ## Strings of characters and cursor escapes -/

/-- The last letter of an escape that moves the cursor. -/
inductive CursorLetter
  | up
  | down
  | forward
  | back
  | home

def CursorLetter.code : CursorLetter → Byte
  | .up => 0x41
  | .down => 0x42
  | .forward => 0x43
  | .back => 0x44
  | .home => 0x48

/-- The cursor behind the escape, in 32 bits. -/
def CursorLetter.moved (letter : CursorLetter) (x : Int) (p : Nat) : Nat :=
  match letter with
  | .up => ((p - vgaWidth * x) % 2 ^ 32).toNat
  | .down => ((p + vgaWidth * x) % 2 ^ 32).toNat
  | .forward => ((p + x) % 2 ^ 32).toNat
  | .back => ((p - x) % 2 ^ 32).toNat
  | .home => 0

/-- A character, or an escape with up to nine digits. -/
inductive Token
  | char (c : Byte) (hne : c ≠ 0) (hesc : c ≠ 0x1b)
  | escape (digits : List (Fin 10)) (hshort : digits.length ≤ 9) (letter : CursorLetter)

def Token.bytes : Token → List Byte
  | .char c _ _ => [c]
  | .escape digits _ letter => 0x1b :: 0x5b :: (digits.map digitByte ++ [letter.code])

/-- The text of a string. -/
def tokenBytes (ts : List Token) : List Byte := ts.flatMap Token.bytes

/-- The token goes to a cell. -/
def Token.shows : Token → Bool
  | .char c _ _ => c != 0x0a && c != 0x0d && c != 0x08
  | .escape _ _ _ => false

/-- The cursor behind it, in 32 bits. -/
def Token.moved : Token → Nat → Nat
  | .char c _ _, p =>
      if c = 0x0a then (p + (vgaWidth - p % vgaWidth)) % 2 ^ 32
      else if c = 0x0d then p - p % vgaWidth
      else if c = 0x08 then (p + (2 ^ 32 - 1)) % 2 ^ 32
      else (p + 1) % 2 ^ 32
  | .escape digits _ letter, p => letter.moved (numeral digits) p

/-- The cells that the tokens go to. -/
def shownCells : List Token → Nat → List Nat
  | [], _ => []
  | t :: ts, p => (if t.shows then [p] else []) ++ shownCells ts (t.moved p)

/-- The cursor behind the tokens. -/
def cursorBehind (ts : List Token) (p : Nat) : Nat := ts.foldl (fun p t => t.moved p) p

/-- No token goes to a place that is no cell, and the cursor ends less than a screen
below the screen. -/
def textStays : List Token → Nat → Bool
  | [], p => decide (p < 2 * vgaScrSize)
  | t :: ts, p => (!t.shows || decide (p < vgaScrSize)) && textStays ts (t.moved p)

/-! ## Runs -/

/-- A call of `tty_putc`, or of `tty_puts` for a string in memory. -/
inductive OutputEvent
  | putc (c : BitVec 16)
  | puts (m : Memory) (str : Nat) (ts : List Token)

inductive OutputStep : Screen → OutputEvent → Screen → Prop
  | putc {s : Screen} (c : BitVec 16) : OutputStep s (.putc c) (ttyPutc c s)
  | puts {s : Screen} {m : Memory} {str : Nat} {ts : List Token}
      (hstr : StrAt m str (tokenBytes ts)) (hlen : (tokenBytes ts).length < stringFuel) :
      OutputStep s (.puts m str ts) (ttyPuts m str s).1

/-- The cells that the call writes. -/
def OutputEvent.cells : OutputEvent → Screen → List Nat
  | .putc c, s => (ttyPutcCells c s).2
  | .puts m str _, s => (ttyPutsLog m str s).2.cells

/-- The call writes cells of the screen only, and leaves the cursor on the screen. -/
structure OutputInside (s : Screen) (event : OutputEvent) (t : Screen) : Prop where
  cells : ∀ i ∈ event.cells s, i < vgaScrSize
  ptr : t.ttyPtr < vgaScrSize

/-- No backspace in the first cell, and no string that leaves the screen. -/
def StaysOnScreen (s : Screen) : OutputEvent → Prop
  | .putc c => c = 0x08 → s.ttyPtr ≠ 0
  | .puts _ _ ts => textStays ts s.ttyPtr = true

instance StaysOnScreen.decidable : ∀ s event, Decidable (StaysOnScreen s event)
  | s, .putc c => inferInstanceAs (Decidable (c = 0x08 → s.ttyPtr ≠ 0))
  | s, .puts _ _ ts => inferInstanceAs (Decidable (textStays ts s.ttyPtr = true))

/-! ## A call -/

theorem textStays_iff (ts : List Token) (p : Nat) :
    textStays ts p = true ↔
      (∀ i ∈ shownCells ts p, i < vgaScrSize) ∧ cursorBehind ts p < 2 * vgaScrSize := by
  induction ts generalizing p with
  | nil =>
      refine decide_eq_true_iff.trans (and_iff_right fun i hi => ?_).symm
      exact absurd hi List.not_mem_nil
  | cons t ts ih =>
      rw [textStays, Bool.and_eq_true, ih, shownCells, ← and_assoc]
      refine and_congr_left fun _ => ?_
      cases hshows : t.shows with
      | true => simp only [Bool.not_true, Bool.false_or, decide_eq_true_eq, if_true,
          List.singleton_append, List.forall_mem_cons]
      | false => simp only [Bool.not_false, Bool.true_or, true_and, Bool.false_eq_true, if_false,
          List.nil_append]

theorem Token.moved_lt (t : Token) {p : Nat} (hp : p < 2 ^ 32) : t.moved p < 2 ^ 32 := by
  cases t with
  | char c _ _ =>
      rw [Token.moved]
      split
      · exact Nat.mod_lt _ (by decide)
      split
      · omega
      split
      · exact Nat.mod_lt _ (by decide)
      · exact Nat.mod_lt _ (by decide)
  | escape digits _ letter =>
      rw [Token.moved]
      cases letter <;> simp only [CursorLetter.moved] <;> omega

theorem cursorBehind_lt (ts : List Token) {p : Nat} (hp : p < 2 ^ 32) :
    cursorBehind ts p < 2 ^ 32 := by
  induction ts generalizing p with
  | nil => exact hp
  | cons t ts ih => exact ih (t.moved_lt hp)

/-- The scroll at the end of a call takes the cursor up by a screen at most. -/
theorem ttyUpdateCursor_ptr_lt_iff {s : Screen} (hptr : s.ttyPtr < 2 ^ 32) :
    (ttyUpdateCursor s).ttyPtr < vgaScrSize ↔ s.ttyPtr < 2 * vgaScrSize := by
  by_cases hin : s.ttyPtr < vgaScrSize
  · rw [ttyUpdateCursor_of_lt hin]
    exact iff_of_true hin (by omega)
  · obtain ⟨n, hn⟩ : ∃ n, ttyRow s + 1 = vgaHeight + n := by
      refine ⟨ttyRow s + 1 - vgaHeight, ?_⟩
      simp only [ttyRow, vgaScrSize, vgaHeight, vgaWidth] at hin ⊢
      omega
    have hrow := hn
    simp only [ttyRow, vgaScrSize, vgaHeight, vgaWidth] at hrow hin
    rw [ttyUpdateCursor_of_row (n := n) (by omega) (by omega) hn]
    obtain ⟨hscroll, -, -⟩ := ttyScroll_of_gap (n := n) (by simp only [vgaWidth]; omega) rfl s
    change (ttyScroll n s).ttyPtr < vgaScrSize ↔ _
    rw [hscroll]
    simp only [vgaScrSize, vgaHeight, vgaWidth]
    omega

theorem mem_ttyWriteCharCells {c : BitVec 16} {s : Screen} {i : Nat}
    (hi : i ∈ (ttyWriteCharCells c s).2) : i = s.ttyPtr := by
  unfold ttyWriteCharCells at hi
  simp only [apply_ite Prod.snd] at hi
  split at hi
  · exact absurd hi List.not_mem_nil
  split at hi
  · exact absurd hi List.not_mem_nil
  split at hi
  · exact absurd hi List.not_mem_nil
  · exact List.mem_singleton.mp hi

/-- The cursor behind a character. -/
theorem ttyWriteChar_ptr (c : BitVec 16) (s : Screen) :
    (ttyWriteChar c s).ttyPtr =
      if c = 0x0a then (s.ttyPtr + (vgaWidth - s.ttyPtr % vgaWidth)) % 2 ^ 32
      else if c = 0x0d then s.ttyPtr - s.ttyPtr % vgaWidth
      else if c = 0x08 then (s.ttyPtr + (2 ^ 32 - 1)) % 2 ^ 32
      else (s.ttyPtr + 1) % 2 ^ 32 := by
  unfold ttyWriteChar
  split
  · rfl
  split
  · rfl
  split
  · rfl
  · rfl

/-- From a cell of the screen, only a backspace in the first one moves the cursor out of
the reach of the scroll. -/
theorem ttyWriteChar_ptr_lt_iff (c : BitVec 16) {s : Screen} (hptr : s.ttyPtr < vgaScrSize) :
    (ttyWriteChar c s).ttyPtr < 2 ^ 32 ∧
      ((ttyWriteChar c s).ttyPtr < 2 * vgaScrSize ↔ (c = 0x08 → s.ttyPtr ≠ 0)) := by
  rw [ttyWriteChar_ptr]
  simp only [vgaScrSize, vgaHeight, vgaWidth] at hptr ⊢
  split
  · next hnl =>
      have hnext : s.ttyPtr + (80 - s.ttyPtr % 80) < 4000 := by omega
      rw [Nat.mod_eq_of_lt (Nat.lt_trans hnext (by decide))]
      refine ⟨Nat.lt_trans hnext (by decide), iff_of_true hnext fun h => ?_⟩
      rw [hnl] at h
      exact absurd h (by decide)
  split
  · next hcr =>
      refine ⟨by omega, iff_of_true (by omega) fun h => ?_⟩
      rw [hcr] at h
      exact absurd h (by decide)
  split
  · next hbs =>
      refine ⟨Nat.mod_lt _ (by decide), ?_⟩
      rw [imp_iff_right hbs]
      omega
  · next hbs =>
      exact ⟨Nat.mod_lt _ (by decide), iff_of_true (by omega) fun h => absurd h hbs⟩

/-- `tty_putc`. -/
theorem putc_inside_iff (c : BitVec 16) {s : Screen} (hptr : s.ttyPtr < vgaScrSize) :
    OutputInside s (.putc c) (ttyPutc c s) ↔ (c = 0x08 → s.ttyPtr ≠ 0) := by
  obtain ⟨hfits, hiff⟩ := ttyWriteChar_ptr_lt_iff c hptr
  rw [← hiff, ← ttyUpdateCursor_ptr_lt_iff hfits]
  refine ⟨fun h => h.ptr, fun h => ⟨fun i hi => ?_, h⟩⟩
  rcases List.mem_append.mp hi with hi | hi
  · rw [mem_ttyWriteCharCells hi]
    exact hptr
  · exact ttyUpdateCursorCells_lt _ i hi

/-! ## A string -/

theorem ttyWriteCharCells_spec {c : Byte} (hne : c ≠ 0) (hesc : c ≠ 0x1b) (s : Screen) :
    (ttyWriteCharCells (c.signExtend 16) s).1.ttyPtr = (Token.char c hne hesc).moved s.ttyPtr ∧
      (ttyWriteCharCells (c.signExtend 16) s).2 =
        if (Token.char c hne hesc).shows then [s.ttyPtr] else [] := by
  have hnl : c.signExtend 16 = 0x0a ↔ c = 0x0a := signExtend_eq_iff (d := 0x0a)
  have hcr : c.signExtend 16 = 0x0d ↔ c = 0x0d := signExtend_eq_iff (d := 0x0d)
  have hbs : c.signExtend 16 = 0x08 ↔ c = 0x08 := signExtend_eq_iff (d := 0x08)
  constructor
  · rw [ttyWriteCharCells_fst, ttyWriteChar_ptr, Token.moved]
    simp only [hnl, hcr, hbs]
  · unfold ttyWriteCharCells
    rw [Token.shows]
    simp only [hnl, hcr, hbs, apply_ite Prod.snd]
    by_cases h1 : c = 0x0a
    · rw [if_pos h1, h1]
      rfl
    by_cases h2 : c = 0x0d
    · rw [if_neg h1, if_pos h2, h2]
      rfl
    by_cases h3 : c = 0x08
    · rw [if_neg h1, if_neg h2, if_pos h3, h3]
      rfl
    · rw [if_neg h1, if_neg h2, if_neg h3, bne_iff_ne.mpr h1, bne_iff_ne.mpr h2,
        bne_iff_ne.mpr h3]
      rfl

theorem isDigit_code (letter : CursorLetter) : isDigit letter.code = false := by
  cases letter <;> decide

theorem ttyEscape_ptr (letter : CursorLetter) (x : Int) (s : Screen) :
    (ttyEscape letter.code x s).ttyPtr = letter.moved x s.ttyPtr := by
  cases letter <;> rfl

/-- The number of an escape, which `tty_puts` leaves at zero without digits. -/
theorem number_eq {tmp : Memory} {digits : List (Fin 10)}
    (htmp : StrAt tmp 0 (digits.map digitByte)) (hshort : digits.length ≤ 9) :
    (if tmp 0 ≠ 0 then atoi tmp 0 else 0) = (numeral digits : Int) := by
  cases digits with
  | nil =>
      have hnul : tmp 0 = 0 := htmp
      rw [hnul, if_neg (not_not.mpr rfl)]
      rfl
  | cons d digits => rw [if_pos (htmp.head_ne (List.cons_ne_nil _ _)), atoi_eq htmp hshort]

/-- `tmp` holds the digits that are in front of `str`. -/
theorem strAt_tmp {m : Memory} {str : Nat} {digits : List (Fin 10)} {rest : List Byte}
    (hstr : StrAt m str (digits.map digitByte ++ rest)) :
    StrAt (fun j => if j < digits.length then m (str + j) else 0) 0 (digits.map digitByte) := by
  refine strAt_of_get (fun c hc => ?_) (fun i hi => ?_) ?_
  · obtain ⟨d, -, rfl⟩ := List.mem_map.mp hc
    exact digitByte_ne_zero d
  · have hi' : i < (digits.map digitByte ++ rest).length :=
      Nat.lt_of_lt_of_le hi (List.prefix_append _ _).length_le
    have hin : i < digits.length := by rwa [List.length_map] at hi
    rw [Nat.zero_add, if_pos hin, hstr.get hi', List.getElem_append_left hi]
  · rw [Nat.zero_add, List.length_map]
    exact if_neg (Nat.lt_irrefl _)

/-- The loop of `tty_puts` over an escape, which shows nothing. -/
theorem ttyPutsLoopLog_escape {m : Memory} (fuel : Nat) {str : Nat} {digits : List (Fin 10)}
    (hshort : digits.length ≤ 9) {letter : CursorLetter} {rest : List Byte} (s : Screen)
    (hstr : StrAt m str (0x1b :: 0x5b :: (digits.map digitByte ++ letter.code :: rest)))
    (hlen : (digits.map digitByte ++ letter.code :: rest).length < stringFuel) :
    StrAt m (str + 1 + 1 + digits.length + 1) rest ∧
      ∃ reads written, ttyPutsLoopLog m (fuel + 1) str s =
        ((ttyPutsLoopLog m fuel (str + 1 + 1 + digits.length + 1)
            (ttyEscape letter.code (numeral digits) s)).1,
          (ttyPutsLoopLog m fuel (str + 1 + 1 + digits.length + 1)
            (ttyEscape letter.code (numeral digits) s)).2.after reads written []) := by
  obtain ⟨hesc, hne, hbracket, -, hrest⟩ := hstr
  have htake : ((digits.map digitByte ++ letter.code :: rest).takeWhile isDigit) =
      digits.map digitByte := by
    rw [List.takeWhile_append_of_pos, List.takeWhile_cons_of_neg, List.append_nil]
    · rw [isDigit_code]
      exact Bool.false_ne_true
    · intro c hc
      obtain ⟨d, -, rfl⟩ := List.mem_map.mp hc
      exact isDigit_digitByte d
  have hspan : span m isDigit (str + 1 + 1) = digits.length := by
    rw [span_eq isDigit_nul hrest hlen, htake, List.length_map]
  have hbehind : StrAt m (str + 1 + 1 + digits.length) (letter.code :: rest) := by
    have hcode := hrest.behind
    rwa [List.length_map] at hcode
  refine ⟨hbehind.2.2, ?_⟩
  rw [ttyPutsLoopLog, hesc, if_neg hne, if_neg (not_not.mpr rfl)]
  simp only [hbracket, if_true, hspan, hbehind.1, number_eq (strAt_tmp hrest) hshort]
  exact ⟨_, _, rfl⟩

theorem tokenBytes_escape {digits : List (Fin 10)} (hshort : digits.length ≤ 9)
    (letter : CursorLetter) (ts : List Token) :
    tokenBytes (.escape digits hshort letter :: ts) =
      0x1b :: 0x5b :: (digits.map digitByte ++ letter.code :: tokenBytes ts) := by
  change 0x1b :: 0x5b :: (digits.map digitByte ++ [letter.code] ++ tokenBytes ts) = _
  rw [List.append_assoc]
  rfl

/-- The loop of `tty_puts` over tokens. -/
theorem ttyPutsLoopLog_tokens {m : Memory} {ts : List Token} :
    ∀ {fuel str : Nat} {s : Screen}, StrAt m str (tokenBytes ts) →
      (tokenBytes ts).length < fuel → fuel ≤ stringFuel →
      (ttyPutsLoopLog m fuel str s).1.1.ttyPtr = cursorBehind ts s.ttyPtr ∧
        (ttyPutsLoopLog m fuel str s).2.cells = shownCells ts s.ttyPtr := by
  induction ts with
  | nil =>
      intro fuel str s hstr hlen _
      obtain ⟨fuel, rfl⟩ : ∃ k, fuel = k + 1 := ⟨fuel - 1, by omega⟩
      have hnul : m str = 0 := hstr
      rw [ttyPutsLoopLog, if_pos hnul]
      exact ⟨rfl, rfl⟩
  | cons t ts ih =>
      intro fuel str s hstr hlen hfuel
      obtain ⟨fuel, rfl⟩ : ∃ k, fuel = k + 1 := ⟨fuel - 1, by omega⟩
      have hfuel' : fuel ≤ stringFuel := Nat.le_of_succ_le hfuel
      cases t with
      | char c hne hesc =>
          obtain ⟨hc, -, hcs⟩ := hstr
          obtain ⟨hptr, hcells⟩ := ttyWriteCharCells_spec hne hesc s
          have hlen' : (tokenBytes ts).length < fuel := Nat.lt_of_succ_lt_succ hlen
          obtain ⟨hptr', hcells'⟩ :=
            ih (s := (ttyWriteCharCells (c.signExtend 16) s).1) hcs hlen' hfuel'
          rw [hptr] at hptr' hcells'
          rw [ttyPutsLoopLog, hc, if_neg hne, if_pos hesc]
          refine ⟨hptr', ?_⟩
          rw [shownCells, ← hcells, ← hcells']
          rfl
      | escape digits hshort letter =>
          rw [tokenBytes_escape] at hstr hlen
          rw [List.length_cons, List.length_cons] at hlen
          have hbehind : (digits.map digitByte ++ letter.code :: tokenBytes ts).length <
              stringFuel := by omega
          rw [List.length_append, List.length_cons] at hlen
          obtain ⟨hrest, reads, written, hround⟩ :=
            ttyPutsLoopLog_escape fuel hshort s hstr hbehind
          obtain ⟨hptr', hcells'⟩ :=
            ih (s := ttyEscape letter.code (numeral digits) s) hrest (by omega) hfuel'
          rw [ttyEscape_ptr] at hptr' hcells'
          rw [hround]
          exact ⟨hptr', hcells'⟩

/-- `tty_puts`. -/
theorem puts_inside_iff {m : Memory} {str : Nat} {ts : List Token}
    (hstr : StrAt m str (tokenBytes ts)) (hlen : (tokenBytes ts).length < stringFuel)
    {s : Screen} (hptr : s.ttyPtr < vgaScrSize) :
    OutputInside s (.puts m str ts) (ttyPuts m str s).1 ↔ textStays ts s.ttyPtr = true := by
  obtain ⟨hcursor, hcells⟩ := ttyPutsLoopLog_tokens (s := s) hstr hlen (Nat.le_refl _)
  have hfits : (ttyPutsLoopLog m stringFuel str s).1.1.ttyPtr < 2 ^ 32 := by
    rw [hcursor]
    exact cursorBehind_lt ts (Nat.lt_trans hptr (by decide))
  have hend : (ttyPuts m str s).1 =
      ttyUpdateCursor (ttyPutsLoopLog m stringFuel str s).1.1 := by
    rw [ttyPutsLoopLog_fst]
    rfl
  rw [textStays_iff, ← hcursor, ← hcells, ← ttyUpdateCursor_ptr_lt_iff hfits, ← hend]
  constructor
  · intro h
    exact ⟨fun i hi => h.cells i (List.mem_append_left _ hi), h.ptr⟩
  · rintro ⟨hshown, hback⟩
    refine ⟨fun i hi => ?_, hback⟩
    rcases List.mem_append.mp hi with hi | hi
    · exact hshown i hi
    · exact ttyUpdateCursorCells_lt _ i hi

/-! ## Every run -/

theorem OutputStep.inside_iff {s t : Screen} {event : OutputEvent} (hs : s.ttyPtr < vgaScrSize)
    (hstep : OutputStep s event t) :
    (OutputInside s event t ↔ StaysOnScreen s event) ∧
      (StaysOnScreen s event → t.ttyPtr < vgaScrSize) := by
  cases hstep with
  | putc c =>
      have hiff := putc_inside_iff c hs
      exact ⟨hiff, fun h => (hiff.mpr h).ptr⟩
  | puts hstr hlen =>
      have hiff := puts_inside_iff hstr hlen hs
      exact ⟨hiff, fun h => (hiff.mpr h).ptr⟩

theorem ttyInit_ptr (boot : Tty) : (ttyInit boot).screen.ttyPtr = 0 := by
  have hclear : ∀ s : Screen, (ttyClearScr s).ttyPtr = 0 := by
    intro s
    have hzero : (0 : Nat) < vgaScrSize := by decide
    rw [ttyClearScr]
    generalize forLoop _ 0 vgaScrSize s = t
    exact congrArg Screen.ttyPtr (ttyUpdateCursor_of_lt (s := { t with ttyPtr := 0 }) hzero)
  exact hclear _

/-- In a run from `tty_init` every call writes cells of the screen only and leaves the
cursor on it exactly when no call takes the cursor off the screen. -/
theorem outputRuns_inside_iff (boot : Tty) {path : List (OutputEvent × Screen)}
    (hrun : IsPath OutputStep (ttyInit boot).screen path) :
    IsPath OutputInside (ttyInit boot).screen path ↔
      StepsMeet StaysOnScreen (ttyInit boot).screen path := by
  have hstart : (ttyInit boot).screen.ttyPtr < vgaScrSize := by
    rw [ttyInit_ptr]
    decide
  exact hrun.steps_iff_of_ok (fun _ _ _ hs hstep => hstep.inside_iff hs) hstart

/-- `ESC [ 2 B` as a token. -/
def twoDown : Token := .escape [2] (by decide) .down

/-- From the first cell two rows down, and an `a`. -/
theorem outputRuns_inside_iff_down :
    IsPath OutputInside (ttyInit bootTty).screen
      [(.puts stringDown 0 [twoDown], (ttyPuts stringDown 0 (ttyInit bootTty).screen).1),
        (.putc 0x61, ttyPutc 0x61 (ttyPuts stringDown 0 (ttyInit bootTty).screen).1)] := by
  have hrun : IsPath OutputStep (ttyInit bootTty).screen
      [(.puts stringDown 0 [twoDown], (ttyPuts stringDown 0 (ttyInit bootTty).screen).1),
        (.putc 0x61, ttyPutc 0x61 (ttyPuts stringDown 0 (ttyInit bootTty).screen).1)] :=
    ⟨.puts strAt_stringDown (by decide), .putc _, trivial⟩
  have hstays : textStays [twoDown] (ttyInit bootTty).screen.ttyPtr = true := by
    rw [ttyInit_ptr]
    decide
  have hletter : ∀ s, StaysOnScreen s (.putc 0x61) := fun _ h => absurd h (by decide)
  exact (outputRuns_inside_iff bootTty hrun).mpr ⟨hstays, hletter _, trivial⟩

/-- A backspace in the first cell leaves the cursor 2001 places before it. -/
theorem outputRuns_backspace_leaves :
    ∃ path, IsPath OutputStep (ttyInit bootTty).screen path ∧
      ¬ IsPath OutputInside (ttyInit bootTty).screen path := by
  have hstart : (ttyInit bootTty).screen.ttyPtr < vgaScrSize := by
    rw [ttyInit_ptr]
    decide
  refine ⟨[(.putc 0x08, ttyPutc 0x08 (ttyInit bootTty).screen)], ⟨.putc _, trivial⟩, ?_⟩
  rintro ⟨hinside, -⟩
  exact (putc_inside_iff 0x08 hstart).mp hinside rfl (ttyInit_ptr bootTty)

end DonutOS.Kernel
