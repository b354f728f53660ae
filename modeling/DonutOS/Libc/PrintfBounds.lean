import Mathlib.Data.List.GetD
import DonutOS.Libc.PrintfExpansion

set_option autoImplicit false

/-!
# Libc: where `printf` writes (`libc/src/printf.c`)

Nothing bounds the text: what does not fit `str` goes on behind it.  Only the NUL of a
width is kept inside `helper_str`, its digits are not.
-/

namespace DonutOS.Libc

open DonutOS.Foundation DonutOS.Kernel

/-! ## What every round does

These hold of every state, also when the buffers were overrun before. -/

theorem strcpyLoop_grows (fuel d s : Nat) (st : Store) : st.Grows (strcpyLoop fuel d s st) := by
  induction fuel generalizing d s st with
  | zero => exact .refl _ st
  | succ fuel ih =>
      rw [strcpyLoop]
      split
      · exact .trans (.put _ _ trivial) (ih _ _ _)
      · exact .put _ _ trivial

theorem strcpy_grows (dest src : Nat) (st : Store) : st.Grows (strcpy dest src st) :=
  strcpyLoop_grows _ _ _ _

/-- The first byte of the destination is always written. -/
theorem strcpy_touches_dest (dest src : Nat) (st : Store) :
    st.Touches dest (strcpy dest src st) := by
  have hfirst := Store.Touches.put dest (st.bytes src) st
  obtain ⟨fuel, hfuel⟩ : ∃ k, stringFuel = k + 1 := ⟨stringFuel - 1, rfl⟩
  unfold strcpy
  rw [hfuel, strcpyLoop]
  split
  · exact hfirst.before (strcpyLoop_grows _ _ _ _)
  · exact hfirst

section Rounds

variable (fpu : Doubles) (frame : PrintfFrame) (text : Memory) (args : Nat → Nat)

theorem putHelper_grows (fill : Byte) (n : Nat) (p : PrintfState) :
    p.st.Grows (putHelper frame fill n p).st := by
  unfold putHelper
  dsimp only
  split
  · exact (memset_spec _ _ _ _).writes.grows.trans (strcpy_grows _ _ _)
  · exact strcpy_grows _ _ _

theorem putHelper_touches (fill : Byte) (n : Nat) (p : PrintfState) :
    p.st.Touches p.s (putHelper frame fill n p).st := by
  unfold putHelper
  dsimp only
  split
  · next hpad =>
    exact ((memset_spec _ _ _ _).touches 0 (by omega)).before (strcpy_grows _ _ _)
  · exact strcpy_touches_dest _ _ _

theorem itoaHelper_grows {base : Word} (hbase : 2 ≤ base.toInt ∧ base.toInt ≤ 36) (value : Word)
    (p : PrintfState) : p.st.Grows (itoaHelper frame base value p).st :=
  (itoaHelper_spec frame rfl hbase value p).2.2.grows

/-- `str_to_upper` on what `itoa` left. -/
theorem upperHelper_grows (value : Word) (p : PrintfState) :
    p.st.Grows (strToUpper frame.helperStr (itoaHelper frame 16 value p).st) := by
  have hbase : (16 : Word).toNat = 16 := rfl
  obtain ⟨hstr, hlen, hwrites⟩ := itoaHelper_spec frame hbase (by decide) value p
  exact hwrites.grows.trans (strToUpper_spec hstr (Nat.lt_trans hlen (by decide))).2.grows

/-- A round writes the byte at the cursor, whatever it prints. -/
structure Puts (p q : PrintfState) : Prop where
  grows : p.st.Grows q.st
  touches : p.st.Touches p.s q.st

variable {frame} in
theorem Puts.behind {p q r : PrintfState} (hgrows : p.st.Grows q.st) (hs : q.s = p.s)
    (h : Puts q r) : Puts p r :=
  ⟨hgrows.trans h.grows, hs ▸ .behind hgrows h.touches⟩

variable {frame} in
theorem Puts.before {p q r : PrintfState} (h : Puts p q) (hgrows : q.st.Grows r.st) : Puts p r :=
  ⟨h.grows.trans hgrows, h.touches.before hgrows⟩

theorem puts_putChar (c : Byte) (p : PrintfState) : Puts p (putChar c p) :=
  ⟨.put _ _ trivial, .put _ _ _⟩

theorem puts_putHelper (fill : Byte) (n : Nat) (p : PrintfState) :
    Puts p (putHelper frame fill n p) :=
  ⟨putHelper_grows frame fill n p, putHelper_touches frame fill n p⟩

theorem puts_putInt {base : Word} (hbase : 2 ≤ base.toInt ∧ base.toInt ≤ 36) (fill : Byte)
    (n : Nat) (p : PrintfState) : Puts p (putInt frame args base fill n p) :=
  .behind (itoaHelper_grows frame hbase _ (p.take 1)) rfl (puts_putHelper frame fill n _)

theorem puts_putUpper (fill : Byte) (n : Nat) (p : PrintfState) :
    Puts p (putUpper frame args fill n p) :=
  .behind (q := { itoaHelper frame 16 (argInt args p) (p.take 1) with
      st := strToUpper frame.helperStr (itoaHelper frame 16 (argInt args p) (p.take 1)).st })
    (upperHelper_grows frame _ (p.take 1)) rfl (puts_putHelper frame fill n _)

theorem puts_putString (p : PrintfState) : Puts p (putString args p) :=
  ⟨strcpy_grows _ _ _, strcpy_touches_dest _ _ _⟩

/-- The digits of the fraction, behind the point. -/
theorem puts_fraction (x : fpu.Double) (p : PrintfState) (s : Nat) :
    Puts p { p with
      st := strcpy p.s frame.helperStr
        ((forLoop (fractionRound fpu frame.helperStr) 0 6 (x, p.st)).2.put (frame.helperStr + 6) 0)
      s := s } :=
  .behind (q := { p with
      st := (forLoop (fractionRound fpu frame.helperStr) 0 6 (x, p.st)).2.put
        (frame.helperStr + 6) 0 })
    (fraction_spec fpu frame.helperStr x p.st).2.grows rfl
    ⟨strcpy_grows _ _ _, strcpy_touches_dest _ _ _⟩

theorem puts_putDouble (fill : Byte) (n : Nat) (p : PrintfState) :
    Puts p (putDouble fpu frame args fill n p) := by
  have hwhole : Puts p (putHelper frame fill n (itoaHelper frame 10 (fpu.toInt
      (fpu.ofWords (args p.ap) (args (p.ap + 1)))) (p.take 2))) :=
    .behind (itoaHelper_grows frame (by decide) _ (p.take 2)) rfl (puts_putHelper frame fill n _)
  exact (hwhole.before (puts_putChar 0x2e _).grows).before (puts_fraction fpu frame _ _ _).grows

theorem puts_putDirective (c fill : Byte) (n : Nat) (p : PrintfState) :
    Puts p (putDirective fpu frame args c fill n p) := by
  unfold putDirective
  split_ifs
  · exact puts_putChar _ p
  · exact puts_putInt frame args (by decide) fill n p
  · exact puts_putInt frame args (by decide) fill n p
  · exact puts_putUpper frame args fill n p
  · exact puts_putInt frame args (by decide) fill n p
  · exact puts_putDouble fpu frame args fill n p
  · exact .behind (q := p.take 1) (.refl _ _) rfl (puts_putChar _ _)
  · exact puts_putString args p
  · exact puts_putChar _ p

theorem readDigits_grows (p : PrintfState) :
    p.st.Grows (readDigits frame text p).st ∧ (readDigits frame text p).s = p.s := by
  have hloop := forLoop_invariant (fun _ (q : PrintfState) => p.st.Grows q.st ∧ q.s = p.s)
    (f := widthRound frame text) (span text isDigit p.fmt) 0 p ⟨.refl _ p.st, rfl⟩
    fun i q _ _ hq => ⟨hq.1.trans (.put _ _ trivial), hq.2⟩
  unfold readDigits
  dsimp only
  split
  · exact ⟨hloop.1.trans (.put _ _ trivial), hloop.2⟩
  · exact hloop

theorem puts_printfRound (p : PrintfState) : Puts p (printfRound fpu frame text args p) := by
  unfold printfRound
  dsimp only
  split
  · exact (puts_putChar (text p.fmt) p).before (.refl _ _)
  · obtain ⟨hgrows, hs⟩ := readDigits_grows frame text
      ((p.readAt (p.fmt + 1)).readAt (if text (p.fmt + 1) = 0x30 then p.fmt + 1 + 1 else p.fmt + 1))
    have hdirective : Puts p (printfDirective fpu frame text args p) :=
      .behind hgrows hs (puts_putDirective fpu frame args _ _ _ _)
    exact hdirective.before (.refl _ _)

/-- Outside the buffers something was written, or the cursor stands behind `str`, where
the next thing is written. -/
structure Lost (frame : PrintfFrame) (st₀ : Store) (p : PrintfState) : Prop where
  grows : st₀.Grows p.st
  outside : (∃ a, ¬ frame.Inside a ∧ st₀.Touches a p.st) ∨ p.s = frame.str + vgaScrSize

/-- The byte behind each buffer is in neither. -/
structure PrintfFrame.Open (frame : PrintfFrame) : Prop where
  apart : frame.Apart
  behindStr : ¬ frame.Inside (frame.str + vgaScrSize)
  behindHelper : ¬ frame.Inside (frame.helperStr + helperLen)

variable {frame} in
theorem Lost.of_puts {st₀ : Store} {p q : PrintfState} (h : Lost frame st₀ p)
    (hopen : frame.Open) (hputs : Puts p q) : ∃ a, ¬ frame.Inside a ∧ st₀.Touches a q.st := by
  rcases h.outside with ⟨a, ha, htouched⟩ | hs
  · exact ⟨a, ha, htouched.before hputs.grows⟩
  · exact ⟨_, hopen.behindStr, hs ▸ .behind h.grows hputs.touches⟩

variable {frame} in
theorem Lost.puts {st₀ : Store} {p q : PrintfState} (h : Lost frame st₀ p) (hopen : frame.Open)
    (hputs : Puts p q) : Lost frame st₀ q :=
  ⟨h.grows.trans hputs.grows, Or.inl (h.of_puts hopen hputs)⟩

variable {frame} in
theorem Lost.loop {st₀ : Store} (hopen : frame.Open) :
    ∀ {fuel : Nat} {p q : PrintfState}, Lost frame st₀ p →
      printfLoop fpu frame text args fuel p = some q → Lost frame st₀ q := by
  intro fuel
  induction fuel with
  | zero => exact fun _ hq => absurd hq nofun
  | succ fuel ih =>
      intro p q h hq
      have hread : Lost frame st₀ (p.readAt p.fmt) := ⟨h.grows, h.outside⟩
      by_cases hnul : text p.fmt = 0
      · rw [printfLoop_of_nul fpu frame args hnul] at hq
        exact Option.some.inj hq ▸ hread
      · rw [printfLoop_of_ne fpu frame args hnul] at hq
        exact ih (hread.puts hopen (puts_printfRound fpu frame text args _)) hq

end Rounds

/-! ## The round that leaves `str` -/

section Overrun

variable {frame : PrintfFrame} {st₀ : Store} {out cs : List Byte} {p q : PrintfState}

theorem Lost.of_touches (hopen : frame.Open) (hgrows : st₀.Grows p.st)
    (h : p.st.Touches (frame.str + vgaScrSize) q.st) (hq : p.st.Grows q.st) : Lost frame st₀ q :=
  ⟨hgrows.trans hq, Or.inl ⟨_, hopen.behindStr, .behind hgrows h⟩⟩

/-- The text is in place, and what is put next reaches the byte behind `str`. -/
theorem Built.copy_lost (h : Built frame st₀ out p) {src : Nat} (hsrc : StrAt p.st.bytes src cs)
    (hlen : cs.length < stringFuel) (happart : p.s ≤ src ∨ src + cs.length < p.s)
    (hroom : vgaScrSize ≤ out.length + cs.length) :
    p.st.Touches (frame.str + vgaScrSize) (strcpy p.s src p.st) := by
  have hcursor := h.cursor
  have hbefore := h.room
  have haddr : frame.str + vgaScrSize = p.s + (vgaScrSize - out.length) := by omega
  rw [haddr]
  exact strcpy_touches hsrc happart hlen _ (by omega)

theorem Built.char_lost (h : Built frame st₀ out p) (c : Byte)
    (hroom : vgaScrSize ≤ out.length + 1) : Lost frame st₀ (putChar c p) := by
  have hcursor := h.cursor
  have hbefore := h.room
  refine ⟨h.writes.grows.trans (.put _ _ trivial), Or.inr ?_⟩
  change p.s + 1 = _
  omega

theorem Built.helper_lost (h : Built frame st₀ out p) (happart : frame.Apart)
    (hcs : StrAt p.st.bytes frame.helperStr cs) (hlen : cs.length < helperLen) (fill : Byte)
    {n : Nat} (hroom : vgaScrSize ≤ out.length + (padLeft n fill cs).length) :
    p.st.Touches (frame.str + vgaScrSize) (putHelper frame fill n p).st := by
  have hcursor := h.cursor
  have hbefore := h.room
  have hfuel : cs.length < stringFuel := Nat.lt_trans hlen (by decide)
  unfold padLeft at hroom
  rw [List.length_append, List.length_replicate] at hroom
  unfold PrintfFrame.Apart at happart
  unfold putHelper
  rw [strlen_eq hcs hfuel]
  by_cases hpad : cs.length < n
  · simp only [if_pos hpad]
    have hfilled := memset_spec p.s fill (n - cs.length) p.st
    by_cases hfill : vgaScrSize < out.length + (n - cs.length)
    · -- the fill characters reach it
      have haddr : frame.str + vgaScrSize = p.s + (vgaScrSize - out.length) := by omega
      rw [haddr]
      exact (hfilled.touches _ (by omega)).before (strcpy_grows _ _ _)
    · have hkept : StrAt (memset p.s fill (n - cs.length) p.st).bytes frame.helperStr cs :=
        hcs.congr fun b hlo hhi => hfilled.writes.frame b (by omega)
      have haddr : frame.str + vgaScrSize =
          p.s + (n - cs.length) + (vgaScrSize - (out.length + (n - cs.length))) := by omega
      rw [haddr]
      exact .behind hfilled.writes (strcpy_touches hkept (by omega) hfuel _ (by omega))
  · simp only [if_neg hpad]
    exact h.copy_lost hcs hfuel (by omega) (by omega)

theorem Built.int_lost (h : Built frame st₀ out p) (hopen : frame.Open) (fpu : Doubles)
    {args : Nat → Nat} (conv : IntConv) {value : Word}
    (harg : BitVec.ofNat 32 (args p.ap) = value) (fill : Byte) {n : Nat}
    (hroom : vgaScrSize ≤
      out.length + (padLeft n fill (conv.text unsignedRendering value)).length) :
    Lost frame st₀ (putDirective fpu frame args conv.byte fill n p) := by
  obtain ⟨q, hq, hready, hwrites, hstr, hlen⟩ := h.int_ready hopen.apart fpu conv harg fill n
  rw [hq]
  exact .of_touches hopen hready.writes.grows
    (hready.helper_lost hopen.apart hstr hlen fill hroom) (putHelper_grows _ _ _ _)

theorem Built.string_lost (h : Built frame st₀ out p) (hopen : frame.Open) {args : Nat → Nat}
    (hstr : StrAt p.st.bytes (args p.ap) cs) (hclear : frame.Clear (args p.ap) cs.length)
    (hlen : cs.length < stringFuel) (hroom : vgaScrSize ≤ out.length + cs.length) :
    Lost frame st₀ (putString args p) :=
  .of_touches hopen h.writes.grows (h.copy_lost hstr hlen (h.apart_of_clear hclear) hroom)
    (strcpy_grows _ _ _)

theorem Built.double_lost (h : Built frame st₀ out p) (hopen : frame.Open) (fpu : Doubles)
    {args : Nat → Nat} {value : fpu.Double}
    (harg : fpu.ofWords (args p.ap) (args (p.ap + 1)) = value) (fill : Byte) {n : Nat}
    (hroom : vgaScrSize ≤ out.length + (padLeft n fill (numberText 10 (fpu.toInt value).toNat) ++
      0x2e :: fractionDigits fpu value).length) :
    Lost frame st₀ (putDouble fpu frame args fill n p) := by
  have hbase : (10 : Word).toNat = 10 := rfl
  rw [List.length_append, List.length_cons] at hroom
  obtain ⟨hstr, hlen, hwrites⟩ := itoaHelper_spec frame hbase (by decide) (fpu.toInt value)
    (p.take 2)
  have hscratch : Built frame st₀ out (itoaHelper frame 10 (fpu.toInt value) (p.take 2)) :=
    h.scratch hopen.apart rfl hwrites
  unfold putDouble
  rw [harg]
  dsimp only
  by_cases hnumber : vgaScrSize ≤
      out.length + (padLeft n fill (numberText 10 (fpu.toInt value).toNat)).length
  · -- the number leaves `str`; the point and the fraction come behind it
    have hlost : Lost frame st₀ (putHelper frame fill n
        (itoaHelper frame 10 (fpu.toInt value) (p.take 2))) :=
      .of_touches hopen hscratch.writes.grows
        (hscratch.helper_lost hopen.apart hstr hlen fill hnumber) (putHelper_grows _ _ _ _)
    exact (hlost.puts hopen (puts_putChar 0x2e _)).puts hopen (puts_fraction fpu frame _ _ _)
  · have hwhole := hscratch.helper hopen.apart hstr hlen fill (n := n) (by omega)
    by_cases hpoint : vgaScrSize ≤ out.length +
        (padLeft n fill (numberText 10 (fpu.toInt value).toNat)).length + 1
    · have hlost := hwhole.char_lost 0x2e (by rwa [List.length_append])
      exact hlost.puts hopen (puts_fraction fpu frame _ _ _)
    · have hready := hwhole.char 0x2e (by rw [List.length_append]; omega)
      generalize putChar 0x2e _ = q at hready ⊢
      generalize hst : (forLoop (fractionRound fpu frame.helperStr) 0 6 _).2.put
        (frame.helperStr + 6) 0 = st
      obtain ⟨hdigits, hfraction, hshort⟩ := hready.fraction hopen.apart fpu value hst.symm
      refine .of_touches hopen hdigits.writes.grows ?_ (strcpy_grows _ _ _)
      refine hdigits.copy_lost hfraction (Nat.lt_trans hshort (by decide))
        (hdigits.apart_of_helper hopen.apart hshort) ?_
      rw [List.length_append, List.length_append, List.length_singleton]
      omega

/-- Every width is read as `n`. -/
def widthRendering (n : Nat) : Rendering := ⟨unsignedRendering.decimal, fun _ => n⟩

theorem Piece.text_width (fpu : Doubles) {piece : Piece} {n : Nat}
    (hn : piece.padded → n = numeral piece.width.digits % 2 ^ 32) :
    piece.text fpu (widthRendering n) = piece.text fpu unsignedRendering := by
  cases piece with
  | int w conv value =>
      rw [hn rfl]
      cases conv <;> rfl
  | double w lo hi =>
      rw [hn rfl]
      rfl
  | _ => rfl

/-- Padded to `n`, a number takes `n` characters or more. -/
theorem Piece.le_length_text (fpu : Doubles) {piece : Piece} (h : piece.padded) (n : Nat) :
    n ≤ (piece.text fpu (widthRendering n)).length := by
  have hpad : ∀ (fill : Byte) (cs : List Byte), n ≤ (padLeft n fill cs).length := by
    intro fill cs
    unfold padLeft
    rw [List.length_append, List.length_replicate]
    omega
  cases piece with
  | int w conv value => exact hpad _ _
  | double w lo hi => exact Nat.le_trans (hpad _ _) (List.length_append ▸ Nat.le_add_right _ _)
  | _ => exact absurd h nofun

theorem Built.directive_lost (h : Built frame st₀ out p) (hopen : frame.Open) (fpu : Doubles)
    {args : Nat → Nat} {piece : Piece} {w : Width} {c : Byte} {n : Nat} (hok : piece.Ok)
    (hitem : piece.item = .directive w c) (harg : piece.ArgAt frame p.st.bytes args p.ap)
    (hroom : vgaScrSize ≤ out.length + (piece.text fpu (widthRendering n)).length) :
    Lost frame st₀ (putDirective fpu frame args c w.fill n p) := by
  cases piece with
  | char c => exact absurd hitem nofun
  | plain w c =>
      obtain ⟨rfl, rfl⟩ := Item.directive.inj hitem
      rw [putDirective_plain fpu frame args hok.2.2]
      exact h.char_lost c hroom
  | int w conv value =>
      obtain ⟨rfl, rfl⟩ := Item.directive.inj hitem
      have htext : conv.text (widthRendering n) value = conv.text unsignedRendering value := by
        cases conv <;> rfl
      refine h.int_lost hopen fpu conv harg w.fill ?_
      rw [← htext]
      exact hroom
  | double w lo hi =>
      obtain ⟨rfl, rfl⟩ := Item.directive.inj hitem
      have hvalue : fpu.ofWords (args p.ap) (args (p.ap + 1)) = fpu.ofWords lo hi := by
        rw [harg.1, harg.2]
      exact h.double_lost hopen fpu hvalue w.fill hroom
  | arg w value =>
      obtain ⟨rfl, rfl⟩ := Item.directive.inj hitem
      have htaken : Built frame st₀ out (p.take 1) := h.same rfl rfl
      exact htaken.char_lost _ hroom
  | string w cs =>
      obtain ⟨rfl, rfl⟩ := Item.directive.inj hitem
      exact h.string_lost hopen harg.1 harg.2 hok.2 hroom

/-! ## Widths that are too long -/

/-- What lies behind `helper_str`: read on behind a width of 128 digits, it makes every
such width 9999. -/
def behindDigits : List (Fin 10) :=
  List.replicate 28 ⟨0, by decide⟩ ++ List.replicate 4 ⟨9, by decide⟩

structure Behind (frame : PrintfFrame) (m : Memory) : Prop where
  digits : StrAt m (frame.helperStr + helperLen) (behindDigits.map digitByte)
  clear : frame.Clear (frame.helperStr + helperLen) behindDigits.length

theorem Behind.of_writes {st st' : Store} (h : Behind frame st.bytes)
    (hwrites : st.Writes frame.Inside st') : Behind frame st'.bytes where
  digits := h.digits.congr fun b hlo hhi =>
    hwrites.frame b (h.clear b hlo (by rwa [List.length_map] at hhi))
  clear := h.clear

theorem numeral_append (ds es : List (Fin 10)) :
    numeral (ds ++ es) = 10 ^ es.length * numeral ds + numeral es := by
  unfold numeral
  rw [List.reverse_append, List.map_append, Nat.ofDigits_append, List.length_map,
    List.length_reverse, Nat.add_comm]

theorem numeral_behindDigits (ds : List (Fin 10)) :
    numeral (ds ++ behindDigits) % 2 ^ 32 = 9999 := by
  have hlen : behindDigits.length = 32 := rfl
  have hnumeral : numeral behindDigits = 9999 := by decide
  rw [numeral_append, hlen, hnumeral, show (10 : Nat) ^ 32 = 2 ^ 32 * 5 ^ 32 by decide,
    Nat.mul_assoc, Nat.mul_add_mod]
  exact Nat.mod_eq_of_lt (by decide)

/-- Where one string ends without a NUL the next one goes on. -/
theorem StrAt.prepend {m : Memory} {a : Nat} {cs ds : List Byte} (hne : ∀ c ∈ cs, c ≠ 0)
    (hcs : ∀ i (hi : i < cs.length), m (a + i) = cs[i]) (hds : StrAt m (a + cs.length) ds) :
    StrAt m a (cs ++ ds) := by
  induction cs generalizing a with
  | nil => exact hds
  | cons c cs ih =>
      refine ⟨hcs 0 (Nat.succ_pos _), hne c List.mem_cons_self,
        ih (fun x hx => hne x (List.mem_cons_of_mem _ hx)) (fun i hi => ?_) ?_⟩
      · rw [Nat.add_assoc, Nat.add_comm 1]
        exact hcs (i + 1) (Nat.succ_lt_succ hi)
      · rwa [List.length_cons, Nat.add_comm cs.length, ← Nat.add_assoc] at hds

/-- A width of 128 digits has no NUL behind it. -/
theorem leadingLen_behind {ds : List (Fin 10)} {st st' : Store}
    (h : WidthStored frame.helperStr ds st st') (hlen : ds.length = helperLen)
    (hbehind : Behind frame st'.bytes) : leadingLen frame st' = 9999 := by
  have hdigits := hbehind.digits
  rw [← numeral_behindDigits ds]
  refine leadingLen_eq ?_ ?_
  · rw [List.map_append]
    refine .prepend ?_ (fun i hi => ?_) ?_
    · intro c hc
      obtain ⟨d, -, rfl⟩ := List.mem_map.mp hc
      exact digitByte_ne_zero d
    · rw [List.getElem_map]
      exact h.digits i _
    · rwa [List.length_map, hlen]
  · rw [List.length_append, hlen]
    decide

/-- With the width that the code reads, the text does not fit either. -/
theorem WidthRead.not_room (fpu : Doubles) {piece : Piece} {n : Nat}
    (h : WidthRead frame piece.width p q) (hbehind : Behind frame q.st.bytes)
    (hlen : piece.width.digits.length ≤ helperLen)
    (hroom : piece.WidthFits → vgaScrSize ≤ n + (piece.text fpu unsignedRendering).length) :
    vgaScrSize ≤ n + (piece.text fpu (widthRendering (leadingLen frame q.st))).length := by
  by_cases hfits : piece.WidthFits
  · rw [piece.text_width fpu (h.leading hfits)]
    exact hroom hfits
  · unfold Piece.WidthFits at hfits
    split at hfits
    · next hpadded =>
      have hfull : piece.width.digits.length = helperLen := by omega
      rw [leadingLen_behind h.stored hfull hbehind]
      have htext := piece.le_length_text fpu hpadded 9999
      have hbig : vgaScrSize ≤ 9999 := by decide
      omega
    · exact absurd hfits (by omega)

/-! ## Whole formats -/

/-- A round whose width or whose text does not fit. -/
theorem Built.round_lost (h : Built frame st₀ out p) (hopen : frame.Open) (fpu : Doubles)
    {text : Memory} {args : Nat → Nat} {piece : Piece} {rest : List Byte} (hok : piece.Ok)
    (hfmt : StrAt text p.fmt (piece.item.bytes ++ rest))
    (hlen : (piece.item.bytes ++ rest).length < stringFuel)
    (harg : piece.ArgAt frame st₀.bytes args p.ap) (hbehind : Behind frame st₀.bytes)
    (hroom : piece.WidthFits →
      vgaScrSize ≤ out.length + (piece.text fpu unsignedRendering).length) :
    Lost frame st₀ (printfRound fpu frame text args p) := by
  rcases piece.item_cases with ⟨c, rfl⟩ | ⟨c, hitem⟩
  · have hc : text p.fmt = c := hfmt.1
    have hfits : (Piece.char c).WidthFits := (by decide : 0 < helperLen + 1)
    have hlost := h.char_lost c (hroom hfits)
    unfold printfRound
    rw [hc, if_pos hok.2]
    exact ⟨hlost.grows, hlost.outside⟩
  · rw [hitem] at hfmt hlen
    obtain ⟨hread, fmt, heq⟩ := printfRound_eq fpu frame args (hok.digit hitem) hfmt hlen
    have hdirective : Lost frame st₀ (putDirective fpu frame args c piece.width.fill
        (leadingLen frame (readWidth frame text p).st) (readWidth frame text p)) := by
      by_cases hlong : helperLen < piece.width.digits.length
      · -- the digits themselves leave `helper_str`
        have hlost : Lost frame st₀ (readWidth frame text p) :=
          ⟨h.writes.grows.trans hread.stored.writes.grows,
            Or.inl ⟨_, hopen.behindHelper, .behind h.writes (hread.stored.touches _ hlong)⟩⟩
        exact hlost.puts hopen (puts_putDirective fpu frame args _ _ _ _)
      · have hshort : piece.width.digits.length ≤ helperLen := Nat.le_of_not_lt hlong
        have hbuilt := h.widthRead hopen.apart hread hshort
        have hargs : piece.ArgAt frame (readWidth frame text p).st.bytes args
            (readWidth frame text p).ap := hread.ap.symm ▸ harg.of_writes hbuilt.writes
        exact hbuilt.directive_lost hopen fpu hok hitem hargs
          (hread.not_room fpu (hbehind.of_writes hbuilt.writes) hshort hroom)
    rw [heq]
    exact ⟨hdirective.grows, hdirective.outside⟩

theorem printfLoop_lost (fpu : Doubles) (hopen : frame.Open) {text : Memory} {args : Nat → Nat}
    {pieces : List Piece} (hbehind : Behind frame st₀.bytes) :
    ∀ {fuel : Nat} {p q : PrintfState} {out : List Byte}, Built frame st₀ out p →
      (∀ piece ∈ pieces, piece.Ok) → StrAt text p.fmt (formatOf pieces) →
      (formatOf pieces).length < stringFuel → ArgsAt frame st₀.bytes args p.ap pieces →
      ((∀ piece ∈ pieces, piece.WidthFits) →
        vgaScrSize ≤ out.length + (textOfPieces fpu unsignedRendering pieces).length) →
      printfLoop fpu frame text args fuel p = some q → Lost frame st₀ q := by
  induction pieces with
  | nil =>
      intro fuel p q out h _ _ _ _ hroom _
      have hfull := hroom fun _ hx => absurd hx List.not_mem_nil
      exact absurd h.room (Nat.not_lt.mpr hfull)
  | cons piece pieces ih =>
      intro fuel p q out h hpieces hfmt hlen hargs hroom hq
      have hok := hpieces piece List.mem_cons_self
      obtain ⟨harg, hargs⟩ := hargs
      rw [formatOf_cons] at hfmt hlen
      rw [textOfPieces_cons, List.length_append] at hroom
      have hread : Built frame st₀ out (p.readAt p.fmt) := h.same rfl rfl
      cases fuel with
      | zero => exact absurd hq nofun
      | succ fuel =>
          rw [printfLoop_of_ne fpu frame args (item_ne hfmt)] at hq
          by_cases hfits : piece.WidthFits ∧
              out.length + (piece.text fpu unsignedRendering).length < vgaScrSize
          · obtain ⟨hround, hap⟩ := hread.round hopen.apart fpu hok hfits.1 hfmt hlen harg hfits.2
            have hitem := (printfRound_item fpu frame args (p := p.readAt p.fmt) hok.item hfmt
              hlen).1
            rw [List.length_append] at hlen
            refine ih hround (fun x hx => hpieces x (List.mem_cons_of_mem _ hx))
              (hitem.symm ▸ hfmt.behind) (by omega) (hap.symm ▸ hargs) (fun hwidths => ?_) hq
            rw [List.length_append, Nat.add_assoc]
            exact hroom (List.forall_mem_cons.mpr ⟨hfits.1, hwidths⟩)
          · have hround := hread.round_lost hopen fpu hok hfmt hlen harg hbehind
              fun hwidth => Nat.not_lt.mp fun hshort => hfits ⟨hwidth, hshort⟩
            exact hround.loop fpu text args hopen hq

theorem not_writes_of_lost (fpu : Doubles) (hopen : frame.Open) {text : Memory} {fmt : Nat}
    {args : Nat → Nat} {pieces : List Piece} (screen : Screen) (hbehind : Behind frame st₀.bytes)
    (hok : ∀ piece ∈ pieces, piece.Ok) (hloaded : Loaded frame text fmt args st₀ pieces)
    (hroom : (∀ piece ∈ pieces, piece.WidthFits) →
      vgaScrSize ≤ (textOfPieces fpu unsignedRendering pieces).length) :
    ¬ ∃ x, printf fpu frame text fmt args st₀ screen = some x ∧
      st₀.Writes frame.Inside x.final.st := by
  rw [printf_eq _ _ _ hloaded.nonnull]
  rintro ⟨x, hx, hwrites⟩
  obtain ⟨q, hq, rfl⟩ := Option.map_eq_some_iff.mp hx
  have hlost := printfLoop_lost fpu hopen hbehind (built_start frame fmt st₀) hok hloaded.format
    hloaded.short hloaded.args
    (fun hwidths => Nat.le_trans (hroom hwidths) (Nat.le_add_left _ _)) hq
  -- the closing NUL
  obtain ⟨a, ha, htouched⟩ := hlost.of_puts hopen (puts_putChar 0 q)
  exact ha (htouched.mem hwrites)

end Overrun

/-! ## A memory for every argument list -/

/-- The strings of the arguments, one behind the NUL of the other. -/
def stringsOf : List Piece → List Byte
  | [] => []
  | .string _ cs :: pieces => cs ++ 0 :: stringsOf pieces
  | _ :: pieces => stringsOf pieces

/-- The words of the arguments, with the strings from `a` on. -/
def wordsOf : Nat → List Piece → List Nat
  | _, [] => []
  | a, .int _ _ value :: pieces => value.toNat :: wordsOf a pieces
  | a, .double _ lo hi :: pieces => lo :: hi :: wordsOf a pieces
  | a, .arg _ value :: pieces => value.toNat :: wordsOf a pieces
  | a, .string _ cs :: pieces => a :: wordsOf (a + cs.length + 1) pieces
  | a, _ :: pieces => wordsOf a pieces

theorem Width.ne_zero_of_mem {w : Width} {c : Byte} (hc : c ∈ w.bytes) : c ≠ 0 := by
  unfold Width.bytes Width.flag at hc
  rcases List.mem_append.mp hc with hc | hc
  · split at hc
    · exact List.mem_singleton.mp hc ▸ by decide
    · exact absurd hc List.not_mem_nil
  · obtain ⟨d, -, rfl⟩ := List.mem_map.mp hc
    exact digitByte_ne_zero d

/-- A format is a string. -/
theorem formatOf_ne_zero {pieces : List Piece} (hok : ∀ piece ∈ pieces, piece.Ok) :
    ∀ c ∈ formatOf pieces, c ≠ 0 := by
  intro c hc
  obtain ⟨item, hitem, hbyte⟩ := List.mem_flatMap.mp hc
  obtain ⟨piece, hpiece, rfl⟩ := List.mem_map.mp hitem
  have hok' := (hok piece hpiece).item
  generalize piece.item = item at hbyte hok'
  cases item with
  | char d => exact List.mem_singleton.mp hbyte ▸ hok'.1
  | directive w d =>
      rcases List.mem_cons.mp hbyte with rfl | hbyte
      · decide
      · rcases List.mem_append.mp hbyte with hbyte | hbyte
        · exact Width.ne_zero_of_mem hbyte
        · exact List.mem_singleton.mp hbyte ▸ hok'.1

/-- The strings behind the buffers, and digits behind `helper_str`. -/
def sampleMemory (pieces : List Piece) : Memory := fun a =>
  if a < 0x3000 then (behindDigits.map digitByte).getD (a - 0x2080) 0
  else (stringsOf pieces).getD (a - 0x3000) 0

theorem open_sampleFrame : sampleFrame.Open where
  apart := Or.inl (by decide)
  behindStr := by unfold PrintfFrame.Inside; decide
  behindHelper := by unfold PrintfFrame.Inside; decide

theorem behind_sampleMemory (pieces : List Piece) : Behind sampleFrame (sampleMemory pieces) where
  digits := by
    have hbyte : ∀ i < 33, sampleMemory pieces (0x2080 + i) =
        (behindDigits.map digitByte).getD i 0 := by
      intro i hi
      unfold sampleMemory
      rw [if_pos (by omega), Nat.add_sub_cancel_left]
    refine strAt_of_get ?_ (fun i hi => ?_) ?_
    · intro c hc
      obtain ⟨d, -, rfl⟩ := List.mem_map.mp hc
      exact digitByte_ne_zero d
    · refine (hbyte i (Nat.lt_succ_of_lt hi)).trans ?_
      rw [List.getD_eq_getElem?_getD, List.getElem?_eq_getElem hi, Option.getD_some]
    · exact (hbyte 32 (by decide)).trans rfl
  clear := by
    intro b hlo hhi hin
    change 0x2080 ≤ b at hlo
    rcases hin with ⟨-, hin⟩ | ⟨-, hin⟩
    · change b < 0x1000 + 2000 at hin
      omega
    · change b < 0x2000 + 128 at hin
      omega

theorem clear_sampleFrame {a : Nat} (ha : 0x3000 ≤ a) (n : Nat) : sampleFrame.Clear a n := by
  intro b hlo _ hin
  rcases hin with ⟨-, hin⟩ | ⟨-, hin⟩
  · change b < 0x1000 + 2000 at hin
    omega
  · change b < 0x2000 + 128 at hin
    omega

/-- A string that lies where the strings do. -/
theorem strAt_stringsOf {m : Memory} {a : Nat} {cs rest : List Byte} (hne : ∀ c ∈ cs, c ≠ 0)
    (h : ∀ i, m (a + i) = (cs ++ 0 :: rest).getD i 0) :
    StrAt m a cs ∧ ∀ i, m (a + cs.length + 1 + i) = rest.getD i 0 := by
  refine ⟨strAt_of_get hne (fun i hi => ?_) ?_, fun i => ?_⟩
  · rw [h, List.getD_append _ _ _ _ hi, List.getD_eq_getElem _ _ hi]
  · rw [h, List.getD_append_right _ _ _ _ (Nat.le_refl _), Nat.sub_self, List.getD_cons_zero]
  · have haddr : a + cs.length + 1 + i = a + (cs.length + (i + 1)) := by omega
    rw [haddr, h, List.getD_append_right _ _ _ _ (Nat.le_add_right _ _), Nat.add_sub_cancel_left,
      List.getD_cons_succ]

theorem argsAt_wordsOf {m : Memory} {args : Nat → Nat} {pieces : List Piece} :
    ∀ {ap a : Nat}, (∀ piece ∈ pieces, piece.Ok) → 0x3000 ≤ a →
      (∀ i, args (ap + i) = (wordsOf a pieces).getD i 0) →
      (∀ i, m (a + i) = (stringsOf pieces).getD i 0) → ArgsAt sampleFrame m args ap pieces := by
  induction pieces with
  | nil => exact fun _ _ _ _ => trivial
  | cons piece pieces ih =>
      intro ap a hok ha hargs hm
      have hrest := fun x hx => hok x (List.mem_cons_of_mem _ hx)
      have hvalue : ∀ (value : Word), args ap = value.toNat → BitVec.ofNat 32 (args ap) = value :=
        fun value h => by rw [h, BitVec.ofNat_toNat, BitVec.setWidth_eq]
      have hbehind : ∀ i k, args (ap + (i + k)) = args (ap + k + i) := fun i k => by
        rw [Nat.add_comm i k, Nat.add_assoc]
      cases piece with
      | char c => exact ⟨trivial, ih hrest ha hargs hm⟩
      | plain w c => exact ⟨trivial, ih hrest ha hargs hm⟩
      | int w conv value =>
          refine ⟨hvalue value (hargs 0), ih hrest ha (fun i => ?_) hm⟩
          exact (hbehind i 1).symm.trans (hargs (i + 1))
      | double w lo hi =>
          refine ⟨⟨hargs 0, hargs 1⟩, ih hrest ha (fun i => ?_) hm⟩
          exact (hbehind i 2).symm.trans (hargs (i + 2))
      | arg w value =>
          refine ⟨hvalue value (hargs 0), ih hrest ha (fun i => ?_) hm⟩
          exact (hbehind i 1).symm.trans (hargs (i + 1))
      | string w cs =>
          have hfirst : args ap = a := hargs 0
          obtain ⟨hstr, hstrings⟩ := strAt_stringsOf (hok _ List.mem_cons_self).1 hm
          refine ⟨?_, ih hrest (by omega) (fun i => ?_) hstrings⟩
          · change StrAt m (args ap) cs ∧ sampleFrame.Clear (args ap) cs.length
            rw [hfirst]
            exact ⟨hstr, clear_sampleFrame ha _⟩
          · exact (hbehind i 1).symm.trans (hargs (i + 1))

/-- Every format with its arguments is somewhere in memory. -/
theorem loaded_sample {pieces : List Piece} (hok : ∀ piece ∈ pieces, piece.Ok)
    (hlen : (formatOf pieces).length < stringFuel) :
    Loaded sampleFrame (textOf (formatOf pieces)) 1 (fun i => (wordsOf 0x3000 pieces).getD i 0)
      ⟨sampleMemory pieces, []⟩ pieces where
  apart := open_sampleFrame.apart
  nonnull := by decide
  format := strAt_textOf (formatOf_ne_zero hok)
  short := hlen
  args := by
    refine argsAt_wordsOf hok (Nat.le_refl _) (fun i => by rw [Nat.zero_add]) fun i => ?_
    change sampleMemory pieces (0x3000 + i) = _
    unfold sampleMemory
    rw [if_neg (by omega), Nat.add_sub_cancel_left]

/-- Wherever the format, its arguments and the buffers are, `printf` returns and writes
only inside its buffers. -/
def PrintsInside (fpu : Doubles) (pieces : List Piece) : Prop :=
  ∀ (frame : PrintfFrame) (text : Memory) (fmt : Nat) (args : Nat → Nat) (st : Store)
    (screen : Screen), Loaded frame text fmt args st pieces →
      ∃ x, printf fpu frame text fmt args st screen = some x ∧
        st.Writes frame.Inside x.final.st

theorem not_printsInside (fpu : Doubles) {pieces : List Piece}
    (hok : ∀ piece ∈ pieces, piece.Ok) (hlen : (formatOf pieces).length < stringFuel)
    (hroom : (∀ piece ∈ pieces, piece.WidthFits) →
      vgaScrSize ≤ (textOfPieces fpu unsignedRendering pieces).length) :
    ¬ PrintsInside fpu pieces := by
  intro h
  have hloaded := loaded_sample hok hlen
  refine not_writes_of_lost fpu open_sampleFrame ⟨fun _ => 0, 0, 0, 0, 0⟩
    (behind_sampleMemory pieces) hok hloaded hroom ?_
  exact h _ _ _ _ _ _ hloaded

/-- For every format and every argument list: `printf` stays inside its buffers exactly
when every width fits `helper_str` and the text fits `str`, each with its NUL. -/
theorem printsInside_iff (fpu : Doubles) {pieces : List Piece}
    (hok : ∀ piece ∈ pieces, piece.Ok) (hlen : (formatOf pieces).length < stringFuel) :
    PrintsInside fpu pieces ↔ (∀ piece ∈ pieces, piece.WidthFits) ∧
      (textOfPieces fpu unsignedRendering pieces).length < vgaScrSize := by
  constructor
  · intro h
    by_contra hbad
    refine not_printsInside fpu hok hlen (fun hwidths => ?_) h
    exact Nat.not_lt.mp fun hroom => hbad ⟨hwidths, hroom⟩
  · rintro ⟨hwidths, hroom⟩ frame text fmt args st screen hloaded
    obtain ⟨x, hx, -, hwrites⟩ := printf_built fpu screen
      (fun piece hp => ⟨hok piece hp, hwidths piece hp⟩) hloaded hroom
    exact ⟨x, hx, hwrites⟩

/-- `"%02x"`. -/
theorem printsInside_iff_hex : PrintsInside noDoubles (hexPieces 10) ↔
    (∀ piece ∈ hexPieces 10, piece.WidthFits) ∧
      (textOfPieces noDoubles unsignedRendering (hexPieces 10)).length < vgaScrSize :=
  printsInside_iff noDoubles (fun piece hp => by
    obtain rfl := List.mem_singleton.mp hp
    exact trivial) (by decide)

def wideDigits : List (Fin 10) := ⟨9, by decide⟩ :: List.replicate 3 ⟨0, by decide⟩

theorem plain_wideDigits : false = false → wideDigits.head? ≠ some 0 := by decide

/-- `"%9000x"`. -/
def widePiece : Piece := .int ⟨false, wideDigits, plain_wideDigits⟩ .x 1

/-- A number padded to 9000 characters: already the blanks before it do not fit `str`. -/
theorem printf_leaves_str : ¬ PrintsInside noDoubles [widePiece] := by
  refine not_printsInside noDoubles (fun piece hp => ?_) (by decide) fun _ => ?_
  · obtain rfl := List.mem_singleton.mp hp
    exact trivial
  · have hwide : (9000 : Nat) = numeral widePiece.width.digits % 2 ^ 32 := by decide
    have htext := widePiece.le_length_text noDoubles rfl 9000
    rw [widePiece.text_width noDoubles fun _ => hwide] at htext
    unfold textOfPieces
    rw [List.flatMap_singleton]
    exact Nat.le_trans (by decide) htext

end DonutOS.Libc
