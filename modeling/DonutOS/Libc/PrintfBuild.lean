import DonutOS.Libc.PrintfText

set_option autoImplicit false

/-!
# Libc: how `printf` builds its text (`libc/src/printf.c`)

One lemma for each thing that is put behind the text in `str`; a round of the loop puts
one of them.
-/

namespace DonutOS.Libc

open DonutOS.Foundation DonutOS.Kernel

/-! ## `str_to_upper` -/

theorem upper_ne_zero {c : Byte} (h : c ≠ 0) : upper c ≠ 0 := by
  revert c
  decide +kernel

theorem strToUpperLoop_spec {cs : List Byte} :
    ∀ {fuel str : Nat} {st : Store}, StrAt st.bytes str cs → cs.length < fuel →
      StrAt (strToUpperLoop fuel str st).bytes str (cs.map upper) ∧
        st.Writes (fun a => str ≤ a ∧ a < str + cs.length) (strToUpperLoop fuel str st) := by
  induction cs with
  | nil =>
      intro fuel str st h hfuel
      obtain ⟨fuel, rfl⟩ : ∃ k, fuel = k + 1 := ⟨fuel - 1, by omega⟩
      have hnul : st.bytes str = 0 := h
      rw [strToUpperLoop, hnul, if_neg (not_not.mpr rfl)]
      exact ⟨hnul, .refl _ st⟩
  | cons c cs ih =>
      intro fuel str st h hfuel
      rw [List.length_cons] at hfuel
      obtain ⟨fuel, rfl⟩ : ∃ k, fuel = k + 1 := ⟨fuel - 1, by omega⟩
      obtain ⟨hc, hne, hcs⟩ := h
      -- the byte is written when it is a small letter, else it is what it should be
      have hbyte : ∀ st', st' = (if isLower (st.bytes str) = true then
          st.put str (upper (st.bytes str)) else st) →
          st'.bytes str = upper c ∧ st.Writes (fun a => a = str) st' := by
        rintro st' rfl
        rw [hc]
        split
        · exact ⟨Store.bytes_put_same _ _ _, .put _ _ rfl⟩
        · next hno =>
          refine ⟨hc.trans ?_, .refl _ st⟩
          unfold upper
          rw [if_neg hno]
      obtain ⟨hupper, hfirst⟩ := hbyte _ rfl
      rw [strToUpperLoop, if_pos (hc ▸ hne)]
      have hrest := hcs.congr fun b hlo _ => hfirst.frame b (by omega)
      obtain ⟨htext, hwrites⟩ := ih hrest (Nat.lt_of_succ_lt_succ hfuel)
      refine ⟨⟨(hwrites.frame str (by omega)).trans hupper, upper_ne_zero hne, htext⟩, ?_⟩
      refine .trans (hfirst.mono ?_) (hwrites.mono ?_)
      · rintro a rfl
        exact ⟨Nat.le_refl _, Nat.lt_add_of_pos_right (Nat.succ_pos _)⟩
      · rintro a ⟨hlo, hhi⟩
        rw [List.length_cons]
        exact ⟨by omega, by omega⟩

theorem strToUpper_spec {str : Nat} {cs : List Byte} {st : Store} (h : StrAt st.bytes str cs)
    (hlen : cs.length < stringFuel) :
    StrAt (strToUpper str st).bytes str (cs.map upper) ∧
      st.Writes (fun a => str ≤ a ∧ a < str + cs.length) (strToUpper str st) :=
  strToUpperLoop_spec h hlen

theorem upper_digitChar {d : Nat} (hd : d < 16) : upper (digitChar d) = upperDigit d := by
  have hall : ∀ d : Fin 16, upper (digitChar d.val) = upperDigit d.val := by decide
  exact hall ⟨d, hd⟩

theorem map_upper_numberText (n : Nat) : (numberText 16 n).map upper = upperText n := by
  unfold numberText upperText
  rw [List.map_reverse, List.map_map]
  refine congrArg List.reverse (List.map_congr_left fun d hd => ?_)
  exact upper_digitChar (digitsOf_lt (by decide) hd)

/-! ## Appending to the text -/

/-- The text `out` is in `str`, with the cursor behind it and room for a NUL; nothing was
written outside the buffers. -/
structure Built (frame : PrintfFrame) (st₀ : Store) (out : List Byte) (p : PrintfState) :
    Prop where
  cursor : p.s = frame.str + out.length
  room : out.length < vgaScrSize
  bytes : ∀ i (hi : i < out.length), p.st.bytes (frame.str + i) = out[i]
  writes : st₀.Writes frame.Inside p.st

theorem built_start (frame : PrintfFrame) (fmt : Nat) (st : Store) :
    Built frame st [] (printfStart frame fmt st) :=
  ⟨rfl, by decide, fun i hi => absurd hi (Nat.not_lt_zero i), .refl _ st⟩

section Append

variable {frame : PrintfFrame} {st₀ : Store} {out cs : List Byte} {p q : PrintfState}

/-- Only the memory and the cursor count. -/
theorem Built.same (h : Built frame st₀ out p) (hst : q.st = p.st) (hs : q.s = p.s) :
    Built frame st₀ out q where
  cursor := hs.trans h.cursor
  room := h.room
  bytes := hst.symm ▸ h.bytes
  writes := hst.symm ▸ h.writes

/-- `cs` was put at the cursor. -/
theorem Built.append (h : Built frame st₀ out p) (hroom : out.length + cs.length < vgaScrSize)
    (hs : q.s = p.s + cs.length) (hcs : ∀ j (hj : j < cs.length), q.st.bytes (p.s + j) = cs[j])
    (hold : ∀ a, frame.str ≤ a → a < p.s → q.st.bytes a = p.st.bytes a)
    (hwrites : p.st.Writes frame.Inside q.st) : Built frame st₀ (out ++ cs) q where
  cursor := by rw [hs, h.cursor, List.length_append, Nat.add_assoc]
  room := by rwa [List.length_append]
  bytes := by
    have hcursor := h.cursor
    intro i hi
    by_cases hbefore : i < out.length
    · rw [List.getElem_append_left hbefore, hold _ (Nat.le_add_right _ _) (by omega)]
      exact h.bytes i hbefore
    · rw [List.length_append] at hi
      have haddr : frame.str + i = p.s + (i - out.length) := by omega
      rw [List.getElem_append_right (Nat.le_of_not_lt hbefore), haddr]
      exact hcs _ (by omega)
  writes := h.writes.trans hwrites

/-- Something that happens in `helper_str`. -/
theorem Built.scratch (h : Built frame st₀ out p) (happart : frame.Apart) (hs : q.s = p.s)
    (hwrites : p.st.Writes (fun a => frame.helperStr ≤ a ∧ a < frame.helperStr + helperLen) q.st) :
    Built frame st₀ out q where
  cursor := hs.trans h.cursor
  room := h.room
  bytes := by
    have hroom := h.room
    intro i hi
    unfold PrintfFrame.Apart at happart
    rw [hwrites.frame _ (by omega)]
    exact h.bytes i hi
  writes := h.writes.trans (hwrites.mono fun a ha => Or.inr ha)

theorem Built.char (h : Built frame st₀ out p) (c : Byte)
    (hroom : out.length + 1 < vgaScrSize) : Built frame st₀ (out ++ [c]) (putChar c p) := by
  have hcursor := h.cursor
  refine h.append ?_ rfl (fun j hj => ?_) (fun a _ ha => ?_) (.put _ _ (Or.inl ?_))
  · exact hroom
  · obtain rfl : j = 0 := Nat.lt_one_iff.mp hj
    exact Store.bytes_put_same _ _ _
  · exact Store.bytes_put_of_ne _ _ (Nat.ne_of_lt ha)
  · exact ⟨by omega, by omega⟩

theorem Built.fill (h : Built frame st₀ out p) (c : Byte) {n : Nat}
    (hroom : out.length + n < vgaScrSize) :
    Built frame st₀ (out ++ List.replicate n c)
      { p with st := memset p.s c n p.st, s := p.s + n } := by
  have hcursor := h.cursor
  have hfill := memset_spec p.s c n p.st
  refine h.append ?_ ?_ (fun j hj => ?_) (fun a _ ha => ?_)
    (hfill.writes.mono fun a ha => Or.inl ?_)
  · rwa [List.length_replicate]
  · rw [List.length_replicate]
  · rw [List.length_replicate] at hj
    rw [List.getElem_replicate]
    exact hfill.filled j hj
  · exact hfill.writes.frame a (by omega)
  · exact ⟨by omega, by omega⟩

/-- A string from somewhere else. -/
theorem Built.copy (h : Built frame st₀ out p) {src : Nat} (hsrc : StrAt p.st.bytes src cs)
    (hlen : cs.length < stringFuel) (happart : p.s ≤ src ∨ src + cs.length < p.s)
    (hroom : out.length + cs.length < vgaScrSize) (hst : q.st = strcpy p.s src p.st)
    (hs : q.s = p.s + cs.length) : Built frame st₀ (out ++ cs) q := by
  have hcursor := h.cursor
  obtain ⟨hcopy, hwrites⟩ := strcpy_spec hsrc happart hlen
  rw [← hst] at hcopy hwrites
  refine h.append hroom hs (fun j hj => hcopy.get hj) (fun a _ ha => ?_)
    (hwrites.mono fun a ha => Or.inl ?_)
  · exact hwrites.frame a (by omega)
  · exact ⟨by omega, by omega⟩

/-! ## From `helper_str` -/

/-- The string in `helper_str` behind its padding. -/
theorem Built.helper (h : Built frame st₀ out p) (happart : frame.Apart)
    (hcs : StrAt p.st.bytes frame.helperStr cs) (hlen : cs.length < helperLen) (fill : Byte)
    {n : Nat} (hroom : out.length + (padLeft n fill cs).length < vgaScrSize) :
    Built frame st₀ (out ++ padLeft n fill cs) (putHelper frame fill n p) := by
  have hcursor := h.cursor
  have hfuel : cs.length < stringFuel := Nat.lt_trans hlen (by decide)
  unfold padLeft at hroom ⊢
  rw [List.length_append, List.length_replicate] at hroom
  unfold PrintfFrame.Apart at happart
  unfold putHelper
  rw [strlen_eq hcs hfuel]
  by_cases hpad : cs.length < n
  · simp only [if_pos hpad]
    have hfilled := h.fill fill (n := n - cs.length) (by omega)
    have hkept : StrAt (memset p.s fill (n - cs.length) p.st).bytes frame.helperStr cs :=
      hcs.congr fun b hlo hhi => (memset_spec _ _ _ _).writes.frame b (by omega)
    rw [← List.append_assoc]
    exact hfilled.copy hkept hfuel (by simp only; omega)
      (by rw [List.length_append, List.length_replicate]; omega) rfl rfl
  · simp only [if_neg hpad]
    have hnone : n - cs.length = 0 := by omega
    rw [hnone, List.replicate_zero, List.nil_append]
    exact h.copy hcs hfuel (by omega) (by omega) rfl rfl

/-- `itoa` leaves the number in `helper_str`. -/
theorem itoaHelper_spec (frame : PrintfFrame) {base : Word} {b : Nat} (hb : base.toNat = b)
    (hbase : 2 ≤ base.toInt ∧ base.toInt ≤ 36) (value : Word) (p : PrintfState) :
    StrAt (itoaHelper frame base value p).st.bytes frame.helperStr (numberText b value.toNat) ∧
      (numberText b value.toNat).length < helperLen ∧
      p.st.Writes (fun a => frame.helperStr ≤ a ∧ a < frame.helperStr + helperLen)
        (itoaHelper frame base value p).st := by
  subst hb
  have hnat := toNat_of_toInt (w := base) (by omega)
  have hword : (digitsOf base.toNat value.toNat).length ≤ itoaFuel :=
    length_digitsOf_word (by omega) value
  have hfits : (numberText base.toNat value.toNat).length ≤
      (BitVec.ofNat 32 helperLen).toNat - 1 := by
    rw [length_numberText]
    exact Nat.le_trans hword (by decide)
  have hlen : 2 ≤ (BitVec.ofNat 32 helperLen).toInt := by decide
  obtain ⟨hwrites, hresult⟩ := itoa_spec hbase hlen value frame.helperStr p.st
  rw [if_pos hfits] at hresult
  exact ⟨hresult.2, Nat.lt_of_le_of_lt hfits (by decide), hwrites⟩

/-! ## Strings and fractions -/

/-- A string that is in neither buffer is not overwritten while it is copied. -/
theorem Built.apart_of_clear (h : Built frame st₀ out p) {src n : Nat}
    (hclear : frame.Clear src n) : p.s ≤ src ∨ src + n < p.s := by
  have hcursor := h.cursor
  have hroom := h.room
  by_contra hin
  exact hclear p.s (by omega) (by omega) (Or.inl ⟨by omega, by omega⟩)

theorem Built.string (h : Built frame st₀ out p) {args : Nat → Nat}
    (hstr : StrAt p.st.bytes (args p.ap) cs) (hclear : frame.Clear (args p.ap) cs.length)
    (hlen : cs.length < stringFuel) (hroom : out.length + cs.length < vgaScrSize) :
    Built frame st₀ (out ++ cs) (putString args p) := by
  have hcursor := h.cursor
  have happart := h.apart_of_clear hclear
  obtain ⟨-, hwrites⟩ := strcpy_spec hstr happart hlen
  -- the argument is still there when it is measured
  have hkept : StrAt (strcpy p.s (args p.ap) p.st).bytes (args p.ap) cs := by
    refine hstr.congr fun b hlo hhi => hwrites.frame b fun hin => ?_
    exact hclear b hlo hhi (Or.inl ⟨by omega, by omega⟩)
  unfold putString
  simp only [strlen_eq hkept hlen]
  exact h.copy hstr hlen happart hroom rfl rfl

/-- The digits of a fraction, and how they get to `helper_str`. -/
theorem fractionLoop_spec (fpu : Doubles) (helperStr : Nat) (n : Nat) :
    ∀ (i : Nat) (x : fpu.Double) (st : Store),
      (∀ j (hj : j < (fractionText fpu n x).length),
        (forLoop (fractionRound fpu helperStr) i n (x, st)).2.bytes (helperStr + (i + j)) =
          (fractionText fpu n x)[j]) ∧
      st.Writes (fun a => helperStr + i ≤ a ∧ a < helperStr + (i + n))
        (forLoop (fractionRound fpu helperStr) i n (x, st)).2 := by
  induction n with
  | zero =>
      intro i x st
      exact ⟨fun j hj => absurd hj (Nat.not_lt_zero j), .refl _ st⟩
  | succ n ih =>
      intro i x st
      rw [forLoop]
      obtain ⟨hdigits, hwrites⟩ := ih (i + 1) (fractionRound fpu helperStr i (x, st)).1
        (fractionRound fpu helperStr i (x, st)).2
      refine ⟨fun j hj => ?_, .trans (.put _ _ ⟨Nat.le_refl _, by omega⟩) (hwrites.mono ?_)⟩
      · cases j with
        | zero =>
            refine (hwrites.frame _ (by omega)).trans ?_
            exact Store.bytes_put_same _ _ _
        | succ j =>
            have haddr : i + (j + 1) = i + 1 + j := by omega
            rw [haddr]
            exact hdigits j (Nat.lt_of_succ_lt_succ hj)
      · rintro a ⟨hlo, hhi⟩
        exact ⟨by omega, by omega⟩

theorem length_fractionText (fpu : Doubles) (n : Nat) (x : fpu.Double) :
    (fractionText fpu n x).length = n := by
  induction n generalizing x with
  | zero => rfl
  | succ n ih => exact congrArg (· + 1) (ih _)

/-- Up to its first NUL, a list of bytes with a NUL behind it is a string. -/
theorem strAt_takeWhile {m : Memory} {a : Nat} (cs : List Byte)
    (h : ∀ i (hi : i < cs.length), m (a + i) = cs[i]) (hnul : m (a + cs.length) = 0) :
    StrAt m a (cs.takeWhile (· ≠ 0)) := by
  induction cs generalizing a with
  | nil => exact hnul
  | cons c cs ih =>
      rw [List.takeWhile_cons]
      split
      · next hne =>
        refine ⟨h 0 (Nat.succ_pos _), of_decide_eq_true hne, ih (fun i hi => ?_) ?_⟩
        · rw [Nat.add_assoc, Nat.add_comm 1]
          exact h (i + 1) (Nat.succ_lt_succ hi)
        · rwa [List.length_cons, Nat.add_comm cs.length, ← Nat.add_assoc] at hnul
      · next hzero =>
        have hc : c = 0 := by simpa using hzero
        exact (h 0 (Nat.succ_pos _)).trans hc

/-- The fraction is in `helper_str`, up to its first NUL. -/
theorem fraction_spec (fpu : Doubles) (helperStr : Nat) (x : fpu.Double) (st : Store) :
    StrAt (((forLoop (fractionRound fpu helperStr) 0 6 (x, st)).2.put (helperStr + 6) 0).bytes)
        helperStr ((fractionText fpu 6 x).takeWhile (· ≠ 0)) ∧
      st.Writes (fun a => helperStr ≤ a ∧ a < helperStr + helperLen)
        ((forLoop (fractionRound fpu helperStr) 0 6 (x, st)).2.put (helperStr + 6) 0) := by
  obtain ⟨hdigits, hwrites⟩ := fractionLoop_spec fpu helperStr 6 0 x st
  have hlen := length_fractionText fpu 6 x
  have hroom : 7 ≤ helperLen := by decide
  refine ⟨strAt_takeWhile _ (fun i hi => ?_) ?_, ?_⟩
  · rw [Store.bytes_put_of_ne _ _ (by omega)]
    have hdigit := hdigits i hi
    rwa [Nat.zero_add] at hdigit
  · rw [hlen]
    exact Store.bytes_put_same _ _ _
  · exact .trans (hwrites.widen (by omega) (by omega))
      (.put _ _ ⟨Nat.le_add_right _ _, by omega⟩)

/-- After the point, the fraction is in `helper_str`. -/
theorem Built.fraction (h : Built frame st₀ out p) (happart : frame.Apart) (fpu : Doubles)
    (value : fpu.Double) {st : Store}
    (hst : st = (forLoop (fractionRound fpu frame.helperStr) 0 6
      (fpu.sub value (fpu.ofInt (fpu.toInt value)), p.st)).2.put (frame.helperStr + 6) 0) :
    Built frame st₀ out { p with st := st } ∧
      StrAt st.bytes frame.helperStr (fractionDigits fpu value) ∧
      (fractionDigits fpu value).length < helperLen := by
  obtain ⟨hstr, hwrites⟩ := fraction_spec fpu frame.helperStr
    (fpu.sub value (fpu.ofInt (fpu.toInt value))) p.st
  rw [← hst] at hstr hwrites
  refine ⟨h.scratch happart rfl hwrites, hstr, ?_⟩
  refine Nat.lt_of_le_of_lt (List.takeWhile_prefix _).length_le ?_
  rw [length_fractionText]
  decide

/-- `helper_str` is not in the way of what is put at the cursor. -/
theorem Built.apart_of_helper (h : Built frame st₀ out p) (happart : frame.Apart) {n : Nat}
    (hn : n < helperLen) : p.s ≤ frame.helperStr ∨ frame.helperStr + n < p.s := by
  have hcursor := h.cursor
  have hroom := h.room
  unfold PrintfFrame.Apart at happart
  omega

theorem Built.double (h : Built frame st₀ out p) (happart : frame.Apart) (fpu : Doubles)
    {args : Nat → Nat} {value : fpu.Double}
    (harg : fpu.ofWords (args p.ap) (args (p.ap + 1)) = value) (fill : Byte) {n : Nat}
    (hroom : out.length + (padLeft n fill (numberText 10 (fpu.toInt value).toNat) ++
      0x2e :: fractionDigits fpu value).length < vgaScrSize) :
    Built frame st₀ (out ++ (padLeft n fill (numberText 10 (fpu.toInt value).toNat) ++
      0x2e :: fractionDigits fpu value)) (putDouble fpu frame args fill n p) := by
  have hbase : (10 : Word).toNat = 10 := rfl
  rw [List.length_append, List.length_cons] at hroom
  obtain ⟨hstr, hlen, hwrites⟩ := itoaHelper_spec frame hbase (by decide) (fpu.toInt value)
    (p.take 2)
  have hscratch : Built frame st₀ out (itoaHelper frame 10 (fpu.toInt value) (p.take 2)) :=
    h.scratch happart rfl hwrites
  have hwhole := hscratch.helper happart hstr hlen fill (n := n) (by omega)
  have hpoint := hwhole.char 0x2e (by rw [List.length_append]; omega)
  unfold putDouble
  rw [harg]
  dsimp only
  generalize putChar 0x2e _ = q at hpoint ⊢
  generalize hst : (forLoop (fractionRound fpu frame.helperStr) 0 6 _).2.put
    (frame.helperStr + 6) 0 = st
  obtain ⟨hready, hfraction, hshort⟩ := hpoint.fraction happart fpu value hst.symm
  have hfuel : (fractionDigits fpu value).length < stringFuel := Nat.lt_trans hshort (by decide)
  rw [strlen_eq hfraction hfuel, List.append_cons, ← List.append_assoc, ← List.append_assoc]
  refine hready.copy hfraction hfuel (hready.apart_of_helper happart hshort) ?_ rfl rfl
  rw [List.length_append, List.length_append, List.length_singleton]
  omega

end Append

/-! ## A round of the loop -/

theorem WidthStored.strAt {helperStr : Nat} {ds : List (Fin 10)} {st st' : Store}
    (h : WidthStored helperStr ds st st') (hlen : ds.length < helperLen) :
    StrAt st'.bytes helperStr (ds.map digitByte) := by
  refine strAt_of_get ?_ (fun i hi => ?_) ?_
  · intro c hc
    obtain ⟨d, -, rfl⟩ := List.mem_map.mp hc
    exact digitByte_ne_zero d
  · rw [List.getElem_map]
    exact h.digits i _
  · rw [List.length_map]
    exact h.nul hlen

/-- The width of a directive, as a `size_t`. -/
theorem leadingLen_eq {frame : PrintfFrame} {ds : List (Fin 10)} {st : Store}
    (h : StrAt st.bytes frame.helperStr (ds.map digitByte)) (hlen : ds.length < stringFuel) :
    leadingLen frame st = numeral ds % 2 ^ 32 := by
  unfold leadingLen
  cases ds with
  | nil =>
      have hnul : st.bytes frame.helperStr = 0 := h
      rw [hnul, if_neg (not_not.mpr rfl)]
      rfl
  | cons d ds =>
      have hne : st.bytes frame.helperStr ≠ 0 := h.1.symm ▸ digitByte_ne_zero d
      have hmod := atoi_emod h hlen
      rw [if_pos hne, hmod]
      omega

theorem IntConv.base_range (conv : IntConv) : 2 ≤ conv.base.toInt ∧ conv.base.toInt ≤ 36 := by
  cases conv <;> decide

theorem IntConv.text_unsigned {conv : IntConv} (h : conv ≠ .upperX) (value : Word) :
    conv.text unsignedRendering value = numberText conv.base.toNat value.toNat := by
  cases conv with
  | upperX => exact absurd rfl h
  | _ => rfl

theorem putDirective_int {conv : IntConv} (h : conv ≠ .upperX) (fpu : Doubles)
    (frame : PrintfFrame) (args : Nat → Nat) (fill : Byte) (n : Nat) (p : PrintfState) :
    putDirective fpu frame args conv.byte fill n p = putInt frame args conv.base fill n p := by
  cases conv with
  | upperX => exact absurd rfl h
  | _ => rfl

theorem putDirective_plain (fpu : Doubles) (frame : PrintfFrame) (args : Nat → Nat) {c : Byte}
    (hc : c ∉ conversions) (fill : Byte) (n : Nat) (p : PrintfState) :
    putDirective fpu frame args c fill n p = putChar c p := by
  simp only [conversions, List.mem_cons, List.not_mem_nil, or_false, not_or] at hc
  obtain ⟨hi, hd, hx, hX, hb, hf, hc, hs⟩ := hc
  unfold putDirective
  by_cases hpercent : c = 0x25
  · rw [if_pos hpercent, hpercent]
  · rw [if_neg hpercent, if_neg (by rintro (h | h); exact hi h; exact hd h), if_neg hx, if_neg hX,
      if_neg hb, if_neg hf, if_neg hc, if_neg hs]

section Round

variable {frame : PrintfFrame} {st₀ : Store} {out : List Byte} {p : PrintfState}

/-- Before it is padded, the number is in `helper_str`. -/
theorem Built.int_ready (h : Built frame st₀ out p) (happart : frame.Apart) (fpu : Doubles)
    {args : Nat → Nat} (conv : IntConv) {value : Word}
    (harg : BitVec.ofNat 32 (args p.ap) = value) (fill : Byte) (n : Nat) :
    ∃ q, putDirective fpu frame args conv.byte fill n p = putHelper frame fill n q ∧
      Built frame st₀ out q ∧ p.st.Writes frame.Inside q.st ∧
      StrAt q.st.bytes frame.helperStr (conv.text unsignedRendering value) ∧
      (conv.text unsignedRendering value).length < helperLen := by
  obtain ⟨hstr, hlen, hwrites⟩ := itoaHelper_spec frame rfl conv.base_range value (p.take 1)
  by_cases hupper : conv = .upperX
  · subst hupper
    obtain ⟨hraised, hrest⟩ := strToUpper_spec hstr (Nat.lt_trans hlen (by decide))
    have hboth := hwrites.trans (hrest.mono fun a ha => ⟨ha.1, Nat.lt_trans ha.2 (by omega)⟩)
    rw [← List.length_map upper] at hlen
    have htext : (numberText IntConv.upperX.base.toNat value.toNat).map upper =
        upperText value.toNat := map_upper_numberText _
    rw [htext] at hraised hlen
    refine ⟨{ itoaHelper frame 16 value (p.take 1) with
      st := strToUpper frame.helperStr (itoaHelper frame 16 value (p.take 1)).st }, ?_,
      h.scratch happart rfl hboth, hboth.mono fun a ha => Or.inr ha, hraised, hlen⟩
    rw [← harg]
    rfl
  · rw [IntConv.text_unsigned hupper]
    refine ⟨itoaHelper frame conv.base value (p.take 1), ?_, h.scratch happart rfl hwrites,
      hwrites.mono fun a ha => Or.inr ha, hstr, hlen⟩
    rw [putDirective_int hupper, ← harg]
    rfl

theorem Built.int_piece (h : Built frame st₀ out p) (happart : frame.Apart) (fpu : Doubles)
    {args : Nat → Nat} (conv : IntConv) {value : Word}
    (harg : BitVec.ofNat 32 (args p.ap) = value) (fill : Byte) {n : Nat}
    (hroom : out.length + (padLeft n fill (conv.text unsignedRendering value)).length <
      vgaScrSize) :
    Built frame st₀ (out ++ padLeft n fill (conv.text unsignedRendering value))
      (putDirective fpu frame args conv.byte fill n p) := by
  obtain ⟨q, hq, hready, -, hstr, hlen⟩ := h.int_ready happart fpu conv harg fill n
  rw [hq]
  exact hready.helper happart hstr hlen fill hroom

/-- A directive puts the text of its piece. -/
theorem Built.directive (h : Built frame st₀ out p) (happart : frame.Apart) (fpu : Doubles)
    {args : Nat → Nat} {piece : Piece} {w : Width} {c : Byte} {n : Nat} (hok : piece.Ok)
    (hitem : piece.item = .directive w c) (hn : piece.padded → n = numeral w.digits % 2 ^ 32)
    (harg : piece.ArgAt frame p.st.bytes args p.ap)
    (hroom : out.length + (piece.text fpu unsignedRendering).length < vgaScrSize) :
    Built frame st₀ (out ++ piece.text fpu unsignedRendering)
      (putDirective fpu frame args c w.fill n p) := by
  cases piece with
  | char c => exact absurd hitem nofun
  | plain w c =>
      obtain ⟨rfl, rfl⟩ := Item.directive.inj hitem
      rw [putDirective_plain fpu frame args hok.2.2]
      exact h.char c hroom
  | int w conv value =>
      obtain ⟨rfl, rfl⟩ := Item.directive.inj hitem
      rw [hn rfl]
      exact h.int_piece happart fpu conv harg w.fill hroom
  | double w lo hi =>
      obtain ⟨rfl, rfl⟩ := Item.directive.inj hitem
      rw [hn rfl]
      have hvalue : fpu.ofWords (args p.ap) (args (p.ap + 1)) = fpu.ofWords lo hi := by
        rw [harg.1, harg.2]
      exact h.double happart fpu hvalue w.fill hroom
  | arg w value =>
      obtain ⟨rfl, rfl⟩ := Item.directive.inj hitem
      have hchar := (h.same (q := p.take 1) rfl rfl).char (value.setWidth 8) hroom
      rw [← harg] at hchar ⊢
      exact hchar
  | string w cs =>
      obtain ⟨rfl, rfl⟩ := Item.directive.inj hitem
      exact h.string harg.1 harg.2 hok.2 hroom

theorem putDirective_ap (fpu : Doubles) (frame : PrintfFrame) (args : Nat → Nat) {piece : Piece}
    {w : Width} {c : Byte} (hok : piece.Ok) (hitem : piece.item = .directive w c) (fill : Byte)
    (n : Nat) (p : PrintfState) :
    (putDirective fpu frame args c fill n p).ap = p.ap + piece.words := by
  cases piece with
  | char c => exact absurd hitem nofun
  | plain w c =>
      obtain ⟨rfl, rfl⟩ := Item.directive.inj hitem
      rw [putDirective_plain fpu frame args hok.2.2]
      rfl
  | int w conv value =>
      obtain ⟨rfl, rfl⟩ := Item.directive.inj hitem
      cases conv <;> rfl
  | double w lo hi =>
      obtain ⟨rfl, rfl⟩ := Item.directive.inj hitem
      rfl
  | arg w value =>
      obtain ⟨rfl, rfl⟩ := Item.directive.inj hitem
      rfl
  | string w cs =>
      obtain ⟨rfl, rfl⟩ := Item.directive.inj hitem
      rfl

theorem Piece.ArgAt.of_writes {piece : Piece} {args : Nat → Nat} {ap : Nat} {st st' : Store}
    (harg : piece.ArgAt frame st.bytes args ap) (h : st.Writes frame.Inside st') :
    piece.ArgAt frame st'.bytes args ap := by
  cases piece with
  | string w cs =>
      exact ⟨harg.1.congr fun b hlo hhi => h.frame b (harg.2 b hlo hhi), harg.2⟩
  | _ => exact harg

theorem Piece.item_cases (piece : Piece) :
    (∃ c, piece = .char c) ∨ ∃ c, piece.item = .directive piece.width c := by
  cases piece with
  | char c => exact Or.inl ⟨c, rfl⟩
  | _ => exact Or.inr ⟨_, rfl⟩

theorem Piece.Ok.digit {piece : Piece} {w : Width} {c : Byte} (h : piece.Ok)
    (hitem : piece.item = .directive w c) : isDigit c = false := by
  have hok := h.item
  rw [hitem] at hok
  exact hok.2

/-- A round at a directive: the width is read, and then the `switch` puts something. -/
theorem printfRound_eq (fpu : Doubles) (frame : PrintfFrame) {text : Memory}
    (args : Nat → Nat) {w : Width} {c : Byte} {rest : List Byte} (hc : isDigit c = false)
    (h : StrAt text p.fmt ((Item.directive w c).bytes ++ rest))
    (hlen : ((Item.directive w c).bytes ++ rest).length < stringFuel) :
    WidthRead frame w p (readWidth frame text p) ∧
      ∃ fmt, printfRound fpu frame text args p =
        { putDirective fpu frame args c w.fill (leadingLen frame (readWidth frame text p).st)
            (readWidth frame text p) with fmt := fmt } := by
  obtain ⟨hpercent, hwidth, hbehind⟩ := directive_at h
  have hend : isDigit (text (p.fmt + 1 + w.bytes.length)) = false := hbehind.symm ▸ hc
  have hread := readWidth_spec frame hwidth hend (by
    simp only [Item.bytes, List.length_append, List.length_cons] at hlen ⊢
    omega)
  refine ⟨hread, (putDirective fpu frame args c w.fill
    (leadingLen frame (readWidth frame text p).st) (readWidth frame text p)).fmt + 1, ?_⟩
  unfold printfRound printfDirective
  dsimp only
  rw [if_neg (not_not.mpr hpercent), hread.fmt, hbehind, if_congr (flag_iff hwidth hend) rfl rfl]
  rfl

/-- The width is in `helper_str`, and the text is as it was. -/
theorem Built.widthRead (h : Built frame st₀ out p) (happart : frame.Apart) {w : Width}
    {q : PrintfState} (hread : WidthRead frame w p q) (hlen : w.digits.length ≤ helperLen) :
    Built frame st₀ out q := by
  refine h.scratch happart hread.s (hread.stored.writes.widen (Nat.le_refl _) ?_)
  omega

/-- A width that fits is read as it stands in the format. -/
theorem WidthRead.leading {piece : Piece} {q : PrintfState}
    (h : WidthRead frame piece.width p q) (hfits : piece.WidthFits) (hpadded : piece.padded) :
    leadingLen frame q.st = numeral piece.width.digits % 2 ^ 32 := by
  unfold Piece.WidthFits at hfits
  rw [if_pos hpadded] at hfits
  exact leadingLen_eq (h.stored.strAt hfits) (Nat.lt_trans hfits (by decide))

/-- What a round puts behind the text. -/
theorem Built.round (h : Built frame st₀ out p) (happart : frame.Apart) (fpu : Doubles)
    {text : Memory} {args : Nat → Nat} {piece : Piece} {rest : List Byte} (hok : piece.Ok)
    (hwidth : piece.WidthFits) (hfmt : StrAt text p.fmt (piece.item.bytes ++ rest))
    (hlen : (piece.item.bytes ++ rest).length < stringFuel)
    (harg : piece.ArgAt frame st₀.bytes args p.ap)
    (hroom : out.length + (piece.text fpu unsignedRendering).length < vgaScrSize) :
    Built frame st₀ (out ++ piece.text fpu unsignedRendering)
        (printfRound fpu frame text args p) ∧
      (printfRound fpu frame text args p).ap = p.ap + piece.words := by
  rcases piece.item_cases with ⟨c, rfl⟩ | ⟨c, hitem⟩
  · have hc : text p.fmt = c := hfmt.1
    have hchar := h.char c hroom
    unfold printfRound
    rw [hc, if_pos hok.2]
    exact ⟨hchar.same rfl rfl, rfl⟩
  · rw [hitem] at hfmt hlen
    obtain ⟨hread, fmt, heq⟩ := printfRound_eq fpu frame args (hok.digit hitem) hfmt hlen
    have hshort : piece.width.digits.length ≤ helperLen := by
      unfold Piece.WidthFits at hwidth
      split at hwidth <;> omega
    have hbuilt := h.widthRead happart hread hshort
    have hargs : piece.ArgAt frame (readWidth frame text p).st.bytes args
        (readWidth frame text p).ap := hread.ap.symm ▸ harg.of_writes hbuilt.writes
    have hput := hbuilt.directive happart fpu hok hitem (hread.leading hwidth) hargs hroom
    have hap := putDirective_ap fpu frame args hok hitem piece.width.fill
      (leadingLen frame (readWidth frame text p).st) (readWidth frame text p)
    rw [heq]
    exact ⟨hput.same rfl rfl, hread.ap ▸ hap⟩

end Round

end DonutOS.Libc
