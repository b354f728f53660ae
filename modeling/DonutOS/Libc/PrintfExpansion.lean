import DonutOS.Libc.PrintfBuild

set_option autoImplicit false

/-!
# Libc: `printf` against what its directives stand for (`libc/src/printf.c`)

Over a whole format the text in `str` is the text of the pieces, one behind the other.
It is the text the directives stand for, except that an `int` in base 10 has no sign.
-/

namespace DonutOS.Libc

open DonutOS.Foundation DonutOS.Kernel

/-- The format of a list of pieces. -/
def formatOf (pieces : List Piece) : List Byte := formatBytes (pieces.map Piece.item)

/-- The format is at `fmt`, the arguments are in place, and the buffers are apart. -/
structure Loaded (frame : PrintfFrame) (text : Memory) (fmt : Nat) (args : Nat → Nat) (st : Store)
    (pieces : List Piece) : Prop where
  apart : frame.Apart
  nonnull : fmt ≠ 0
  format : StrAt text fmt (formatOf pieces)
  short : (formatOf pieces).length < stringFuel
  args : ArgsAt frame st.bytes args 0 pieces

/-- The text `cs` and a NUL are at the start of `str`.  A `%c` may put a NUL into the
text. -/
def TextIn (frame : PrintfFrame) (m : Memory) (cs : List Byte) : Prop :=
  (∀ i (hi : i < cs.length), m (frame.str + i) = cs[i]) ∧ m (frame.str + cs.length) = 0

/-! ## The whole loop -/

theorem formatOf_cons (piece : Piece) (pieces : List Piece) :
    formatOf (piece :: pieces) = piece.item.bytes ++ formatOf pieces := List.flatMap_cons

theorem textOfPieces_cons (fpu : Doubles) (r : Rendering) (piece : Piece) (pieces : List Piece) :
    textOfPieces fpu r (piece :: pieces) = piece.text fpu r ++ textOfPieces fpu r pieces :=
  List.flatMap_cons

theorem textOfPieces_append (fpu : Doubles) (r : Rendering) (pieces rest : List Piece) :
    textOfPieces fpu r (pieces ++ rest) = textOfPieces fpu r pieces ++ textOfPieces fpu r rest :=
  List.flatMap_append

theorem printfLoop_built (fpu : Doubles) {frame : PrintfFrame} (happart : frame.Apart)
    {text : Memory} {args : Nat → Nat} {st₀ : Store} {pieces : List Piece} :
    ∀ {fuel : Nat} {p : PrintfState} {out : List Byte}, Built frame st₀ out p →
      (∀ piece ∈ pieces, piece.Ok ∧ piece.WidthFits) → StrAt text p.fmt (formatOf pieces) →
      (formatOf pieces).length < stringFuel → ArgsAt frame st₀.bytes args p.ap pieces →
      out.length + (textOfPieces fpu unsignedRendering pieces).length < vgaScrSize →
      (formatOf pieces).length < fuel →
      ∃ q, printfLoop fpu frame text args fuel p = some q ∧
        Built frame st₀ (out ++ textOfPieces fpu unsignedRendering pieces) q := by
  induction pieces with
  | nil =>
      intro fuel p out h _ hfmt _ _ _ hfuel
      obtain ⟨fuel, rfl⟩ : ∃ k, fuel = k + 1 := ⟨fuel - 1, by omega⟩
      have hnul : text p.fmt = 0 := hfmt
      refine ⟨p.readAt p.fmt, printfLoop_of_nul fpu frame args hnul, ?_⟩
      have hsame : out ++ textOfPieces fpu unsignedRendering [] = out := List.append_nil out
      rw [hsame]
      exact h.same rfl rfl
  | cons piece pieces ih =>
      intro fuel p out h hpieces hfmt hlen hargs hroom hfuel
      obtain ⟨hok, hwidth⟩ := hpieces piece List.mem_cons_self
      obtain ⟨harg, hargs⟩ := hargs
      rw [formatOf_cons] at hfmt hlen hfuel
      rw [textOfPieces_cons, List.length_append] at hroom
      have hpos := piece.item.length_bytes_pos
      obtain ⟨fuel, rfl⟩ : ∃ k, fuel = k + 1 := ⟨fuel - 1, by omega⟩
      have hread : Built frame st₀ out (p.readAt p.fmt) := h.same rfl rfl
      obtain ⟨hround, hap⟩ := hread.round happart fpu hok hwidth hfmt hlen harg (by omega)
      have hitem := (printfRound_item fpu frame args (p := p.readAt p.fmt) hok.item hfmt hlen).1
      rw [List.length_append] at hlen hfuel
      obtain ⟨q, hq, hbuilt⟩ := @ih fuel _ _ hround
        (fun x hx => hpieces x (List.mem_cons_of_mem _ hx)) (hitem.symm ▸ hfmt.behind) (by omega)
        (hap.symm ▸ hargs) (by rw [List.length_append]; omega) (by omega)
      refine ⟨q, (printfLoop_of_ne fpu frame args (item_ne hfmt)).trans hq, ?_⟩
      rw [textOfPieces_cons, ← List.append_assoc]
      exact hbuilt

/-- As long as there is room, `printf` leaves the text of the pieces in `str`, and writes
only inside its buffers. -/
theorem printf_built (fpu : Doubles) {frame : PrintfFrame} {text : Memory} {fmt : Nat}
    {args : Nat → Nat} {st : Store} (screen : Screen) {pieces : List Piece}
    (hpieces : ∀ piece ∈ pieces, piece.Ok ∧ piece.WidthFits)
    (hloaded : Loaded frame text fmt args st pieces)
    (hroom : (textOfPieces fpu unsignedRendering pieces).length < vgaScrSize) :
    ∃ x, printf fpu frame text fmt args st screen = some x ∧
      TextIn frame x.final.st.bytes (textOfPieces fpu unsignedRendering pieces) ∧
      st.Writes frame.Inside x.final.st := by
  obtain ⟨q, hq, hbuilt⟩ := printfLoop_built fpu hloaded.apart (built_start frame fmt st) hpieces
    hloaded.format hloaded.short hloaded.args (by rw [List.length_nil]; omega) hloaded.short
  rw [List.nil_append] at hbuilt
  have hcursor := hbuilt.cursor
  rw [printf_eq _ _ _ hloaded.nonnull, hq]
  refine ⟨_, rfl, ⟨fun i hi => ?_, ?_⟩, hbuilt.writes.trans (.put _ _ (Or.inl ?_))⟩
  · change (q.st.put q.s 0).bytes (frame.str + i) = _
    rw [Store.bytes_put_of_ne _ _ (by omega)]
    exact hbuilt.bytes i hi
  · change (q.st.put q.s 0).bytes (frame.str + _) = 0
    rw [← hcursor]
    exact Store.bytes_put_same _ _ _
  · exact ⟨by omega, by omega⟩

/-! ## Characters, numbers without a sign, and strings -/

/-- A character, `%%`, or one of the conversions `x`, `X`, `b`, `c` and `s`, with a width
of nine digits or less. -/
def Piece.Unsigned (piece : Piece) : Prop :=
  piece.width.digits.length ≤ 9 ∧
    match piece with
    | .plain _ c => c = 0x25
    | .int _ conv _ => conv ∈ [IntConv.x, .upperX, .b]
    | .double _ _ _ => False
    | _ => True

theorem Piece.Unsigned.widthFits {piece : Piece} (h : piece.Unsigned) : piece.WidthFits := by
  have hroom : 9 < helperLen := by decide
  have hshort := h.1
  unfold Piece.WidthFits
  split <;> omega

/-- A number of nine digits is the `size_t` it becomes. -/
theorem numeral_mod {ds : List (Fin 10)} (h : ds.length ≤ 9) :
    numeral ds % 2 ^ 32 = numeral ds := by
  refine Nat.mod_eq_of_lt ?_
  calc numeral ds < 10 ^ ds.length := numeral_lt ds
    _ ≤ 10 ^ 9 := Nat.pow_le_pow_right (by decide) h
    _ < 2 ^ 32 := by decide

theorem Piece.Unsigned.text {piece : Piece} (h : piece.Unsigned) (fpu : Doubles) :
    piece.text fpu unsignedRendering = piece.text fpu signedRendering := by
  obtain ⟨hshort, hkind⟩ := h
  cases piece with
  | int w conv value =>
      have hconv : conv.text unsignedRendering value = conv.text signedRendering value := by
        cases conv with
        | d => exact absurd (show IntConv.d ∈ [IntConv.x, .upperX, .b] from hkind) (by decide)
        | i => exact absurd (show IntConv.i ∈ [IntConv.x, .upperX, .b] from hkind) (by decide)
        | x => rfl
        | upperX => rfl
        | b => rfl
      change padLeft (numeral w.digits % 2 ^ 32) w.fill _ = padLeft (numeral w.digits) w.fill _
      rw [show numeral w.digits % 2 ^ 32 = numeral w.digits from numeral_mod hshort, hconv]
  | double w lo hi => exact hkind.elim
  | _ => rfl

theorem textOfPieces_unsigned (fpu : Doubles) {pieces : List Piece}
    (h : ∀ piece ∈ pieces, piece.Unsigned) :
    textOfPieces fpu unsignedRendering pieces = textOfPieces fpu signedRendering pieces := by
  induction pieces with
  | nil => rfl
  | cons piece pieces ih =>
      rw [textOfPieces_cons, textOfPieces_cons, (h piece List.mem_cons_self).text,
        ih fun x hx => h x (List.mem_cons_of_mem _ hx)]

/-- For every such format, whatever its arguments: `printf` leaves in `str` the text that
the directives stand for. -/
theorem printf_expansion (fpu : Doubles) {frame : PrintfFrame} {text : Memory} {fmt : Nat}
    {args : Nat → Nat} {st : Store} (screen : Screen) {pieces : List Piece}
    (hpieces : ∀ piece ∈ pieces, piece.Ok ∧ piece.Unsigned)
    (hloaded : Loaded frame text fmt args st pieces)
    (hroom : (textOfPieces fpu signedRendering pieces).length < vgaScrSize) :
    ∃ x, printf fpu frame text fmt args st screen = some x ∧
      TextIn frame x.final.st.bytes (textOfPieces fpu signedRendering pieces) := by
  have htext := textOfPieces_unsigned fpu fun piece hp => (hpieces piece hp).2
  rw [← htext] at hroom ⊢
  obtain ⟨x, hx, hin, -⟩ := printf_built fpu screen
    (fun piece hp => ⟨(hpieces piece hp).1, (hpieces piece hp).2.widthFits⟩) hloaded hroom
  exact ⟨x, hx, hin⟩

def hexDigits : List (Fin 10) := [⟨2, by decide⟩]

/-- `"%02x"`. -/
def hexPieces (value : Word) : List Piece := [.int (.zeroFilled hexDigits) .x value]

theorem loaded_hexPieces : Loaded sampleFrame (textOf (formatOf (hexPieces 10))) 1 (fun _ => 10)
    ⟨fun _ => 0, []⟩ (hexPieces 10) where
  apart := Or.inl (by decide)
  nonnull := by decide
  format := strAt_textOf (by decide)
  short := by decide
  args := ⟨rfl, trivial⟩

/-- `printf("%02x", 10)` leaves `0a`. -/
theorem printf_expansion_hex : ∃ x,
    printf noDoubles sampleFrame (textOf (formatOf (hexPieces 10))) 1 (fun _ => 10)
      ⟨fun _ => 0, []⟩ ⟨fun _ => 0, 0, 0, 0, 0⟩ = some x ∧
    TextIn sampleFrame x.final.st.bytes (textOfPieces noDoubles signedRendering (hexPieces 10)) :=
  printf_expansion noDoubles _ (fun piece hp => by
    obtain rfl := List.mem_singleton.mp hp
    exact ⟨trivial, by decide, by decide⟩) loaded_hexPieces (by decide)

/-! ## Numbers with a sign -/

/-- A character of the text. -/
theorem TextIn.byte {frame : PrintfFrame} {m : Memory} {before cs after : List Byte}
    (h : TextIn frame m (before ++ cs ++ after)) {i : Nat} (hi : i < cs.length) :
    m (frame.str + (before.length + i)) = cs[i] := by
  have hfront : before.length + i < (before ++ cs).length := by
    rw [List.length_append]
    omega
  have hwhole : before.length + i < (before ++ cs ++ after).length := by
    rw [List.length_append]
    exact Nat.lt_add_right _ hfront
  rw [h.1 _ hwhole, List.getElem_append_left hfront,
    List.getElem_append_right (Nat.le_add_right _ _)]
  congr 1
  omega

theorem digitChar_ne_minus {d : Nat} (hd : d < 10) : digitChar d ≠ 0x2d := by
  have hall : ∀ d : Fin 10, digitChar d.val ≠ 0x2d := by decide
  exact hall ⟨d, hd⟩

/-- No padded number has a minus. -/
theorem minus_not_mem_padLeft (w : Width) (n value : Nat) :
    0x2d ∉ padLeft n w.fill (numberText 10 value) := by
  unfold padLeft numberText
  intro h
  rcases List.mem_append.mp h with h | h
  · have hfill : w.fill ≠ 0x2d := by
      unfold Width.fill
      split <;> decide
    exact hfill (List.mem_replicate.mp h).2.symm
  · obtain ⟨d, hd, heq⟩ := List.mem_map.mp (List.mem_reverse.mp h)
    exact digitChar_ne_minus (digitsOf_lt (by decide) hd) heq

/-- Where the minus of a padded number is, and that the number without it is longer. -/
theorem padLeft_signedText {value : Word} (hneg : value.toInt < 0) (n : Nat) (fill : Byte) :
    ∃ i, (padLeft n fill (signedText value))[i]? = some 0x2d ∧
      i < (padLeft n fill (numberText 10 value.toNat)).length := by
  unfold padLeft signedText
  rw [if_pos hneg]
  refine ⟨n - (0x2d :: numberText 10 value.toInt.natAbs).length, ?_, ?_⟩
  · rw [List.getElem?_append_right (by rw [List.length_replicate]), List.length_replicate,
      Nat.sub_self]
    rfl
  · have hpos := length_digitsOf_pos (b := 10) (by decide) value.toNat
    rw [List.length_append, List.length_replicate, length_numberText 10 value.toNat,
      List.length_cons]
    omega

theorem signedText_of_nonneg {value : Word} (h : 0 ≤ value.toInt) :
    signedText value = numberText 10 value.toNat := by
  have hnat := toNat_of_toInt h
  have habs : value.toInt.natAbs = value.toNat := by omega
  unfold signedText
  rw [if_neg (Int.not_lt.mpr h), habs]

theorem IntConv.text_decimal {conv : IntConv} (h : conv = .d ∨ conv = .i) (r : Rendering)
    (value : Word) : conv.text r value = r.decimal value := by
  rcases h with rfl | rfl <;> rfl

/-- For every `int` in base 10, with every fill character and width below 128, wherever the
directive stands in the format: `printf` puts the number with its sign exactly when it is
not negative. -/
theorem printf_signed_iff (fpu : Doubles) {frame : PrintfFrame} {text : Memory} {fmt : Nat}
    {args : Nat → Nat} {st : Store} (screen : Screen) {before after : List Piece} {w : Width}
    {conv : IntConv} {value : Word} (hconv : conv = .d ∨ conv = .i)
    (hwidth : numeral w.digits < 128)
    (hpieces : ∀ piece ∈ before ++ .int w conv value :: after, piece.Ok ∧ piece.WidthFits)
    (hloaded : Loaded frame text fmt args st (before ++ .int w conv value :: after))
    (hroom : (textOfPieces fpu unsignedRendering
      (before ++ .int w conv value :: after)).length < vgaScrSize) :
    (∃ x, printf fpu frame text fmt args st screen = some x ∧
      TextIn frame x.final.st.bytes (textOfPieces fpu unsignedRendering before ++
        padLeft (numeral w.digits) w.fill (signedText value) ++
        textOfPieces fpu unsignedRendering after)) ↔ 0 ≤ value.toInt := by
  obtain ⟨x, hx, hin, -⟩ := printf_built fpu screen hpieces hloaded hroom
  have hmod : numeral w.digits % 2 ^ 32 = numeral w.digits :=
    Nat.mod_eq_of_lt (Nat.lt_trans hwidth (by decide))
  have hdirective : (Piece.int w conv value).text fpu unsignedRendering =
      padLeft (numeral w.digits) w.fill (numberText 10 value.toNat) := by
    change padLeft (numeral w.digits % 2 ^ 32) w.fill (conv.text unsignedRendering value) = _
    rw [hmod, IntConv.text_decimal hconv]
    rfl
  rw [textOfPieces_append, textOfPieces_cons, hdirective, ← List.append_assoc] at hin
  constructor
  · rintro ⟨y, hy, hsigned⟩
    obtain rfl : x = y := Option.some.inj (hx.symm.trans hy)
    by_contra hneg
    -- the minus is not where the code has a fill character or a digit
    obtain ⟨i, hminus, hi⟩ := padLeft_signedText (Int.not_le.mp hneg) (numeral w.digits) w.fill
    obtain ⟨hlen, hget⟩ := List.getElem?_eq_some_iff.mp hminus
    have hbyte := (hin.byte hi).symm.trans ((hsigned.byte hlen).trans hget)
    exact minus_not_mem_padLeft w _ _ (hbyte ▸ List.getElem_mem hi)
  · intro hnonneg
    rw [signedText_of_nonneg hnonneg]
    exact ⟨x, hx, hin⟩

/-- `"%d"`. -/
def decimalPieces (value : Word) : List Piece := [.int .none .d value]

theorem loaded_decimalPieces (n : Nat) :
    Loaded sampleFrame (textOf (formatOf (decimalPieces (BitVec.ofNat 32 n)))) 1 (fun _ => n)
      ⟨fun _ => 0, []⟩ (decimalPieces (BitVec.ofNat 32 n)) where
  apart := Or.inl (by decide)
  nonnull := by decide
  format := by
    have hformat : formatOf (decimalPieces (BitVec.ofNat 32 n)) = [0x25, 0x64] := rfl
    rw [hformat]
    exact strAt_textOf (by decide)
  short := by
    change 2 < stringFuel
    decide
  args := ⟨rfl, trivial⟩

/-- `printf("%d", 7)`. -/
theorem printf_signed_iff_seven :
    (∃ x, printf noDoubles sampleFrame (textOf (formatOf (decimalPieces 7))) 1 (fun _ => 7)
      ⟨fun _ => 0, []⟩ ⟨fun _ => 0, 0, 0, 0, 0⟩ = some x ∧
      TextIn sampleFrame x.final.st.bytes (textOfPieces noDoubles unsignedRendering [] ++
        padLeft (numeral Width.none.digits) Width.none.fill (signedText 7) ++
        textOfPieces noDoubles unsignedRendering [])) ↔ (0 : Int) ≤ (7 : Word).toInt :=
  printf_signed_iff noDoubles _ (Or.inl rfl) (by decide) (fun piece hp => by
    obtain rfl := List.mem_singleton.mp hp
    exact ⟨trivial, by decide⟩) (loaded_decimalPieces 7) (by decide)

/-- `printf("%d", -1)` leaves `4294967295`. -/
theorem printf_minus_one : ¬ ∃ x,
    printf noDoubles sampleFrame (textOf (formatOf (decimalPieces 0xffffffff))) 1
      (fun _ => 0xffffffff) ⟨fun _ => 0, []⟩ ⟨fun _ => 0, 0, 0, 0, 0⟩ = some x ∧
    TextIn sampleFrame x.final.st.bytes (padLeft 0 0x20 (signedText 0xffffffff)) := by
  rintro ⟨x, hx, hsigned⟩
  obtain ⟨y, hy, hin, -⟩ := printf_built noDoubles ⟨fun _ => 0, 0, 0, 0, 0⟩ (fun piece hp => by
    obtain rfl := List.mem_singleton.mp hp
    exact ⟨trivial, by decide⟩) (loaded_decimalPieces 0xffffffff) (by decide)
  obtain rfl : x = y := Option.some.inj (hx.symm.trans hy)
  have hminus : x.final.st.bytes sampleFrame.str = 0x2d := hsigned.1 0 (by decide)
  have hdigit : x.final.st.bytes sampleFrame.str = 0x34 := hin.1 0 (by decide)
  exact absurd (hminus.symm.trans hdigit) (by decide)

end DonutOS.Libc
