import Mathlib.Data.List.Induction
import DonutOS.Libc.AtoiSpec
import DonutOS.Libc.Printf

set_option autoImplicit false

/-!
# Libc: the format of `printf` (`libc/src/printf.c`)

A format is cut into characters and directives.  A round of the loop takes one of them;
when the format ends inside a directive, the last round takes the NUL for the character
that ends it and goes on behind it.
-/

namespace DonutOS.Libc

open DonutOS.Foundation DonutOS.Kernel

/-! ## Characters and directives -/

/-- The zero flag and the digits of the width.  A first `0` is always the flag. -/
structure Width where
  zero : Bool
  digits : List (Fin 10)
  plain : zero = false → digits.head? ≠ some 0

/-- The flag as it stands in the format. -/
def Width.flag (w : Width) : List Byte := if w.zero then [0x30] else []

def Width.bytes (w : Width) : List Byte := w.flag ++ w.digits.map digitByte

/-- The character that fills up to the width. -/
def Width.fill (w : Width) : Byte := if w.zero then 0x30 else 0x20

theorem plain_of_zero (ds : List (Fin 10)) : true = false → ds.head? ≠ some 0 :=
  fun h => absurd h Bool.false_ne_true.symm

theorem plain_nil : false = false → ([] : List (Fin 10)).head? ≠ some 0 := by decide

/-- A width that is filled up with zeros. -/
def Width.zeroFilled (ds : List (Fin 10)) : Width := ⟨true, ds, plain_of_zero ds⟩

/-- No flag and no width. -/
def Width.none : Width := ⟨false, [], plain_nil⟩

/-- What a round of the loop takes. -/
inductive Item
  | char (c : Byte)
  | directive (w : Width) (c : Byte)

def Item.bytes : Item → List Byte
  | .char c => [c]
  | .directive w c => 0x25 :: (w.bytes ++ [c])

def Item.Ok : Item → Prop
  | .char c => c ≠ 0 ∧ c ≠ 0x25
  | .directive _ c => c ≠ 0 ∧ isDigit c = false

def formatBytes (items : List Item) : List Byte := items.flatMap Item.bytes

/-- Behind the next character: whether a directive is still open. -/
def scanFormat (inside : Bool) (c : Byte) : Bool := if inside then isDigit c else c == 0x25

/-- The format ends behind a `%`, a zero flag or the digits of a width. -/
def EndsInside (cs : List Byte) : Prop := cs.foldl scanFormat false = true

instance (cs : List Byte) : Decidable (EndsInside cs) :=
  inferInstanceAs (Decidable (cs.foldl scanFormat false = true))

theorem exists_digitByte {c : Byte} (h : isDigit c = true) : ∃ d, digitByte d = c := by
  revert c
  decide +kernel

/-- A width with a digit more. -/
theorem Width.exists_concat (w : Width) {c : Byte} (h : isDigit c = true) :
    ∃ w' : Width, w'.bytes = w.bytes ++ [c] := by
  obtain ⟨d, rfl⟩ := exists_digitByte h
  obtain ⟨zero, digits, plain⟩ := w
  by_cases hflag : zero = false ∧ digits = [] ∧ d = 0
  · obtain ⟨rfl, rfl, rfl⟩ := hflag
    exact ⟨⟨true, [], nofun⟩, rfl⟩
  · refine ⟨⟨zero, digits ++ [d], fun hzero => ?_⟩, ?_⟩
    · cases digits with
      | nil => exact fun hd => hflag ⟨hzero, rfl, Option.some.inj hd⟩
      | cons e digits => exact plain hzero
    · unfold Width.bytes Width.flag
      rw [List.map_append, ← List.append_assoc]
      rfl

theorem formatBytes_concat (items : List Item) (item : Item) :
    formatBytes (items ++ [item]) = formatBytes items ++ item.bytes := by
  unfold formatBytes
  rw [List.flatMap_append, List.flatMap_singleton]

theorem ok_concat {items : List Item} {item : Item} (hok : ∀ x ∈ items, x.Ok) (hitem : item.Ok) :
    ∀ x ∈ items ++ [item], x.Ok := by
  intro x hx
  rcases List.mem_append.mp hx with hx | hx
  · exact hok x hx
  · exact List.mem_singleton.mp hx ▸ hitem

theorem endsInside_concat (cs : List Byte) (c : Byte) :
    EndsInside (cs ++ [c]) ↔ if EndsInside cs then isDigit c = true else c = 0x25 := by
  by_cases hin : EndsInside cs
  · have hscan : cs.foldl scanFormat false = true := hin
    rw [if_pos hin]
    unfold EndsInside
    rw [List.foldl_append, hscan]
    exact Iff.rfl
  · have hscan : cs.foldl scanFormat false = false := Bool.eq_false_iff.mpr hin
    rw [if_neg hin]
    unfold EndsInside
    rw [List.foldl_append, hscan]
    exact beq_iff_eq

/-- Every format is a list of items, with a directive behind them that is cut off when it
ends inside one. -/
theorem format_cases (cs : List Byte) (hne : ∀ c ∈ cs, c ≠ 0) :
    ∃ items : List Item, (∀ item ∈ items, item.Ok) ∧
      if EndsInside cs then ∃ w : Width, cs = formatBytes items ++ 0x25 :: w.bytes
      else cs = formatBytes items := by
  induction cs using List.reverseRecOn with
  | nil => exact ⟨[], fun _ h => absurd h List.not_mem_nil, rfl⟩
  | append_singleton cs c ih =>
      obtain ⟨items, hok, hcs⟩ := ih fun d hd => hne d (List.mem_append_left _ hd)
      have hc : c ≠ 0 := hne c (List.mem_append_right _ (List.mem_singleton_self c))
      have hmore := endsInside_concat cs c
      by_cases hin : EndsInside cs
      · rw [if_pos hin] at hcs hmore
        obtain ⟨w, hw⟩ := hcs
        by_cases hdigit : isDigit c = true
        · -- the width has a digit more
          obtain ⟨w', hw'⟩ := w.exists_concat hdigit
          refine ⟨items, hok, ?_⟩
          rw [if_pos (hmore.mpr hdigit)]
          refine ⟨w', ?_⟩
          rw [hw, hw', List.append_assoc, List.cons_append]
        · have hitem : (Item.directive w c).Ok := ⟨hc, Bool.eq_false_iff.mpr hdigit⟩
          refine ⟨items ++ [.directive w c], ok_concat hok hitem, ?_⟩
          rw [if_neg (mt hmore.mp hdigit), formatBytes_concat, hw, List.append_assoc]
          rfl
      · rw [if_neg hin] at hcs hmore
        by_cases hpercent : c = 0x25
        · refine ⟨items, hok, ?_⟩
          rw [if_pos (hmore.mpr hpercent)]
          refine ⟨.none, ?_⟩
          rw [hcs, hpercent]
          rfl
        · have hitem : (Item.char c).Ok := ⟨hc, hpercent⟩
          refine ⟨items ++ [.char c], ok_concat hok hitem, ?_⟩
          rw [if_neg (mt hmore.mp hpercent), formatBytes_concat, hcs]
          rfl

/-! ## Reading a width -/

/-- The digits `ds` are in `helper_str`, with a NUL behind them if it has room. -/
structure WidthStored (helperStr : Nat) (ds : List (Fin 10)) (st st' : Store) : Prop where
  digits : ∀ i (hi : i < ds.length), st'.bytes (helperStr + i) = digitByte ds[i]
  nul : ds.length < helperLen → st'.bytes (helperStr + ds.length) = 0
  writes : st.Writes (fun a => helperStr ≤ a ∧ a < helperStr + max helperLen ds.length) st'
  touches : ∀ i < ds.length, st.Touches (helperStr + i) st'

/-- The addresses read between `p` and `q` lie from `lo` on and before `hi`. -/
def ReadsIn (lo hi : Nat) (p q : PrintfState) : Prop :=
  ∃ new, q.reads = new ++ p.reads ∧ ∀ a ∈ new, lo ≤ a ∧ a < hi

theorem ReadsIn.refl (lo hi : Nat) (p : PrintfState) : ReadsIn lo hi p p :=
  ⟨[], rfl, fun _ ha => absurd ha List.not_mem_nil⟩

theorem ReadsIn.readAt {lo hi a : Nat} (p : PrintfState) (hlo : lo ≤ a) (hhi : a < hi) :
    ReadsIn lo hi p (p.readAt a) :=
  ⟨[a], rfl, fun _ hb => List.mem_singleton.mp hb ▸ ⟨hlo, hhi⟩⟩

theorem ReadsIn.trans {lo hi lo' hi' : Nat} {p q r : PrintfState} (h : ReadsIn lo hi p q)
    (h' : ReadsIn lo' hi' q r) (hlo : lo ≤ lo') (hhi : hi ≤ hi') : ReadsIn lo hi' p r := by
  obtain ⟨new, hnew, hin⟩ := h
  obtain ⟨new', hnew', hin'⟩ := h'
  refine ⟨new' ++ new, by rw [hnew', hnew, List.append_assoc], fun a ha => ?_⟩
  rcases List.mem_append.mp ha with ha | ha
  · exact ⟨Nat.le_trans hlo (hin' a ha).1, (hin' a ha).2⟩
  · exact ⟨(hin a ha).1, Nat.lt_of_lt_of_le (hin a ha).2 hhi⟩

/-- After the first `i` digits. -/
structure DigitsRead (frame : PrintfFrame) (ds : List (Fin 10)) (p : PrintfState) (i : Nat)
    (q : PrintfState) : Prop where
  fmt : q.fmt = p.fmt + i
  s : q.s = p.s
  ap : q.ap = p.ap
  reads : ReadsIn p.fmt (p.fmt + i + 1) p q
  digits : ∀ j (hj : j < ds.length), j < i → q.st.bytes (frame.helperStr + j) = digitByte ds[j]
  writes : p.st.Writes (fun a => frame.helperStr ≤ a ∧ a < frame.helperStr + i) q.st
  touches : ∀ j < i, p.st.Touches (frame.helperStr + j) q.st

theorem DigitsRead.round {frame : PrintfFrame} {text : Memory} {ds : List (Fin 10)}
    {p q : PrintfState} {i : Nat} (hi : i < ds.length)
    (hdigit : text (p.fmt + i) = digitByte ds[i]) (h : DigitsRead frame ds p i q) :
    DigitsRead frame ds p (i + 1) (widthRound frame text i q) where
  fmt := congrArg (· + 1) h.fmt
  s := h.s
  ap := h.ap
  reads := by
    have hnext : ReadsIn p.fmt (p.fmt + (i + 1) + 1) q (q.readAt (q.fmt + 1)) := by
      rw [h.fmt]
      exact .readAt q (by omega) (by omega)
    exact h.reads.trans hnext (Nat.le_refl _) (Nat.le_succ _)
  digits := by
    intro j hj hji
    change (q.st.put (frame.helperStr + i) (text q.fmt)).bytes (frame.helperStr + j) = _
    by_cases hlast : j = i
    · subst hlast
      rw [Store.bytes_put_same, h.fmt, hdigit]
    · rw [Store.bytes_put_of_ne _ _ (by omega)]
      exact h.digits j hj (by omega)
  writes := .trans (h.writes.widen (Nat.le_refl _) (by omega))
    (.put _ _ ⟨Nat.le_add_right _ _, by omega⟩)
  touches := by
    intro j hj
    by_cases hlast : j = i
    · exact .behind h.writes (hlast ▸ .put _ _ _)
    · refine (h.touches j (by omega)).before (P := fun _ => True) (.put _ _ trivial)

/-- The digits are read up to the character behind them. -/
theorem span_width {text : Memory} {a : Nat} {ds : List (Fin 10)} {rest : List Byte}
    (h : StrAt text a (ds.map digitByte ++ rest)) (hend : isDigit (text (a + ds.length)) = false)
    (hlen : (ds.map digitByte ++ rest).length < stringFuel) : span text isDigit a = ds.length := by
  have hall : ∀ c ∈ ds.map digitByte, isDigit c = true := by
    intro c hc
    obtain ⟨d, -, rfl⟩ := List.mem_map.mp hc
    exact isDigit_digitByte d
  have hrest : rest.takeWhile isDigit = [] := by
    cases rest with
    | nil => rfl
    | cons c rest =>
        have hbehind := h.behind
        rw [List.length_map] at hbehind
        have hc : isDigit c = false := hbehind.1 ▸ hend
        rw [List.takeWhile_cons, hc]
        rfl
  rw [span_eq isDigit_nul h hlen, List.takeWhile_append_of_pos hall, hrest, List.append_nil,
    List.length_map]

theorem readDigits_spec (frame : PrintfFrame) {text : Memory} (p : PrintfState)
    {ds : List (Fin 10)} {rest : List Byte} (h : StrAt text p.fmt (ds.map digitByte ++ rest))
    (hend : isDigit (text (p.fmt + ds.length)) = false)
    (hlen : (ds.map digitByte ++ rest).length < stringFuel) :
    (readDigits frame text p).fmt = p.fmt + ds.length ∧ (readDigits frame text p).s = p.s ∧
      (readDigits frame text p).ap = p.ap ∧
      ReadsIn p.fmt (p.fmt + ds.length + 1) p (readDigits frame text p) ∧
      WidthStored frame.helperStr ds p.st (readDigits frame text p).st := by
  have hloop := forLoop_invariant (fun i q => DigitsRead frame ds p i q)
    (f := widthRound frame text) ds.length 0 p
    ⟨rfl, rfl, rfl, .refl _ _ _,
      fun j _ hj => absurd hj (Nat.not_lt_zero j), .refl _ _,
      fun j hj => absurd hj (Nat.not_lt_zero j)⟩
    fun i q _ hi hq => by
      rw [Nat.zero_add] at hi
      refine hq.round hi ?_
      rw [h.get (by rw [List.length_append, List.length_map]; omega),
        List.getElem_append_left (by rw [List.length_map]; exact hi), List.getElem_map]
  rw [Nat.zero_add] at hloop
  unfold readDigits
  simp only [span_width h hend hlen]
  refine ⟨hloop.fmt, hloop.s, hloop.ap, hloop.reads, ?_⟩
  split
  · next hroom =>
    refine ⟨fun i hi => ?_, fun _ => Store.bytes_put_same _ _ _, ?_, fun i hi => ?_⟩
    · rw [Store.bytes_put_of_ne _ _ (by omega)]
      exact hloop.digits i hi hi
    · exact .trans (hloop.writes.widen (Nat.le_refl _) (by omega))
        (.put _ _ ⟨Nat.le_add_right _ _, by omega⟩)
    · exact (hloop.touches i hi).before (P := fun _ => True) (.put _ _ trivial)
  · next hfull =>
    refine ⟨fun i hi => hloop.digits i hi hi, fun hroom => absurd hroom hfull, ?_, hloop.touches⟩
    exact hloop.writes.widen (Nat.le_refl _) (by omega)

/-! ## A round of the loop -/

/-- What `readWidth` did on its way from the `%` to the character that ends the
directive. -/
structure WidthRead (frame : PrintfFrame) (w : Width) (p q : PrintfState) : Prop where
  fmt : q.fmt = p.fmt + 1 + w.bytes.length
  s : q.s = p.s
  ap : q.ap = p.ap
  reads : ReadsIn p.fmt (q.fmt + 1) p q
  stored : WidthStored frame.helperStr w.digits p.st q.st

theorem digitByte_eq_iff (d : Fin 10) : digitByte d = 0x30 ↔ d = 0 := by
  revert d
  decide

/-- The flag is there exactly when the first byte behind the `%` is a `0`. -/
theorem flag_iff {text : Memory} {a : Nat} {w : Width} {rest : List Byte}
    (h : StrAt text a (w.bytes ++ rest))
    (hend : isDigit (text (a + w.bytes.length)) = false) : text a = 0x30 ↔ w.zero = true := by
  obtain ⟨zero, digits, plain⟩ := w
  cases zero with
  | true => exact iff_of_true h.1 rfl
  | false =>
      refine iff_of_false (fun htext => ?_) nofun
      cases digits with
      | nil =>
          have hdigit : isDigit (text a) = false := hend
          rw [htext] at hdigit
          exact absurd hdigit (by decide)
      | cons d digits =>
          refine plain rfl (congrArg some ?_)
          exact (digitByte_eq_iff d).mp (h.1.symm.trans htext)

theorem Width.length_bytes (w : Width) :
    w.bytes.length = w.flag.length + w.digits.length := by
  unfold Width.bytes
  rw [List.length_append, List.length_map]

theorem readWidth_spec (frame : PrintfFrame) {text : Memory} {p : PrintfState} {w : Width}
    {rest : List Byte} (h : StrAt text (p.fmt + 1) (w.bytes ++ rest))
    (hend : isDigit (text (p.fmt + 1 + w.bytes.length)) = false)
    (hlen : (w.bytes ++ rest).length < stringFuel) :
    WidthRead frame w p (readWidth frame text p) := by
  have hflag : (if text (p.fmt + 1) = 0x30 then p.fmt + 1 + 1 else p.fmt + 1) =
      p.fmt + 1 + w.flag.length := by
    rw [if_congr (flag_iff h hend) rfl rfl]
    unfold Width.flag
    split <;> rfl
  have hdigits : StrAt text (p.fmt + 1 + w.flag.length) (w.digits.map digitByte ++ rest) := by
    rw [Width.bytes, List.append_assoc] at h
    exact h.behind
  rw [w.length_bytes, ← Nat.add_assoc] at hend
  rw [Width.bytes, List.append_assoc, List.length_append] at hlen
  have heq : readWidth frame text p = readDigits frame text
      ((p.readAt (p.fmt + 1)).readAt (p.fmt + 1 + w.flag.length)) := by
    rw [← hflag]
    rfl
  have hstart : ReadsIn p.fmt (p.fmt + 1 + w.flag.length + 1) p
      ((p.readAt (p.fmt + 1)).readAt (p.fmt + 1 + w.flag.length)) :=
    (ReadsIn.readAt p (Nat.le_succ _) (Nat.lt_succ_self _)).trans
      (.readAt _ (Nat.le_refl _) (Nat.lt_succ_self _)) (by omega) (by omega)
  obtain ⟨hfmt, hs, hap, hreads, hstored⟩ := readDigits_spec frame
    ((p.readAt (p.fmt + 1)).readAt (p.fmt + 1 + w.flag.length)) hdigits hend
    (Nat.lt_of_le_of_lt (Nat.le_add_left _ _) hlen)
  rw [heq]
  refine ⟨?_, hs, hap, ?_, hstored⟩
  · rw [hfmt, w.length_bytes, ← Nat.add_assoc]
    rfl
  · rw [hfmt]
    exact hstart.trans hreads (by
      change p.fmt ≤ p.fmt + 1 + w.flag.length
      omega) (Nat.add_le_add_right (Nat.le_add_right _ _) 1)

/-- A directive in the format: its `%`, its width and the character behind that. -/
theorem directive_at {text : Memory} {a : Nat} {w : Width} {c : Byte} {rest : List Byte}
    (h : StrAt text a ((Item.directive w c).bytes ++ rest)) :
    text a = 0x25 ∧ StrAt text (a + 1) (w.bytes ++ (c :: rest)) ∧
      text (a + 1 + w.bytes.length) = c := by
  obtain ⟨hpercent, -, hrest⟩ := h
  rw [List.append_eq, List.append_assoc] at hrest
  exact ⟨hpercent, hrest, hrest.behind.1⟩

section Rounds

variable (fpu : Doubles) (frame : PrintfFrame) {text : Memory} (args : Nat → Nat)
  {p : PrintfState}

theorem printfLoop_of_ne {fuel : Nat} (h : text p.fmt ≠ 0) :
    printfLoop fpu frame text args (fuel + 1) p =
      printfLoop fpu frame text args fuel (printfRound fpu frame text args (p.readAt p.fmt)) :=
  if_pos h

theorem printfLoop_of_nul {fuel : Nat} (h : text p.fmt = 0) :
    printfLoop fpu frame text args (fuel + 1) p = some (p.readAt p.fmt) :=
  if_neg (not_not.mpr h)

theorem putDirective_fmt (c leadingChar : Byte) (leadingLen : Nat) :
    (putDirective fpu frame args c leadingChar leadingLen p).fmt = p.fmt := by
  unfold putDirective
  split_ifs <;> rfl

theorem putDirective_reads (c leadingChar : Byte) (leadingLen : Nat) :
    (putDirective fpu frame args c leadingChar leadingLen p).reads = p.reads := by
  unfold putDirective
  split_ifs <;> rfl

/-- A round at a `%` goes over the width and one byte more, whatever that is. -/
theorem printfRound_directive {w : Width} {rest : List Byte} (hpercent : text p.fmt = 0x25)
    (h : StrAt text (p.fmt + 1) (w.bytes ++ rest))
    (hend : isDigit (text (p.fmt + 1 + w.bytes.length)) = false)
    (hlen : (w.bytes ++ rest).length < stringFuel) :
    (printfRound fpu frame text args p).fmt = p.fmt + 1 + w.bytes.length + 1 ∧
      ReadsIn p.fmt (p.fmt + 1 + w.bytes.length + 1) p (printfRound fpu frame text args p) := by
  have hread := readWidth_spec frame h hend hlen
  unfold printfRound printfDirective
  rw [hpercent, if_neg (not_not.mpr rfl)]
  refine ⟨congrArg (· + 1) ((putDirective_fmt ..).trans hread.fmt), ?_⟩
  obtain ⟨new, hnew, hin⟩ := hread.reads
  rw [hread.fmt] at hin
  exact ⟨new, (putDirective_reads ..).trans hnew, hin⟩

/-- A round takes one item. -/
theorem printfRound_item {item : Item} {rest : List Byte} (hok : item.Ok)
    (h : StrAt text p.fmt (item.bytes ++ rest)) (hlen : (item.bytes ++ rest).length < stringFuel) :
    (printfRound fpu frame text args p).fmt = p.fmt + item.bytes.length ∧
      ReadsIn p.fmt (p.fmt + item.bytes.length) p (printfRound fpu frame text args p) := by
  cases item with
  | char c =>
      have hc : text p.fmt ≠ 0x25 := h.1.symm ▸ hok.2
      unfold printfRound
      rw [if_pos hc]
      exact ⟨rfl, .refl _ _ _⟩
  | directive w c =>
      obtain ⟨hpercent, hrest, hc⟩ := directive_at h
      have hshort : (w.bytes ++ c :: rest).length < stringFuel := by
        simpa [Item.bytes] using Nat.lt_of_succ_lt hlen
      have hround := printfRound_directive fpu frame args hpercent hrest (hc.symm ▸ hok.2) hshort
      have hbytes : p.fmt + (Item.directive w c).bytes.length = p.fmt + 1 + w.bytes.length + 1 := by
        simp only [Item.bytes, List.length_cons, List.length_append, List.length_nil]
        omega
      rw [hbytes]
      exact hround

theorem Item.length_bytes_pos (item : Item) : 0 < item.bytes.length := by
  cases item <;> exact Nat.succ_pos _

theorem item_ne {a : Nat} {item : Item} {rest : List Byte}
    (h : StrAt text a (item.bytes ++ rest)) : text a ≠ 0 :=
  h.head_ne (List.append_ne_nil_of_left_ne_nil (List.length_pos_iff.mp item.length_bytes_pos) _)

/-- The rounds over the items of a format: the loop arrives behind them and reads nothing
else. -/
theorem printfLoop_items {items : List Item} {rest : List Byte} :
    ∀ (fuel : Nat) (p : PrintfState), (∀ item ∈ items, item.Ok) →
      StrAt text p.fmt (formatBytes items ++ rest) →
      (formatBytes items ++ rest).length < stringFuel → (formatBytes items).length ≤ fuel →
      ∃ fuel' q, fuel ≤ fuel' + (formatBytes items).length ∧
        printfLoop fpu frame text args fuel p = printfLoop fpu frame text args fuel' q ∧
        q.fmt = p.fmt + (formatBytes items).length ∧ ReadsIn p.fmt q.fmt p q := by
  induction items with
  | nil =>
      intro fuel p _ _ _ _
      exact ⟨fuel, p, Nat.le_refl _, rfl, rfl, .refl _ _ _⟩
  | cons item items ih =>
      intro fuel p hok h hlen hfuel
      have hbytes : formatBytes (item :: items) = item.bytes ++ formatBytes items :=
        List.flatMap_cons
      rw [hbytes, List.append_assoc] at h hlen
      rw [hbytes, List.length_append] at hfuel
      have hpos := item.length_bytes_pos
      obtain ⟨fuel, rfl⟩ : ∃ k, fuel = k + 1 := ⟨fuel - 1, by omega⟩
      have htest : ReadsIn p.fmt (p.fmt + item.bytes.length) p (p.readAt p.fmt) :=
        .readAt p (Nat.le_refl _) (Nat.lt_add_of_pos_right hpos)
      obtain ⟨hfmt, hreads⟩ := printfRound_item fpu frame args
        (p := p.readAt p.fmt) (hok item List.mem_cons_self) h hlen
      obtain ⟨fuel', q, hle, hloop, hend, hmore⟩ := ih fuel
        (printfRound fpu frame text args (p.readAt p.fmt))
        (fun x hx => hok x (List.mem_cons_of_mem _ hx)) (hfmt.symm ▸ h.behind)
        (Nat.lt_of_le_of_lt (by simp) hlen) (by omega)
      refine ⟨fuel', q, ?_, ?_, ?_, ?_⟩
      · rw [hbytes, List.length_append]
        omega
      · exact (printfLoop_of_ne fpu frame args (item_ne h)).trans hloop
      · rw [hend, hfmt, hbytes, List.length_append, ← Nat.add_assoc]
        rfl
      · refine (htest.trans hreads (Nat.le_refl _) (Nat.le_refl _)).trans hmore ?_ ?_
        · exact Nat.le.intro hfmt.symm
        · rw [hend, hfmt]
          exact Nat.le_add_right _ _

/-! ## The end of the format -/

/-- No round takes back a read. -/
theorem reads_subset_printfRound : p.reads ⊆ (printfRound fpu frame text args p).reads := by
  have hdigits : ∀ q : PrintfState, q.reads ⊆ (readDigits frame text q).reads := by
    intro q
    exact forLoop_invariant (fun _ r => q.reads ⊆ r.reads) (f := widthRound frame text) _ 0 q
      (List.Subset.refl _) fun i r _ _ h => List.subset_cons_of_subset _ h
  have hwidth : p.reads ⊆ (readWidth frame text p).reads := by
    refine List.Subset.trans ?_ (hdigits _)
    exact List.subset_cons_of_subset _ (List.subset_cons_self _ _)
  unfold printfRound printfDirective
  split
  · exact List.Subset.refl _
  · rw [putDirective_reads]
    exact hwidth

/-- A loop that ends has read the byte that it started at. -/
theorem mem_reads_printfLoop {fuel : Nat} {q : PrintfState} :
    printfLoop fpu frame text args fuel p = some q → p.fmt ∈ q.reads ∧ p.reads ⊆ q.reads := by
  induction fuel generalizing p with
  | zero => nofun
  | succ fuel ih =>
      intro hq
      by_cases hnul : text p.fmt = 0
      · rw [printfLoop_of_nul fpu frame args hnul] at hq
        obtain rfl := Option.some.inj hq
        exact ⟨List.mem_cons_self, List.subset_cons_self _ _⟩
      · rw [printfLoop_of_ne fpu frame args hnul] at hq
        have hrest := List.Subset.trans (reads_subset_printfRound fpu frame args) (ih hq).2
        exact ⟨hrest List.mem_cons_self, List.Subset.trans (List.subset_cons_self _ _) hrest⟩

/-- At a directive that is cut off, the loop goes on behind the NUL. -/
theorem read_behind {w : Width} {fuel : Nat} {q : PrintfState}
    (h : StrAt text p.fmt (0x25 :: w.bytes)) (hlen : (0x25 :: w.bytes).length < stringFuel)
    (hq : printfLoop fpu frame text args fuel p = some q) :
    p.fmt + (0x25 :: w.bytes).length + 1 ∈ q.reads := by
  obtain ⟨hpercent, -, hwidth⟩ := h
  have hne : text p.fmt ≠ 0 := hpercent.symm ▸ by decide
  have hend : isDigit (text (p.fmt + 1 + w.bytes.length)) = false := hwidth.nul.symm ▸ isDigit_nul
  cases fuel with
  | zero => exact absurd hq nofun
  | succ fuel =>
      rw [printfLoop_of_ne fpu frame args hne] at hq
      rw [← List.append_nil w.bytes] at hwidth
      have hround := printfRound_directive fpu frame args (p := p.readAt p.fmt) hpercent hwidth
        hend (by
          rw [List.append_nil]
          exact Nat.lt_of_succ_lt hlen)
      have hread := (mem_reads_printfLoop fpu frame args hq).1
      rw [hround.1] at hread
      have haddr : p.fmt + (0x25 :: w.bytes).length + 1 = p.fmt + 1 + w.bytes.length + 1 := by
        rw [List.length_cons]
        omega
      rw [haddr]
      exact hread

end Rounds

/-- `printf` returns, and every byte of the format it has read lies in the string `cs` or
is its NUL. -/
def FormatReadInside (fmt : Nat) (cs : List Byte) (r : Option Printed) : Prop :=
  ∃ x, r = some x ∧ ∀ a ∈ x.final.reads, fmt ≤ a ∧ a ≤ fmt + cs.length

theorem printf_eq (fpu : Doubles) (frame : PrintfFrame) (text : Memory) {fmt : Nat}
    (hfmt : fmt ≠ 0) (args : Nat → Nat) (st : Store) (screen : Screen) :
    printf fpu frame text fmt args st screen =
      (printfLoop fpu frame text args stringFuel (printfStart frame fmt st)).map fun p =>
        ⟨(ttyPuts (p.st.put p.s 0).bytes frame.str screen).2, { p with st := p.st.put p.s 0 },
          (ttyPuts (p.st.put p.s 0).bytes frame.str screen).1⟩ := by
  unfold printf
  rw [if_neg hfmt]
  dsimp only
  generalize printfLoop fpu frame text args stringFuel (printfStart frame fmt st) = r
  cases r <;> rfl

section Formats

variable (fpu : Doubles) (frame : PrintfFrame) {text : Memory} (args : Nat → Nat) (st : Store)
  (screen : Screen) {fmt : Nat}

theorem formatReadInside {items : List Item} (hok : ∀ item ∈ items, item.Ok) (hfmt : fmt ≠ 0)
    (hstr : StrAt text fmt (formatBytes items)) (hlen : (formatBytes items).length < stringFuel) :
    FormatReadInside fmt (formatBytes items) (printf fpu frame text fmt args st screen) := by
  have hwhole : formatBytes items ++ [] = formatBytes items := List.append_nil _
  obtain ⟨fuel, q, hfuel, hloop, hend, new, hnew, hin⟩ := printfLoop_items fpu frame args
    stringFuel (printfStart frame fmt st) hok (hwhole.symm ▸ hstr) (hwhole.symm ▸ hlen)
    (Nat.le_of_lt hlen)
  have hnul : text q.fmt = 0 := hend.symm ▸ hstr.nul
  obtain ⟨k, rfl⟩ : ∃ k, fuel = k + 1 := ⟨fuel - 1, by omega⟩
  rw [printf_eq _ _ _ hfmt, hloop, printfLoop_of_nul fpu frame args hnul]
  refine ⟨_, rfl, fun a ha => ?_⟩
  rw [hend] at hin
  rcases List.mem_cons.mp ha with rfl | ha
  · rw [hend]
    exact ⟨Nat.le_add_right _ _, Nat.le_refl _⟩
  · rw [hnew] at ha
    rcases List.mem_append.mp ha with ha | ha
    · exact ⟨(hin a ha).1, Nat.le_of_lt (hin a ha).2⟩
    · exact absurd ha List.not_mem_nil

theorem not_formatReadInside {items : List Item} {w : Width} (hok : ∀ item ∈ items, item.Ok)
    (hfmt : fmt ≠ 0) (hstr : StrAt text fmt (formatBytes items ++ 0x25 :: w.bytes))
    (hlen : (formatBytes items ++ 0x25 :: w.bytes).length < stringFuel) :
    ¬ FormatReadInside fmt (formatBytes items ++ 0x25 :: w.bytes)
      (printf fpu frame text fmt args st screen) := by
  rw [printf_eq _ _ _ hfmt]
  rintro ⟨x, hx, hreads⟩
  obtain ⟨r, hr, rfl⟩ := Option.map_eq_some_iff.mp hx
  have hitems : (formatBytes items).length ≤ stringFuel :=
    Nat.le_trans (by rw [List.length_append]; exact Nat.le_add_right _ _) (Nat.le_of_lt hlen)
  obtain ⟨fuel, q, -, hloop, hend, -⟩ := printfLoop_items fpu frame args stringFuel
    (printfStart frame fmt st) hok hstr hlen hitems
  rw [hloop] at hr
  rw [List.length_append] at hlen hreads
  have hbehind := read_behind fpu frame args (hend.symm ▸ hstr.behind) (by omega) hr
  have hread := hreads _ hbehind
  rw [hend] at hread
  exact absurd hread.2 (by
    change ¬ fmt + _ + _ + 1 ≤ _
    omega)

end Formats

/-- For every format, whatever the arguments: `printf` returns and reads no byte behind
the NUL exactly when the format does not end inside a directive. -/
theorem printf_formatReadInside_iff (fpu : Doubles) (frame : PrintfFrame) (args : Nat → Nat)
    (st : Store) (screen : Screen) {text : Memory} {fmt : Nat} {cs : List Byte} (hfmt : fmt ≠ 0)
    (hstr : StrAt text fmt cs) (hlen : cs.length < stringFuel) :
    FormatReadInside fmt cs (printf fpu frame text fmt args st screen) ↔ ¬ EndsInside cs := by
  obtain ⟨items, hok, hcs⟩ := format_cases cs hstr.ne_zero
  by_cases hin : EndsInside cs
  · rw [if_pos hin] at hcs
    obtain ⟨w, rfl⟩ := hcs
    refine iff_of_false ?_ (not_not.mpr hin)
    exact not_formatReadInside fpu frame args st screen hok hfmt hstr hlen
  · rw [if_neg hin] at hcs
    subst hcs
    exact iff_of_true (formatReadInside fpu frame args st screen hok hfmt hstr hlen) hin

/-- The string `cs` at address 1. -/
def textOf (cs : List Byte) : Memory := fun a => if a = 0 then 0 else cs.getD (a - 1) 0

theorem strAt_textOf {cs : List Byte} (hne : ∀ c ∈ cs, c ≠ 0) : StrAt (textOf cs) 1 cs := by
  have hbyte : ∀ i, textOf cs (1 + i) = cs.getD i 0 := by
    intro i
    unfold textOf
    rw [if_neg (by omega), Nat.add_sub_cancel_left]
  refine strAt_of_get hne (fun i hi => ?_) ?_
  · rw [hbyte, List.getD_eq_getElem?_getD, List.getElem?_eq_getElem hi, Option.getD_some]
  · rw [hbyte, List.getD_eq_getElem?_getD, List.getElem?_eq_none (Nat.le_refl _), Option.getD_none]

/-- A processor without `double`s, and buffers that do not touch. -/
def noDoubles : Doubles :=
  ⟨Unit, fun _ _ => (), fun _ => 0, fun _ => (), fun _ _ => (), fun _ => ()⟩

def sampleFrame : PrintfFrame := ⟨0x1000, 0x2000⟩

/-- `"%02x"`. -/
theorem printf_formatReadInside_iff_hex :
    FormatReadInside 1 [0x25, 0x30, 0x32, 0x78] (printf noDoubles sampleFrame
      (textOf [0x25, 0x30, 0x32, 0x78]) 1 (fun _ => 10) ⟨fun _ => 0, []⟩
        ⟨fun _ => 0, 0, 0, 0, 0⟩) ↔ ¬ EndsInside [0x25, 0x30, 0x32, 0x78] :=
  printf_formatReadInside_iff noDoubles sampleFrame _ _ _ (by decide)
    (strAt_textOf (by decide)) (by decide)

/-- `"%"`: the loop goes on behind the NUL. -/
theorem printf_reads_behind_percent :
    ¬ FormatReadInside 1 [0x25] (printf noDoubles sampleFrame (textOf [0x25]) 1 (fun _ => 0)
      ⟨fun _ => 0, []⟩ ⟨fun _ => 0, 0, 0, 0, 0⟩) := by
  have hok : ∀ item ∈ ([] : List Item), item.Ok := fun _ h => absurd h List.not_mem_nil
  have hstr : StrAt (textOf [0x25]) 1 (formatBytes [] ++ 0x25 :: Width.none.bytes) :=
    strAt_textOf (by decide)
  have hlen : (formatBytes [] ++ 0x25 :: Width.none.bytes).length < stringFuel := by decide
  have hreads := not_formatReadInside noDoubles sampleFrame (fun _ => 0) ⟨fun _ => 0, []⟩
    ⟨fun _ => 0, 0, 0, 0, 0⟩ hok (by decide) hstr hlen
  exact hreads

end DonutOS.Libc
