import DonutOS.Foundation.Digits
import DonutOS.Libc.StrSpec

set_option autoImplicit false

/-!
# Libc: numbers as text (`libc/src/itoa.c`)

`itoa` writes the digits of a number, the last one first, until nothing is left of the
number or only the place of the NUL is left of the buffer, and turns them round.
-/

namespace DonutOS.Libc

open DonutOS.Foundation

/-! ## `itoa` -/

/-- `(digit < 10) ? ('0' + digit) : ('a' + digit - 10)` -/
def digitChar (digit : Nat) : Byte :=
  if digit < 10 then BitVec.ofNat 8 (0x30 + digit) else BitVec.ofNat 8 (0x61 + digit - 10)

/-- The variables of the loop. -/
structure ItoaLoop where
  num : Nat
  i : Nat
  st : Store

/-- The body of the loop. -/
def itoaRound (base str : Nat) (x : ItoaLoop) : ItoaLoop :=
  let digit := x.num % base
  ⟨x.num / base, x.i + 1, x.st.put (str + x.i) (digitChar digit)⟩

/-- The loop; `last` is `len - 1`. -/
def itoaLoop (base last str : Nat) : Nat → ItoaLoop → ItoaLoop
  | 0, x => x
  | fuel + 1, x =>
      let x := itoaRound base str x
      if x.num ≠ 0 ∧ x.i < last then itoaLoop base last str fuel x else x

/-- The rounds of the loop: a word has at most 32 digits. -/
def itoaFuel : Nat := 32

/-- `itoa`.  `num` is unsigned, and so is `len - 1` where it is compared with `i`. -/
def itoa (value : Word) (str : Nat) (len base : Word) (st : Store) : Int × Store :=
  if len = 0 ∨ base.toInt < 2 ∨ 36 < base.toInt then (-1, st)
  else
    let last := (len - 1).toNat
    let x := itoaLoop base.toNat last str itoaFuel ⟨value.toNat, 0, st⟩
    if x.i = last ∧ x.num ≠ 0 then (-1, x.st)
    else (0, strrev str (x.st.put (str + x.i) 0))

/-! ## `strrev` -/

/-- The string `cs` with its first and its last `i` bytes exchanged. -/
structure Exchanged (str : Nat) (cs : List Byte) (i : Nat) (st st' : Store) : Prop where
  byte : ∀ j (hj : j < cs.length), st'.bytes (str + j) =
    if j < i ∨ cs.length - 1 - j < i then cs[cs.length - 1 - j] else cs[j]
  writes : st.Writes (fun a => str ≤ a ∧ a < str + cs.length) st'

theorem Exchanged.round {str i : Nat} {cs : List Byte} {st st' : Store}
    (hi : i < cs.length / 2) (h : Exchanged str cs i st st') :
    Exchanged str cs (i + 1) st
      ((st'.put (str + i) (st'.bytes (str + (cs.length - i - 1)))).put
        (str + (cs.length - i - 1)) (st'.bytes (str + i))) where
  byte := by
    intro j hj
    have hfirst : st'.bytes (str + i) = cs[i] := by
      rw [h.byte i (by omega), if_neg (by omega)]
    have hlast : st'.bytes (str + (cs.length - i - 1)) = cs[cs.length - i - 1] := by
      rw [h.byte _ (by omega), if_neg (by omega)]
    by_cases hright : j = cs.length - i - 1
    · subst hright
      rw [Store.bytes_put_same, if_pos (by omega), hfirst]
      congr 1
      omega
    · rw [Store.bytes_put_of_ne _ _ (by omega)]
      by_cases hleft : j = i
      · subst hleft
        rw [Store.bytes_put_same, if_pos (by omega), hlast]
        congr 1
        omega
      · rw [Store.bytes_put_of_ne _ _ (by omega), h.byte j hj]
        exact if_congr (by omega) rfl rfl
  writes := by
    refine h.writes.trans (.trans (.put _ _ ⟨by omega, by omega⟩) (.put _ _ ⟨by omega, by omega⟩))

/-- `strrev` turns a string round. -/
theorem strrev_spec {str : Nat} {cs : List Byte} {st : Store} (h : StrAt st.bytes str cs)
    (hlen : cs.length < stringFuel) :
    StrAt (strrev str st).bytes str cs.reverse ∧
      st.Writes (fun a => str ≤ a ∧ a < str + cs.length) (strrev str st) := by
  have hloop := forLoop_invariant (fun i st' => Exchanged str cs i st st')
    (f := fun i st => (st.put (str + i) (st.bytes (str + (cs.length - i - 1)))).put
      (str + (cs.length - i - 1)) (st.bytes (str + i))) (cs.length / 2) 0 st
    ⟨fun j hj => (h.get hj).trans (if_neg (by omega)).symm, .refl _ st⟩
    fun i st' _ hi h => h.round (by omega)
  rw [Nat.zero_add] at hloop
  have hturned : Exchanged str cs (cs.length / 2) st (strrev str st) := by
    unfold strrev
    rw [strlen_eq h hlen]
    exact hloop
  refine ⟨strAt_of_get (fun c hc => h.ne_zero c (List.mem_reverse.mp hc)) (fun j hj => ?_) ?_,
    hturned.writes⟩
  · rw [List.length_reverse] at hj
    rw [List.getElem_reverse, hturned.byte j hj]
    split
    · rfl
    · -- the byte in the middle
      congr 1
      omega
  · rw [List.length_reverse, hturned.writes.frame _ (by omega)]
    exact h.nul

/-! ## The loop -/

theorem digitChar_ne_zero {d : Nat} (hd : d < 36) : digitChar d ≠ 0 := by
  have hall : ∀ d : Fin 36, digitChar d.val ≠ 0 := by decide
  exact hall ⟨d, hd⟩

/-- The text of a number, the most significant digit first. -/
def numberText (base n : Nat) : List Byte := ((digitsOf base n).map digitChar).reverse

theorem length_numberText (base n : Nat) :
    (numberText base n).length = (digitsOf base n).length := by
  unfold numberText
  rw [List.length_reverse, List.length_map]

/-- The loop wrote the digits of `num`, as many as there was room for. -/
structure DigitsWritten (base last str num i : Nat) (st : Store) (x : ItoaLoop) : Prop where
  index : x.i = i + min (digitsOf base num).length (last - i)
  rest : x.num ≠ 0 ↔ last - i < (digitsOf base num).length
  digits : ∀ j (hj : j < (digitsOf base num).length), j < last - i →
    x.st.bytes (str + (i + j)) = digitChar (digitsOf base num)[j]
  writes : st.Writes (fun a => str + i ≤ a ∧ a < str + x.i) x.st

/-- The last round of the loop: no digit is left, or no place. -/
theorem digitsWritten_last {base last str num i : Nat} (hbase : 1 < base) (hi : i < last)
    (st : Store) (hend : num / base = 0 ∨ last = i + 1) :
    DigitsWritten base last str num i st (itoaRound base str ⟨num, i, st⟩) := by
  have hstep := digitsOf_eq hbase num
  have hlen : (digitsOf base num).length =
      1 + (if num / base = 0 then [] else digitsOf base (num / base)).length := by
    rw [Nat.add_comm]
    exact congrArg List.length hstep
  have hrest : num / base ≠ 0 ↔ 1 < (digitsOf base num).length := by
    by_cases hnone : num / base = 0
    · rw [if_pos hnone, List.length_nil] at hlen
      exact iff_of_false (not_not.mpr hnone) (by omega)
    · have hpos := length_digitsOf_pos hbase (num / base)
      rw [if_neg hnone] at hlen
      exact iff_of_true hnone (by omega)
  refine ⟨?_, ?_, ?_, .put _ _ ⟨Nat.le_refl _, Nat.lt_succ_self _⟩⟩
  · change i + 1 = _
    omega
  · change num / base ≠ 0 ↔ _
    omega
  · intro j hj hroom
    obtain rfl : j = 0 := by omega
    simp only [hstep, List.getElem_cons_zero]
    exact Store.bytes_put_same _ _ _

theorem itoaLoop_spec {base last str : Nat} (hbase : 1 < base) :
    ∀ {fuel num i : Nat} {st : Store}, i < last → (digitsOf base num).length ≤ fuel →
      DigitsWritten base last str num i st (itoaLoop base last str fuel ⟨num, i, st⟩) := by
  intro fuel
  induction fuel with
  | zero =>
      intro num i st _ hfuel
      exact absurd (length_digitsOf_pos hbase num) (by omega)
  | succ fuel ih =>
      intro num i st hi hfuel
      rw [itoaLoop]
      change DigitsWritten base last str num i st
        (if num / base ≠ 0 ∧ i + 1 < last then _ else _)
      by_cases hmore : num / base ≠ 0 ∧ i + 1 < last
      · obtain ⟨hrest, hroom⟩ := hmore
        rw [if_pos ⟨hrest, hroom⟩]
        have hstep := digitsOf_eq hbase num
        rw [if_neg hrest] at hstep
        have hlen : (digitsOf base num).length = (digitsOf base (num / base)).length + 1 :=
          congrArg List.length hstep
        have hloop : DigitsWritten base last str (num / base) (i + 1)
            (st.put (str + i) (digitChar (num % base)))
            (itoaLoop base last str fuel (itoaRound base str ⟨num, i, st⟩)) :=
          ih hroom (by omega)
        have hindex := hloop.index
        refine ⟨?_, ?_, ?_, ?_⟩
        · exact hindex.trans (by omega)
        · exact hloop.rest.trans (by omega)
        · intro j hj hlast
          simp only [hstep]
          cases j with
          | zero =>
              refine (hloop.writes.frame _ (by omega)).trans ?_
              exact Store.bytes_put_same _ _ _
          | succ j =>
              have haddr : i + (j + 1) = i + 1 + j := by omega
              rw [haddr, List.getElem_cons_succ]
              exact hloop.digits j (by omega) (by omega)
        · refine .trans (.put _ _ ⟨Nat.le_refl _, ?_⟩) (hloop.writes.widen ?_ (Nat.le_refl _))
          · exact Nat.lt_of_lt_of_eq (by omega) (congrArg (str + ·) hindex.symm)
          · exact Nat.add_le_add_left (Nat.le_succ i) str
      · rw [if_neg hmore]
        exact digitsWritten_last hbase hi st (by
          rw [not_and_or, not_not] at hmore
          omega)

/-- With a NUL behind them, the digits are a string when there was room for all. -/
theorem DigitsWritten.strAt {base last str num : Nat} {st : Store} {x : ItoaLoop}
    (h : DigitsWritten base last str num 0 st x) (hbase : 1 < base ∧ base ≤ 36)
    (hfits : (digitsOf base num).length ≤ last) :
    x.i = (digitsOf base num).length ∧
      StrAt (x.st.put (str + x.i) 0).bytes str ((digitsOf base num).map digitChar) := by
  have hindex : x.i = (digitsOf base num).length := by
    rw [h.index, Nat.zero_add, Nat.sub_zero, Nat.min_eq_left hfits]
  refine ⟨hindex, strAt_of_get ?_ (fun j hj => ?_) ?_⟩
  · intro c hc
    obtain ⟨d, hd, rfl⟩ := List.mem_map.mp hc
    exact digitChar_ne_zero (Nat.lt_of_lt_of_le (digitsOf_lt hbase.1 hd) hbase.2)
  · rw [List.length_map] at hj
    have hdigit := h.digits j hj (by omega)
    rw [Nat.zero_add] at hdigit
    rw [Store.bytes_put_of_ne _ _ (by omega), hdigit, List.getElem_map]
  · rw [List.length_map, hindex, Store.bytes_put_same]

/-! ## What `itoa` does -/

theorem toNat_of_toInt {w : Word} (h : 0 ≤ w.toInt) : (w.toNat : Int) = w.toInt := by
  rw [BitVec.toInt_eq_toNat_cond] at h ⊢
  split at h
  · next hsmall => rw [if_pos hsmall]
  · have hlt := w.isLt
    omega

theorem toNat_sub_one {w : Word} (h : 0 < w.toNat) : (w - 1).toNat = w.toNat - 1 := by
  have hlt := w.isLt
  have hone : (1 : Word).toNat = 1 := rfl
  rw [BitVec.toNat_sub, hone]
  omega

/-- The digits of a 32-bit number fit the rounds of the loop. -/
theorem length_digitsOf_word {base : Nat} (hbase : 2 ≤ base) (value : Word) :
    (digitsOf base value.toNat).length ≤ itoaFuel := by
  rw [length_digitsOf_le_iff (by omega) (by decide)]
  calc value.toNat < 2 ^ 32 := value.isLt
    _ ≤ base ^ 32 := Nat.pow_le_pow_left hbase 32

theorem itoa_eq {len base : Word} (hbase : 2 ≤ base.toInt ∧ base.toInt ≤ 36)
    (hlen : 1 ≤ len.toInt) (value : Word) (str : Nat) (st : Store) :
    itoa value str len base st =
      let x := itoaLoop base.toNat (len.toNat - 1) str itoaFuel ⟨value.toNat, 0, st⟩
      if x.i = len.toNat - 1 ∧ x.num ≠ 0 then (-1, x.st)
      else (0, strrev str (x.st.put (str + x.i) 0)) := by
  have hnat := toNat_of_toInt (w := len) (by omega)
  have hne : len ≠ 0 := by
    rintro rfl
    exact absurd hlen (by decide)
  have hrange : ¬ (len = 0 ∨ base.toInt < 2 ∨ 36 < base.toInt) := by
    rintro (h | h | h)
    · exact hne h
    · omega
    · omega
  unfold itoa
  rw [if_neg hrange, toNat_sub_one (by omega)]

/-- In a buffer of two bytes or more. -/
theorem itoa_spec {len base : Word} (hbase : 2 ≤ base.toInt ∧ base.toInt ≤ 36)
    (hlen : 2 ≤ len.toInt) (value : Word) (str : Nat) (st : Store) :
    st.Writes (fun a => str ≤ a ∧ a < str + len.toNat) (itoa value str len base st).2 ∧
      if (numberText base.toNat value.toNat).length ≤ len.toNat - 1 then
        (itoa value str len base st).1 = 0 ∧
          StrAt (itoa value str len base st).2.bytes str (numberText base.toNat value.toNat)
      else (itoa value str len base st).1 = -1 := by
  have hbaseNat := toNat_of_toInt (w := base) (by omega)
  have hlenNat := toNat_of_toInt (w := len) (by omega)
  have hfuel : (digitsOf base.toNat value.toNat).length ≤ itoaFuel :=
    length_digitsOf_word (by omega) value
  have hloop : DigitsWritten base.toNat (len.toNat - 1) str value.toNat 0 st
      (itoaLoop base.toNat (len.toNat - 1) str itoaFuel ⟨value.toNat, 0, st⟩) :=
    itoaLoop_spec (by omega) (by omega) hfuel
  have hpos : 1 ≤ len.toInt := by omega
  have heq := itoa_eq hbase hpos value str st
  generalize itoaLoop base.toNat (len.toNat - 1) str itoaFuel ⟨value.toNat, 0, st⟩ = x at hloop heq
  have hwrites := hloop.writes
  rw [Nat.add_zero] at hwrites
  rw [length_numberText]
  by_cases hfits : (digitsOf base.toNat value.toNat).length ≤ len.toNat - 1
  · have hdone : ¬ (x.i = len.toNat - 1 ∧ x.num ≠ 0) := fun h =>
      absurd (hloop.rest.mp h.2) (by omega)
    obtain ⟨hindex, hstr⟩ := hloop.strAt ⟨by omega, by omega⟩ hfits
    rw [heq, if_pos hfits]
    dsimp only
    rw [if_neg hdone]
    have hlong : ((digitsOf base.toNat value.toNat).map digitChar).length < stringFuel := by
      rw [List.length_map]
      exact Nat.lt_of_le_of_lt hfuel (by decide)
    obtain ⟨hturned, hrev⟩ := strrev_spec hstr hlong
    rw [List.length_map] at hrev
    refine ⟨?_, rfl, hturned⟩
    have hall := hwrites.widen (Nat.le_refl str) (by omega : str + x.i ≤ str + len.toNat)
    have hback := hrev.widen (Nat.le_refl str)
      (by omega : str + (digitsOf base.toNat value.toNat).length ≤ str + len.toNat)
    exact hall.trans (.trans (.put _ _ ⟨by omega, by omega⟩) hback)
  · have hindex := hloop.index
    rw [Nat.zero_add, Nat.sub_zero, Nat.min_eq_right (by omega)] at hindex
    have hfull : x.i = len.toNat - 1 ∧ x.num ≠ 0 := ⟨hindex, hloop.rest.mpr (by omega)⟩
    rw [heq, if_neg hfits]
    dsimp only
    rw [if_pos hfull]
    exact ⟨hwrites.widen (Nat.le_refl str) (by omega), rfl⟩

/-- What `itoa` is to do: stay inside its buffer, answer 0 exactly when the shortest text
of the number and its NUL fit, with the text in the buffer then, and -1 otherwise. -/
structure ItoaRight (value : Word) (str : Nat) (len base : Word) (st : Store)
    (r : Int × Store) : Prop where
  writes : st.Writes (fun a => str ≤ a ∧ a < str + len.toNat) r.2
  fits_iff : r.1 = 0 ↔ (numberText base.toNat value.toNat).length ≤ len.toNat - 1
  text : r.1 = 0 → StrAt r.2.bytes str (numberText base.toNat value.toNat)
  error : r.1 ≠ 0 → r.1 = -1

/-- A buffer of one byte has no room for a digit, but `i` is past `len - 1` when that is
looked at. -/
theorem itoa_one {base : Word} (hbase : 2 ≤ base.toInt ∧ base.toInt ≤ 36) (value : Word)
    (str : Nat) (st : Store) : (itoa value str 1 base st).1 = 0 := by
  have hround : ∀ x : ItoaLoop, itoaLoop base.toNat 0 str itoaFuel x =
      itoaRound base.toNat str x := by
    intro x
    unfold itoaFuel
    rw [itoaLoop, if_neg (fun h => Nat.not_lt_zero _ h.2)]
  have hlast : (1 : Word).toNat - 1 = 0 := rfl
  rw [itoa_eq hbase (by decide), hlast, hround]
  simp only
  rw [if_neg (fun h => Nat.succ_ne_zero _ h.1)]

/-- For every number, base and buffer: `itoa` does what it is to do exactly when the
buffer has two bytes or more. -/
theorem itoa_right_iff {len base : Word} (hbase : 2 ≤ base.toInt ∧ base.toInt ≤ 36)
    (hlen : 1 ≤ len.toInt) (value : Word) (str : Nat) (st : Store) :
    ItoaRight value str len base st (itoa value str len base st) ↔ 2 ≤ len.toInt := by
  constructor
  · intro hright
    by_contra hshort
    obtain rfl : len = 1 := BitVec.eq_of_toInt_eq (by
      have hone : (1 : Word).toInt = 1 := by decide
      omega)
    have hnone := hright.fits_iff.mp (itoa_one hbase value str st)
    have hnat := toNat_of_toInt (w := base) (by omega)
    have hpos := length_digitsOf_pos (b := base.toNat) (by omega) value.toNat
    rw [length_numberText] at hnone
    exact absurd hpos (Nat.not_lt_of_le hnone)
  · intro hlen
    obtain ⟨hwrites, hresult⟩ := itoa_spec hbase hlen value str st
    split at hresult
    · next hfits =>
      exact ⟨hwrites, iff_of_true hresult.1 hfits, fun _ => hresult.2,
        fun h => absurd hresult.1 h⟩
    · next hlong =>
      have hne : (itoa value str len base st).1 ≠ 0 := hresult ▸ by decide
      exact ⟨hwrites, iff_of_false hne hlong, fun h => absurd h hne, fun _ => hresult⟩

/-- 255 in base 16. -/
theorem itoa_right_iff_ff :
    ItoaRight 255 0 3 16 ⟨fun _ => 0, []⟩ (itoa 255 0 3 16 ⟨fun _ => 0, []⟩) ↔
      (2 : Int) ≤ (3 : Word).toInt :=
  itoa_right_iff (by decide) (by decide) 255 0 ⟨fun _ => 0, []⟩

/-- A digit in a buffer of one byte: the NUL is behind the buffer. -/
theorem itoa_one_byte :
    ¬ ItoaRight 5 0 1 10 ⟨fun _ => 0, []⟩ (itoa 5 0 1 10 ⟨fun _ => 0, []⟩) := by
  intro h
  exact absurd (h.fits_iff.mp (by decide)) (by decide)

end DonutOS.Libc
