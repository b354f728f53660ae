import DonutOS.Foundation.CheckedInt
import DonutOS.Libc.AtoiSpec
import DonutOS.Libc.Itoa

set_option autoImplicit false

/-!
# Libc: numbers back from text (`libc/src/atoi.c`)

What `atoi` makes of every string: blanks, a sign, and the digits behind them.  Its sum is
an `int`, whose overflow is undefined; both readings are kept, the sum that wraps and the
one that has no value then.
-/

namespace DonutOS.Libc

open DonutOS.Foundation

/-- What `atoi` skips. -/
def isBlank (c : Byte) : Bool := c == 0x20 || c == 0x0a || c == 0x0d

/-- `num *= 10; num += *str - '0'` for `n` digits, in the `int` of C. -/
def digitsSum (m : Memory) (str n : Nat) : CInt :=
  forLoop (fun i num => num * 10 + .of ((m (str + i)).toInt - 0x30)) 0 n 0

/-- `atoi`, in the `int` of C. -/
def atoiInt (m : Memory) (str : Nat) : CInt :=
  let str := str + span m isBlank str
  let negative := m str == 0x2d
  let str := if m str = 0x2d ∨ m str = 0x2b then str + 1 else str
  let num := digitsSum m str (span m isDigit str)
  if negative then num * .of (-1) else num

/-! ## The number of a text -/

/-- The number that digits write. -/
def decimalOf (ds : List Byte) : Nat := ds.foldl (fun n c => n * 10 + (c.toNat - 0x30)) 0

/-- Whether the sign behind the blanks is a minus, and the text behind the sign. -/
def signSplit (cs : List Byte) : Bool × List Byte :=
  match cs.dropWhile isBlank with
  | [] => (false, [])
  | c :: ds =>
      if c = 0x2d then (true, ds) else if c = 0x2b then (false, ds) else (false, c :: ds)

/-- The number of the digits at the start. -/
def leadingDecimal (cs : List Byte) : Nat := decimalOf (cs.takeWhile isDigit)

/-- The number that a text starts with. -/
def textInt (cs : List Byte) : Int :=
  bif (signSplit cs).1 then -leadingDecimal (signSplit cs).2 else leadingDecimal (signSplit cs).2

theorem decimalOf_concat (ds : List Byte) (c : Byte) :
    decimalOf (ds ++ [c]) = decimalOf ds * 10 + (c.toNat - 0x30) := List.foldl_append

theorem digit_value (c : Byte) (h : isDigit c = true) :
    c.toInt - 0x30 = ((c.toNat - 0x30 : Nat) : Int) := by
  have hall : ∀ c : Byte, isDigit c = true → c.toInt - 0x30 = ((c.toNat - 0x30 : Nat) : Int) := by
    decide +kernel
  exact hall c h

/-! ## The loop over the digits -/

/-- A round in the `int` of C: the sum stays undefined once it has overflowed. -/
theorem checked_digit (v d : Nat) :
    CInt.checked v * 10 + .of d = CInt.checked ((v * 10 + d : Nat) : Int) := by
  have hnone : ∀ n : Nat, ¬ InInt n → CInt.checked n = ⟨none⟩ :=
    fun n h => congrArg CInt.mk (if_neg h)
  by_cases hv : InInt v
  · rw [CInt.checked_eq hv]
    change CInt.checked ((v : Int) * 10) + .of d = _
    by_cases htimes : InInt ((v : Int) * 10)
    · rw [CInt.checked_eq htimes]
      change CInt.checked ((v : Int) * 10 + d) = _
      push_cast
      rfl
    · have hsum : ¬ InInt ((v * 10 + d : Nat) : Int) := by
        unfold InInt at htimes ⊢
        omega
      rw [hnone _ hsum, show CInt.checked ((v : Int) * 10) = ⟨none⟩ from
        congrArg CInt.mk (if_neg htimes)]
      rfl
  · have hsum : ¬ InInt ((v * 10 + d : Nat) : Int) := by
      unfold InInt at hv ⊢
      omega
    rw [hnone _ hsum, hnone _ hv]
    rfl

/-- The digits at the start of a string, one after another. -/
theorem leading_digit {m : Memory} {str : Nat} {cs : List Byte} (h : StrAt m str cs) {i : Nat}
    (hi : i < (cs.takeWhile isDigit).length) :
    (m (str + i)).toInt - 0x30 = (((cs.takeWhile isDigit)[i].toNat - 0x30 : Nat) : Int) := by
  have hprefix : cs.takeWhile isDigit <+: cs := List.takeWhile_prefix _
  have hget : m (str + i) = (cs.takeWhile isDigit)[i] := by
    rw [h.get (Nat.lt_of_lt_of_le hi hprefix.length_le), hprefix.getElem hi]
  rw [hget, digit_value _ (List.all_eq_true.mp List.all_takeWhile _ (List.getElem_mem hi))]

theorem digitsSum_leading {m : Memory} {str : Nat} {cs : List Byte} (h : StrAt m str cs) :
    digitsSum m str (cs.takeWhile isDigit).length = CInt.checked (leadingDecimal cs) := by
  have hzero : InInt 0 := by decide
  have hstart : (0 : CInt) = CInt.checked (decimalOf ((cs.takeWhile isDigit).take 0)) :=
    (CInt.checked_eq hzero).symm
  have hloop := forLoop_invariant
    (fun i num => num = CInt.checked (decimalOf ((cs.takeWhile isDigit).take i)))
    (f := fun i (num : CInt) => num * 10 + .of ((m (str + i)).toInt - 0x30))
    (cs.takeWhile isDigit).length 0 0 hstart fun i num _ hi hnum => by
      rw [Nat.zero_add] at hi
      rw [List.take_succ_eq_append_getElem hi, decimalOf_concat, leading_digit h hi, hnum,
        checked_digit]
  rw [Nat.zero_add, List.take_length] at hloop
  exact hloop

/-! ## Every string -/

/-- Where the sign may be. -/
def signStart (m : Memory) (str : Nat) : Nat := str + span m isBlank str

/-- Where the digits may be. -/
def digitsStart (m : Memory) (str : Nat) : Nat :=
  if m (signStart m str) = 0x2d ∨ m (signStart m str) = 0x2b then signStart m str + 1
  else signStart m str

theorem signSplit_start {m : Memory} {str : Nat} {cs : List Byte} (h : StrAt m str cs)
    (hlen : cs.length < stringFuel) :
    (m (signStart m str) == 0x2d) = (signSplit cs).1 ∧
      StrAt m (digitsStart m str) (signSplit cs).2 ∧ (signSplit cs).2.length ≤ cs.length := by
  have hbehind : StrAt m (signStart m str) (cs.dropWhile isBlank) := by
    rw [signStart, span_eq (by decide) h hlen]
    exact StrAt.behind ((List.takeWhile_append_dropWhile (p := isBlank) (l := cs)).symm ▸ h)
  have hle : (cs.dropWhile isBlank).length ≤ cs.length := (List.dropWhile_suffix _).length_le
  unfold digitsStart
  generalize signStart m str = start at hbehind ⊢
  unfold signSplit
  cases hrest : cs.dropWhile isBlank with
  | nil =>
      rw [hrest] at hbehind
      have hnul : m start = 0 := hbehind
      rw [hnul]
      exact ⟨rfl, hnul, Nat.zero_le _⟩
  | cons c ds =>
      rw [hrest] at hbehind hle
      rw [hbehind.1]
      rw [List.length_cons] at hle
      have hsigns : (0x2b : Byte) ≠ 0x2d := by decide
      by_cases hminus : c = 0x2d
      · rw [if_pos (Or.inl hminus)]
        simp only [hminus, if_true, beq_self_eq_true]
        exact ⟨trivial, hbehind.2.2, by omega⟩
      · by_cases hplus : c = 0x2b
        · rw [if_pos (Or.inr hplus)]
          simp only [hplus, hsigns, if_true, if_false]
          exact ⟨rfl, hbehind.2.2, by omega⟩
        · rw [if_neg (not_or.mpr ⟨hminus, hplus⟩)]
          simp only [hminus, hplus, if_false]
          exact ⟨beq_eq_false_iff_ne.mpr hminus, hbehind, hle⟩

/-- The `int` of C is the number as long as its digits do not write more than the largest
`int`. -/
theorem atoiInt_text {m : Memory} {str : Nat} {cs : List Byte} (h : StrAt m str cs)
    (hlen : cs.length < stringFuel) :
    atoiInt m str =
      if leadingDecimal (signSplit cs).2 < 2 ^ 31 then .of (textInt cs) else ⟨none⟩ := by
  obtain ⟨hsign, hdigits, hle⟩ := signSplit_start h hlen
  have hsum := digitsSum_leading hdigits
  rw [← span_eq isDigit_nul hdigits (Nat.lt_of_le_of_lt hle hlen)] at hsum
  have hatoi : atoiInt m str = if (m (signStart m str) == 0x2d) = true then
      digitsSum m (digitsStart m str) (span m isDigit (digitsStart m str)) * .of (-1)
      else digitsSum m (digitsStart m str) (span m isDigit (digitsStart m str)) := rfl
  rw [hatoi, hsign, hsum, textInt]
  generalize leadingDecimal (signSplit cs).2 = n
  have hrange : InInt n ↔ n < 2 ^ 31 := by
    unfold InInt
    omega
  by_cases hn : n < 2 ^ 31
  · rw [CInt.checked_eq (hrange.mpr hn), if_pos hn]
    cases (signSplit cs).1 with
    | false => rfl
    | true =>
        have hneg : InInt ((n : Int) * -1) := by
          unfold InInt
          omega
        rw [if_pos rfl, CInt.of_mul hneg, Int.mul_neg_one]
        rfl
  · have hnone : CInt.checked (n : Int) = ⟨none⟩ := congrArg CInt.mk (if_neg (mt hrange.mp hn))
    rw [if_neg hn, hnone]
    cases (signSplit cs).1 with
    | false => rfl
    | true => rfl

/-! ## `atoi` after `itoa` -/

/-- A text of digits has no blank and no sign. -/
theorem signSplit_digits {cs : List Byte} (h : ∀ c ∈ cs, isDigit c = true) :
    signSplit cs = (false, cs) ∧ leadingDecimal cs = decimalOf cs := by
  have hdigit : ∀ c : Byte, isDigit c = true → isBlank c = false ∧ c ≠ 0x2d ∧ c ≠ 0x2b := by
    decide +kernel
  constructor
  · cases cs with
    | nil => rfl
    | cons c cs =>
        obtain ⟨hblank, hminus, hplus⟩ := hdigit c (h c List.mem_cons_self)
        unfold signSplit
        rw [List.dropWhile_cons_of_neg (by rw [hblank]; exact Bool.false_ne_true)]
        simp only [hminus, hplus, if_false]
  · rw [leadingDecimal, List.takeWhile_eq_self_iff.mpr h]

end DonutOS.Libc
