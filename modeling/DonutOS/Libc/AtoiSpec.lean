import DonutOS.Libc.StrSpec
import Mathlib.Data.List.TakeWhile
import Mathlib.Data.Nat.Digits.Defs

set_option autoImplicit false

/-!
# Libc: numbers in strings (`libc/src/atoi.c`)

The digits at the start of a string, and the number that `atoi` makes of a string of
digits that is too short to overflow.
-/

namespace DonutOS.Libc

open DonutOS.Foundation

theorem StrAt.drop {m : Memory} {a n : Nat} {cs : List Byte} (h : StrAt m a cs)
    (hn : n ≤ cs.length) : StrAt m (a + n) (cs.drop n) := by
  induction n generalizing a cs with
  | zero => exact h
  | succ n ih =>
      cases cs with
      | nil => exact absurd hn (Nat.not_succ_le_zero n)
      | cons c cs =>
          have hrest := ih h.2.2 (Nat.le_of_succ_le_succ hn)
          rwa [Nat.add_assoc, Nat.add_comm 1] at hrest

theorem StrAt.behind {m : Memory} {a : Nat} {cs ds : List Byte} (h : StrAt m a (cs ++ ds)) :
    StrAt m (a + cs.length) ds := by
  have hdrop := h.drop (List.prefix_append cs ds).length_le
  rwa [List.drop_left] at hdrop

/-! ## The bytes of a kind at the start of a string -/

theorem spanLoop_eq {m : Memory} {p : Byte → Bool} (hp : p 0 = false) {str : Nat}
    {cs : List Byte} : ∀ {fuel len : Nat}, StrAt m (str + len) cs → cs.length < fuel →
      spanLoop m p str fuel len = len + (cs.takeWhile p).length := by
  induction cs with
  | nil =>
      intro fuel len h hfuel
      obtain ⟨fuel, rfl⟩ : ∃ k, fuel = k + 1 := ⟨fuel - 1, by omega⟩
      have hnul : m (str + len) = 0 := h
      rw [spanLoop, hnul, hp]
      rfl
  | cons c cs ih =>
      intro fuel len h hfuel
      rw [List.length_cons] at hfuel
      obtain ⟨fuel, rfl⟩ : ∃ k, fuel = k + 1 := ⟨fuel - 1, by omega⟩
      obtain ⟨hc, -, hcs⟩ := h
      rw [spanLoop, hc, List.takeWhile_cons]
      cases hkind : p c with
      | true =>
          rw [if_pos rfl, if_pos rfl, ih hcs (Nat.lt_of_succ_lt_succ hfuel), List.length_cons]
          omega
      | false => rfl

/-- A kind that the NUL is not of ends inside the string. -/
theorem span_eq {m : Memory} {p : Byte → Bool} (hp : p 0 = false) {str : Nat} {cs : List Byte}
    (h : StrAt m str cs) (hlen : cs.length < stringFuel) :
    span m p str = (cs.takeWhile p).length := by
  unfold span
  rw [spanLoop_eq hp h hlen, Nat.zero_add]

theorem isDigit_nul : isDigit 0 = false := by decide

/-! ## Decimal numbers -/

/-- The character of a digit. -/
def digitByte (d : Fin 10) : Byte := BitVec.ofNat 8 (0x30 + d.val)

/-- The number that the digits write, the first one the most significant. -/
def numeral (ds : List (Fin 10)) : Nat := Nat.ofDigits 10 (ds.reverse.map Fin.val)

theorem isDigit_digitByte (d : Fin 10) : isDigit (digitByte d) = true := by
  revert d
  decide

theorem digitByte_ne_zero (d : Fin 10) : digitByte d ≠ 0 := by
  revert d
  decide

/-- No digit is a blank or a sign. -/
theorem digitByte_ne (d : Fin 10) :
    (digitByte d == 0x20 || digitByte d == 0x0a || digitByte d == 0x0d) = false ∧
      digitByte d ≠ 0x2d ∧ digitByte d ≠ 0x2b := by
  revert d
  decide

theorem toInt_digitByte (d : Fin 10) : (digitByte d).toInt - 0x30 = (d.val : Int) := by
  revert d
  decide

theorem numeral_concat (ds : List (Fin 10)) (d : Fin 10) :
    numeral (ds ++ [d]) = d.val + 10 * numeral ds := by
  unfold numeral
  rw [List.reverse_append, List.reverse_singleton, List.singleton_append, List.map_cons,
    Nat.ofDigits_cons]

theorem numeral_lt (ds : List (Fin 10)) : numeral ds < 10 ^ ds.length := by
  have hlt := Nat.ofDigits_lt_base_pow_length (b := 10) (l := ds.reverse.map Fin.val) (by decide)
    fun x hx => by
      obtain ⟨d, -, rfl⟩ := List.mem_map.mp hx
      exact d.isLt
  rwa [List.length_map, List.length_reverse] at hlt

/-- No blanks are skipped and no sign is taken in front of digits. -/
theorem digits_start {m : Memory} {str : Nat} {ds : List (Fin 10)}
    (h : StrAt m str (ds.map digitByte)) (hfuel : (ds.map digitByte).length < stringFuel) :
    span m (fun c => c == 0x20 || c == 0x0a || c == 0x0d) str = 0 ∧
      m str ≠ 0x2d ∧ m str ≠ 0x2b := by
  rw [span_eq (by decide) h hfuel]
  cases ds with
  | nil =>
      have hnul : m str = 0 := h
      rw [hnul]
      decide
  | cons d ds =>
      obtain ⟨hblank, hsign⟩ := digitByte_ne d
      rw [List.map_cons, List.takeWhile_cons, hblank, h.1]
      exact ⟨rfl, hsign⟩

theorem span_digits {m : Memory} {str : Nat} {ds : List (Fin 10)}
    (h : StrAt m str (ds.map digitByte)) (hfuel : (ds.map digitByte).length < stringFuel) :
    span m isDigit str = ds.length := by
  have hall : ∀ c ∈ ds.map digitByte, isDigit c = true := by
    intro c hc
    obtain ⟨d, -, rfl⟩ := List.mem_map.mp hc
    exact isDigit_digitByte d
  rw [span_eq isDigit_nul h hfuel, List.takeWhile_eq_self_iff.mpr hall, List.length_map]

/-- A round of the loop: up to nine digits do not overflow. -/
theorem bmod_numeral {ds : List (Fin 10)} (hlen : ds.length ≤ 9) {i : Nat} (hi : i < ds.length) :
    Int.bmod ((numeral (ds.take i) : Int) * 10 + (ds[i].val : Int)) (2 ^ 32) =
      (numeral (ds.take (i + 1)) : Int) := by
  have hstep : numeral (ds.take (i + 1)) = ds[i].val + 10 * numeral (ds.take i) := by
    rw [List.take_succ_eq_append_getElem hi, numeral_concat]
  have hbound := numeral_lt (ds.take (i + 1))
  have hpow : 10 ^ (ds.take (i + 1)).length ≤ 10 ^ 9 :=
    Nat.pow_le_pow_right (by decide) (Nat.le_trans (List.length_take_le' _ _) hlen)
  rw [hstep] at hbound ⊢
  rw [Int.bmod_eq_of_le (by omega) (by omega)]
  omega

/-- The loop of `atoi` over a string of digits. -/
def digitsLoop (m : Memory) (str n : Nat) : Int :=
  forLoop (fun i (num : Int) => Int.bmod (num * 10 + ((m (str + i)).toInt - 0x30)) (2 ^ 32)) 0 n 0

theorem atoi_eq_digitsLoop {m : Memory} {str : Nat} {ds : List (Fin 10)}
    (h : StrAt m str (ds.map digitByte)) (hlen : ds.length < stringFuel) :
    atoi m str = digitsLoop m str ds.length := by
  have hfuel : (ds.map digitByte).length < stringFuel := (List.length_map digitByte).symm ▸ hlen
  obtain ⟨hblank, hminus, hplus⟩ := digits_start h hfuel
  have hnegative : (m str == 0x2d) = false := beq_eq_false_iff_ne.mpr hminus
  unfold atoi digitsLoop
  simp only [hblank, Nat.add_zero, hnegative, hminus, hplus, or_self, if_false,
    Bool.false_eq_true, span_digits h hfuel]

/-- What a digit adds. -/
theorem digit_toInt {m : Memory} {str i : Nat} {ds : List (Fin 10)}
    (h : StrAt m str (ds.map digitByte)) (hi : i < ds.length) :
    (m (str + i)).toInt - 0x30 = (ds[i].val : Int) := by
  have hi' : i < (ds.map digitByte).length := (List.length_map digitByte).symm ▸ hi
  rw [h.get hi', List.getElem_map, toInt_digitByte]

/-- `atoi` of up to nine digits, which an `int` has room for. -/
theorem atoi_eq {m : Memory} {str : Nat} {ds : List (Fin 10)}
    (h : StrAt m str (ds.map digitByte)) (hlen : ds.length ≤ 9) :
    atoi m str = (numeral ds : Int) := by
  have hloop := forLoop_invariant (fun i num => num = (numeral (ds.take i) : Int))
    (f := fun i (num : Int) => Int.bmod (num * 10 + ((m (str + i)).toInt - 0x30)) (2 ^ 32))
    ds.length 0 0 rfl fun i num _ hi hnum => by
      rw [Nat.zero_add] at hi
      rw [digit_toInt h hi, hnum]
      exact bmod_numeral hlen hi
  rw [Nat.zero_add, List.take_length] at hloop
  rw [atoi_eq_digitsLoop h (Nat.lt_of_le_of_lt hlen (by decide))]
  exact hloop

/-- Any number of digits: only the lowest 32 bits count. -/
theorem atoi_emod {m : Memory} {str : Nat} {ds : List (Fin 10)}
    (h : StrAt m str (ds.map digitByte)) (hlen : ds.length < stringFuel) :
    atoi m str % 2 ^ 32 = (numeral ds : Int) % 2 ^ 32 := by
  have hloop := forLoop_invariant
    (fun i num => num % 2 ^ 32 = (numeral (ds.take i) : Int) % 2 ^ 32)
    (f := fun i (num : Int) => Int.bmod (num * 10 + ((m (str + i)).toInt - 0x30)) (2 ^ 32))
    ds.length 0 0 rfl fun i num _ hi hnum => by
      rw [Nat.zero_add] at hi
      rw [digit_toInt h hi, List.take_succ_eq_append_getElem hi, numeral_concat]
      have hbmod : Int.bmod (num * 10 + (ds[i].val : Int)) (2 ^ 32) % ((2 ^ 32 : Nat) : Int) =
          (num * 10 + (ds[i].val : Int)) % ((2 ^ 32 : Nat) : Int) := Int.bmod_emod
      push_cast at hbmod ⊢
      omega
  rw [Nat.zero_add, List.take_length] at hloop
  rw [atoi_eq_digitsLoop h hlen]
  exact hloop

end DonutOS.Libc
