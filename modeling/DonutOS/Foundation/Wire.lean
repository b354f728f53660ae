import DonutOS.Foundation.Fields
import DonutOS.Foundation.LineEditor

set_option autoImplicit false

/-!
# Foundation: numbers in network order

A packet carries a number as a fixed count of bytes, the most significant one first.
What a sender writes so is what `networkNumber` reads, whatever the number and the
count.
-/

namespace DonutOS.Foundation

/-- The low `n` bytes of `v`, the most significant one first. -/
def networkBytes : Nat → Nat → List Byte
  | 0, _ => []
  | n + 1, v => networkBytes n (v / 0x100) ++ [BitVec.ofNat 8 v]

/-- The number in the `n` bytes at `a`, the most significant one first. -/
def networkNumber (m : Memory) (a : Nat) : Nat → Nat
  | 0 => 0
  | n + 1 => networkNumber m a n * 0x100 + (m (a + n)).toNat

theorem networkNumber_lt (m : Memory) (a n : Nat) : networkNumber m a n < 0x100 ^ n := by
  induction n with
  | zero => exact Nat.one_pos
  | succ n ih =>
      have hbyte := (m (a + n)).isLt
      rw [networkNumber, Nat.pow_succ]
      omega

@[simp] theorem length_networkBytes (n v : Nat) : (networkBytes n v).length = n := by
  induction n generalizing v with
  | zero => rfl
  | succ n ih => rw [networkBytes, List.length_append, ih, List.length_singleton]

/-! ## Texts one behind another -/

namespace TextAt

variable {α : Type} {m : Nat → α} {a : Nat} {cs ds : List α}

theorem append_iff : TextAt m a (cs ++ ds) ↔ TextAt m a cs ∧ TextAt m (a + cs.length) ds := by
  constructor
  · intro h
    constructor
    · intro i hi
      rw [h i (by rw [List.length_append]; omega), List.getElem_append_left hi]
    · intro i hi
      rw [Nat.add_assoc, h (cs.length + i) (by rw [List.length_append]; omega),
        List.getElem_append_right (Nat.le_add_right _ _)]
      simp only [Nat.add_sub_cancel_left]
  · rintro ⟨hcs, hds⟩ i hi
    by_cases hfirst : i < cs.length
    · rw [List.getElem_append_left hfirst]
      exact hcs i hfirst
    · rw [List.length_append] at hi
      rw [List.getElem_append_right (Nat.not_lt.mp hfirst),
        ← hds (i - cs.length) (by omega)]
      congr 1
      omega

theorem singleton_iff {c : α} : TextAt m a [c] ↔ m a = c := by
  constructor
  · exact fun h => h 0 Nat.one_pos
  · intro h i hi
    obtain rfl := Nat.lt_one_iff.mp hi
    exact h

theorem ofFn_iff {n : Nat} {f : Fin n → α} :
    TextAt m a (List.ofFn f) ↔ ∀ i : Fin n, m (a + i) = f i := by
  constructor
  · intro h i
    rw [h i (by rw [List.length_ofFn]; exact i.isLt), List.getElem_ofFn]
  · intro h i hi
    rw [List.getElem_ofFn]
    rw [List.length_ofFn] at hi
    exact h ⟨i, hi⟩

end TextAt

/-- A memory with nothing but a text in it, from 0 on. -/
def memoryOf (cs : List Byte) : Memory := fun i => cs.getD i 0

theorem textAt_memoryOf (cs : List Byte) : TextAt (memoryOf cs) 0 cs := by
  intro i hi
  unfold memoryOf
  rw [Nat.zero_add, List.getD_eq_getElem?_getD, List.getElem?_eq_getElem hi]
  rfl

/-- A number is read as it was sent. -/
theorem networkNumber_of_textAt {m : Memory} {a n v : Nat} (h : TextAt m a (networkBytes n v)) :
    networkNumber m a n = v % 0x100 ^ n := by
  induction n generalizing v with
  | zero => exact (Nat.mod_one v).symm
  | succ n ih =>
      obtain ⟨hfront, hlast⟩ := TextAt.append_iff.mp h
      rw [length_networkBytes, TextAt.singleton_iff] at hlast
      rw [networkNumber, ih hfront, hlast, BitVec.toNat_ofNat]
      change v / 0x100 % 0x100 ^ n * 0x100 + v % 0x100 = v % 0x100 ^ (n + 1)
      rw [Nat.pow_succ, Nat.mul_comm (0x100 ^ n) 0x100, Nat.mod_mul, Nat.mul_comm, Nat.add_comm]

/-- A number is read as it was sent when its bytes have room for it. -/
theorem networkNumber_toNat {m : Memory} {a n w : Nat} {x : BitVec w}
    (h : TextAt m a (networkBytes n x.toNat)) (hw : w = 8 * n) :
    networkNumber m a n = x.toNat := by
  have hlt : x.toNat < 0x100 ^ n := by
    rw [show (0x100 : Nat) = 2 ^ 8 from rfl, ← Nat.pow_mul, ← hw]
    exact x.isLt
  rw [networkNumber_of_textAt h, Nat.mod_eq_of_lt hlt]

/-- The two bytes of a number. -/
theorem two_bytes {m : Memory} {b : Nat} {x : BitVec 16}
    (h : TextAt m b (networkBytes 2 x.toNat)) :
    (m b).toNat * 0x100 + (m (b + 1)).toNat = x.toNat := by
  have hnumber := networkNumber_toNat h rfl
  rw [← hnumber]
  simp only [networkNumber, Nat.zero_mul, Nat.zero_add, Nat.add_zero]

theorem four_bytes {m : Memory} {b : Nat} {x : BitVec 32}
    (h : TextAt m b (networkBytes 4 x.toNat)) :
    (m b).toNat * 0x1000000 + (m (b + 1)).toNat * 0x10000 + (m (b + 2)).toNat * 0x100 +
      (m (b + 3)).toNat = x.toNat := by
  have hnumber := networkNumber_toNat h rfl
  rw [← hnumber]
  simp only [networkNumber, Nat.zero_mul, Nat.zero_add, Nat.add_zero]
  omega

/-! ## Numbers copied as they are -/

/-- The bytes of the number are the same in either order. -/
def SameHalf (x : BitVec 16) : Prop := x.toNat / 0x100 = x.toNat % 0x100

/-- The bytes of the number are the same in either order. -/
def SameWord (x : BitVec 32) : Prop :=
  x.toNat / 0x1000000 = x.toNat % 0x100 ∧
    x.toNat / 0x10000 % 0x100 = x.toNat / 0x100 % 0x100

instance (x : BitVec 16) : Decidable (SameHalf x) := inferInstanceAs (Decidable (_ = _))

instance (x : BitVec 32) : Decidable (SameWord x) := inferInstanceAs (Decidable (_ ∧ _))

theorem ofNat_readHalf_eq_iff {m : Memory} {b : Nat} {x : BitVec 16}
    (h : TextAt m b (networkBytes 2 x.toNat)) :
    BitVec.ofNat 16 (readHalf m b) = x ↔ SameHalf x := by
  have hvalue := two_bytes h
  have hfirst := (m b).isLt
  have hsecond := (m (b + 1)).isLt
  have hlt := readHalf_lt m b
  rw [← BitVec.toNat_inj, BitVec.toNat_ofNat, Nat.mod_eq_of_lt hlt]
  unfold readHalf SameHalf
  omega

/-- A number of four digits is the same in either order when the digits are. -/
theorem reversed_eq_iff {c d e f : Nat} (hd : d < 0x100) (he : e < 0x100) (hf : f < 0x100) :
    c + 0x100 * d + 0x10000 * e + 0x1000000 * f =
      c * 0x1000000 + d * 0x10000 + e * 0x100 + f ↔ c = f ∧ d = e := by
  constructor
  · intro h
    have hends : c = f := by omega
    exact ⟨hends, by omega⟩
  · rintro ⟨rfl, rfl⟩
    omega

theorem ofNat_readWord_eq_iff {m : Memory} {b : Nat} {x : BitVec 32}
    (h : TextAt m b (networkBytes 4 x.toNat)) :
    BitVec.ofNat 32 (readWord m b) = x ↔ SameWord x := by
  have hvalue := four_bytes h
  have h1 := (m (b + 1)).isLt
  have h2 := (m (b + 2)).isLt
  have h3 := (m (b + 3)).isLt
  have hdigits : x.toNat / 0x1000000 = (m b).toNat ∧
      x.toNat / 0x10000 % 0x100 = (m (b + 1)).toNat ∧
      x.toNat / 0x100 % 0x100 = (m (b + 2)).toNat ∧ x.toNat % 0x100 = (m (b + 3)).toNat := by
    omega
  obtain ⟨hfirst, hsecond, hthird, hfourth⟩ := hdigits
  unfold SameWord
  rw [← BitVec.toNat_inj, BitVec.toNat_ofNat, Nat.mod_eq_of_lt (readWord_lt m b), hfirst, hsecond,
    hthird, hfourth, ← hvalue]
  exact reversed_eq_iff h1 h2 h3

/-! ## Numbers put together by shifts -/

section Readings

variable {m : Memory} {a k i : Nat}

theorem value_skip_frameAt : ((frameAt m a).skip k i).value = (m (a + (k + i))).toNat := rfl

/-- Bits are put behind a number. -/
theorem shiftLeft_or_toNat (x : Nat) {w : Nat} (y : BitVec w) :
    x <<< w ||| y.toNat = x * 2 ^ w + y.toNat := by
  rw [← Nat.shiftLeft_add_eq_or_of_lt y.isLt, Nat.shiftLeft_eq]

theorem shiftLeft_or_byte (x : Nat) (c : Byte) : x <<< 8 ||| c.toNat = x * 0x100 + c.toNat :=
  shiftLeft_or_toNat x c

theorem toNat_append_eq {v w : Nat} (x : BitVec v) (y : BitVec w) :
    (x ++ y).toNat = x.toNat * 2 ^ w + y.toNat :=
  (BitVec.toNat_append x y).trans (shiftLeft_or_toNat _ _)

theorem shiftLeft_or_shiftLeft (x y k l : Nat) :
    x <<< (k + l) ||| y <<< l = (x <<< k ||| y) <<< l := by
  rw [Nat.shiftLeft_add, Nat.shiftLeft_or_distrib]

/-- `(frame[i] << 8) | frame[i + 1]` -/
theorem value_half :
    ((frameAt m a).skip k i <<< 8 ||| (frameAt m a).skip k (i + 1)).value =
      networkNumber m (a + (k + i)) 2 := by
  change (m (a + (k + i))).toNat <<< 8 ||| (m (a + (k + (i + 1)))).toNat = _
  rw [shiftLeft_or_byte]
  simp only [networkNumber, Nat.zero_mul, Nat.zero_add, Nat.add_zero, Nat.add_assoc]

/-- `(frame[i] << 24) | (frame[i + 1] << 16) | (frame[i + 2] << 8) | frame[i + 3]` -/
theorem value_word :
    ((frameAt m a).skip k i <<< 24 ||| (frameAt m a).skip k (i + 1) <<< 16 |||
        (frameAt m a).skip k (i + 2) <<< 8 ||| (frameAt m a).skip k (i + 3)).value =
      networkNumber m (a + (k + i)) 4 := by
  change (m (a + (k + i))).toNat <<< (8 + 16) ||| (m (a + (k + (i + 1)))).toNat <<< 16 |||
    (m (a + (k + (i + 2)))).toNat <<< 8 ||| (m (a + (k + (i + 3)))).toNat = _
  rw [shiftLeft_or_shiftLeft _ _ 8 16, shiftLeft_or_shiftLeft _ _ 8 8, shiftLeft_or_byte,
    shiftLeft_or_byte, shiftLeft_or_byte]
  simp only [networkNumber, Nat.zero_mul, Nat.zero_add, Nat.add_zero, Nat.add_assoc]

end Readings

end DonutOS.Foundation
