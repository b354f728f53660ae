import DonutOS.Foundation.Parse

set_option autoImplicit false

/-!
# Foundation: the fields of a record read back

What a parser writes is a range of the record, and a field outside the range keeps its
value.  A field that is assigned and read again has the value assigned, as far as it
has room for it.
-/

namespace DonutOS.Foundation

/-- The bit field of `width` bits from bit `low` on of the unit of two bytes at
`offset`. -/
def readBits (m : Memory) (offset low width : Nat) : Nat :=
  readHalf m offset / 2 ^ low % 2 ^ width

theorem readHalf_congr {m m' : Memory} {a : Nat} (h : ∀ b, a ≤ b → b < a + 2 → m' b = m b) :
    readHalf m' a = readHalf m a := by
  unfold readHalf
  rw [h a (by omega) (by omega), h (a + 1) (by omega) (by omega)]

theorem readHalf_lt (m : Memory) (a : Nat) : readHalf m a < 2 ^ 16 := by
  have h0 := (m a).isLt
  have h1 := (m (a + 1)).isLt
  unfold readHalf
  omega

/-! ## Bits of a number -/

/-- `u` with `v` in its bits from `low` to before `low + width`. -/
def withBits (low width v u : Nat) : Nat :=
  u % 2 ^ low + v % 2 ^ width * 2 ^ low + u / 2 ^ (low + width) * 2 ^ (low + width)

section Bits

variable (low width v u : Nat)

theorem withBits_mod : withBits low width v u % 2 ^ low = u % 2 ^ low := by
  unfold withBits
  rw [Nat.pow_add, ← Nat.mul_assoc, Nat.mul_right_comm, Nat.add_mul_mod_self_right,
    Nat.add_mul_mod_self_right, Nat.mod_mod]

theorem withBits_low_lt :
    u % 2 ^ low + v % 2 ^ width * 2 ^ low < 2 ^ (low + width) := by
  have hlow := Nat.mod_lt u (Nat.two_pow_pos low)
  have hbits : v % 2 ^ width + 1 ≤ 2 ^ width := Nat.mod_lt v (Nat.two_pow_pos width)
  calc u % 2 ^ low + v % 2 ^ width * 2 ^ low
      < 2 ^ low + v % 2 ^ width * 2 ^ low := Nat.add_lt_add_right hlow _
    _ = (v % 2 ^ width + 1) * 2 ^ low := by rw [Nat.add_mul, Nat.one_mul, Nat.add_comm]
    _ ≤ 2 ^ width * 2 ^ low := Nat.mul_le_mul_right _ hbits
    _ = 2 ^ (low + width) := by rw [Nat.pow_add, Nat.mul_comm]

theorem withBits_div :
    withBits low width v u / 2 ^ (low + width) = u / 2 ^ (low + width) := by
  unfold withBits
  rw [Nat.add_mul_div_right _ _ (Nat.two_pow_pos _),
    Nat.div_eq_of_lt (withBits_low_lt low width v u), Nat.zero_add]

theorem withBits_div_mod :
    withBits low width v u / 2 ^ low % 2 ^ width = v % 2 ^ width := by
  unfold withBits
  have hsplit : u / 2 ^ (low + width) * 2 ^ (low + width) =
      u / 2 ^ (low + width) * 2 ^ width * 2 ^ low := by
    rw [Nat.pow_add, Nat.mul_comm (2 ^ low), Nat.mul_assoc]
  rw [hsplit, Nat.add_assoc, ← Nat.add_mul, Nat.add_mul_div_right _ _ (Nat.two_pow_pos _),
    Nat.div_eq_of_lt (Nat.mod_lt _ (Nat.two_pow_pos _)), Nat.zero_add,
    Nat.add_mul_mod_self_right, Nat.mod_mod]

variable {low width v u} {n : Nat}

theorem withBits_lt (hu : u < 2 ^ n) (hn : low + width ≤ n) : withBits low width v u < 2 ^ n := by
  obtain ⟨k, rfl⟩ := Nat.exists_eq_add_of_le hn
  rw [Nat.pow_add, Nat.mul_comm] at hu ⊢
  rw [← Nat.div_lt_iff_lt_mul (Nat.two_pow_pos _)] at hu ⊢
  rwa [withBits_div]

end Bits

/-- Bits below a bit are those of the remainder. -/
theorem mod_div_mod {low' width' low : Nat} (h : low' + width' ≤ low) (x : Nat) :
    x % 2 ^ low / 2 ^ low' % 2 ^ width' = x / 2 ^ low' % 2 ^ width' := by
  rw [← Nat.mod_mul_right_div_self, ← Nat.mod_mul_right_div_self, ← Nat.pow_add,
    Nat.mod_mod_of_dvd _ (Nat.pow_dvd_pow 2 h)]

/-- Bits of the first byte of a unit do not depend on the second one. -/
theorem readBits_congr {m m' : Memory} {offset low width : Nat} (h : low + width ≤ 8)
    (hsame : m' offset = m offset) :
    readBits m' offset low width = readBits m offset low width := by
  have hbyte : ∀ m : Memory, readHalf m offset % 2 ^ 8 = (m offset).toNat := by
    intro m
    have hlt := (m offset).isLt
    unfold readHalf
    omega
  unfold readBits
  rw [← mod_div_mod h, hbyte, hsame, ← hbyte m, mod_div_mod h]

namespace Parse

/-! ## What a parser writes -/

/-- `f` writes only the bytes of the record from `lo` on that are before `hi`. -/
def Writes (lo hi : Nat) (f : Parse → Parse) : Prop :=
  ∀ p b, b < lo ∨ hi ≤ b → (f p).record b = p.record b

theorem writes_setByte (offset : Nat) (r : Reading) :
    Writes offset (offset + 1) (setByte offset r) :=
  fun p _ h => record_setByte_of_ne r p (by omega)

theorem writes_setHalf (offset : Nat) (r : Reading) :
    Writes offset (offset + 2) (setHalf offset r) :=
  fun p _ h => record_setHalf_of_outside r p h

theorem writes_setWord (offset : Nat) (r : Reading) :
    Writes offset (offset + 4) (setWord offset r) :=
  fun _ _ h => writeWord_of_outside h

theorem writes_setBits (offset low width : Nat) (r : Reading) :
    Writes offset (offset + 2) (setBits offset low width r) :=
  fun p _ h => record_setHalf_of_outside _ p h

theorem writes_copy (offset : Nat) (frame : Frame) (n : Nat) :
    Writes offset (offset + n) (copy offset frame n) :=
  fun p _ h => record_copy_of_outside frame p h

namespace Writes

variable {lo hi lo' hi' b : Nat} {f g : Parse → Parse}

theorem mono (h : Writes lo hi f) (hlo : lo' ≤ lo) (hhi : hi ≤ hi') : Writes lo' hi' f :=
  fun p b hb => h p b (by omega)

theorem comp (hf : Writes lo hi f) (hg : Writes lo' hi' g) :
    Writes (min lo lo') (max hi hi') (fun p => g (f p)) :=
  fun p b hb => (hg _ b (by omega)).trans (hf p b (by omega))

theorem half (h : Writes lo hi f) (p : Parse) (hb : b + 2 ≤ lo ∨ hi ≤ b) :
    readHalf (f p).record b = readHalf p.record b :=
  readHalf_congr fun _ _ _ => h p _ (by omega)

theorem bits (h : Writes lo hi f) (p : Parse) (low width : Nat) (hb : b + 2 ≤ lo ∨ hi ≤ b) :
    readBits (f p).record b low width = readBits p.record b low width := by
  unfold readBits
  rw [h.half p hb]

theorem word (h : Writes lo hi f) (p : Parse) (hb : b + 4 ≤ lo ∨ hi ≤ b) :
    readWord (f p).record b = readWord p.record b :=
  readWord_congr fun _ _ _ => h p _ (by omega)

/-- Bits of a byte that is not written, though the second one of its unit may be. -/
theorem lowBits (h : Writes lo hi f) (p : Parse) {low width : Nat} (hlow : low + width ≤ 8)
    (hb : b < lo ∨ hi ≤ b) : readBits (f p).record b low width = readBits p.record b low width :=
  readBits_congr hlow (h p b hb)

end Writes

/-! ## A field that is read back -/

variable (offset : Nat) (r : Reading) (p : Parse)

theorem record_setByte : (p.setByte offset r).record offset = BitVec.ofNat 8 r.value :=
  if_pos rfl

theorem readHalf_setHalf : readHalf (p.setHalf offset r).record offset = r.value % 2 ^ 16 := by
  unfold setHalf readHalf
  simp only [writeByte, if_true, show offset ≠ offset + 1 by omega, if_false,
    BitVec.toNat_ofNat]
  omega

theorem readWord_setWord : readWord (p.setWord offset r).record offset = r.value % 2 ^ 32 :=
  readWord_writeWord_same _ _ _

section Copy

variable {offset} {p} {m : Memory} {a k : Nat}

theorem readHalf_copy :
    readHalf (p.copy offset ((frameAt m a).skip k) 2).record offset = readHalf m (a + k) := by
  have hbyte : ∀ i < 2, (p.copy offset ((frameAt m a).skip k) 2).record (offset + i) =
      m (a + k + i) := fun i hi => by rw [record_copy p hi, Nat.add_assoc]
  unfold readHalf
  rw [hbyte 1 (by omega)]
  exact congrArg (fun x : Byte => x.toNat + _) (hbyte 0 (by omega))

theorem readWord_copy :
    readWord (p.copy offset ((frameAt m a).skip k) 4).record offset = readWord m (a + k) := by
  have hbyte : ∀ i < 4, (p.copy offset ((frameAt m a).skip k) 4).record (offset + i) =
      m (a + k + i) := fun i hi => by rw [record_copy p hi, Nat.add_assoc]
  unfold readWord
  rw [hbyte 1 (by omega), hbyte 2 (by omega), hbyte 3 (by omega)]
  exact congrArg (fun x : Byte => x.toNat + _ + _ + _) (hbyte 0 (by omega))

end Copy

section Bits

variable {low width low' width' : Nat}

theorem readHalf_setBits (h : low + width ≤ 16) :
    readHalf (p.setBits offset low width r).record offset =
      withBits low width r.value (readHalf p.record offset) :=
  (readHalf_setHalf offset _ p).trans
    (Nat.mod_eq_of_lt (withBits_lt (readHalf_lt p.record offset) h))

theorem readBits_setBits (h : low + width ≤ 16) :
    readBits (p.setBits offset low width r).record offset low width = r.value % 2 ^ width := by
  unfold readBits
  rw [readHalf_setBits offset r p h]
  exact withBits_div_mod _ _ _ _

/-- Two bit fields of one unit do not share a bit. -/
theorem readBits_setBits_of_disjoint (h : low + width ≤ 16)
    (hapart : low' + width' ≤ low ∨ low + width ≤ low') :
    readBits (p.setBits offset low width r).record offset low' width' =
      readBits p.record offset low' width' := by
  unfold readBits
  rw [readHalf_setBits offset r p h]
  rcases hapart with hbelow | habove
  · rw [← mod_div_mod hbelow, withBits_mod, mod_div_mod hbelow]
  · obtain ⟨k, rfl⟩ := Nat.exists_eq_add_of_le habove
    rw [Nat.pow_add, ← Nat.div_div_eq_div_mul, withBits_div, Nat.div_div_eq_div_mul]

end Bits

end Parse

end DonutOS.Foundation
