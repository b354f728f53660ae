import DonutOS.Foundation.Loop
import DonutOS.Foundation.Memory

set_option autoImplicit false

/-!
# Foundation: filling a record from a frame

A parser reads bytes of a frame and assigns the fields of a record, which is
kept as its bytes.  Every byte read is remembered by its index, so that "reads
nothing behind the end" can be stated; no parser looks at that list.
-/

namespace DonutOS.Foundation

/-- A number computed from bytes of a frame, and the indices of those bytes. -/
structure Reading where
  value : Nat
  reads : List Nat

/-- A frame: what reading its `i`-th byte gives. -/
abbrev Frame := Nat → Reading

/-- The frame at address `a`. -/
def frameAt (m : Memory) (a : Nat) : Frame := fun i => ⟨(m (a + i)).toNat, [i]⟩

/-- `frame + k`. -/
def Frame.skip (frame : Frame) (k : Nat) : Frame := fun i => frame (k + i)

instance : HShiftLeft Reading Nat Reading := ⟨fun r k => ⟨r.value <<< k, r.reads⟩⟩

instance : HShiftRight Reading Nat Reading := ⟨fun r k => ⟨r.value >>> k, r.reads⟩⟩

instance : OrOp Reading := ⟨fun r r' => ⟨r.value ||| r'.value, r.reads ++ r'.reads⟩⟩

/-- `r & mask`. -/
def Reading.mask (r : Reading) (mask : Nat) : Reading := ⟨r.value &&& mask, r.reads⟩

/-- A record being filled: its bytes by offset, and the indices read so far. -/
structure Parse where
  record : Memory
  reads : List Nat

namespace Parse

/-- Assign a field of one byte. -/
def setByte (offset : Nat) (r : Reading) (p : Parse) : Parse :=
  ⟨writeByte p.record offset (BitVec.ofNat 8 r.value), p.reads ++ r.reads⟩

/-- Assign a field of two bytes. -/
def setHalf (offset : Nat) (r : Reading) (p : Parse) : Parse :=
  ⟨writeByte (writeByte p.record offset (BitVec.ofNat 8 r.value)) (offset + 1)
    (BitVec.ofNat 8 (r.value / 0x100)), p.reads ++ r.reads⟩

/-- Assign a field of four bytes. -/
def setWord (offset : Nat) (r : Reading) (p : Parse) : Parse :=
  ⟨writeWord p.record offset r.value, p.reads ++ r.reads⟩

/-- Assign the bit field of `width` bits from bit `low` on of the unit of two
bytes at `offset`. -/
def setBits (offset low width : Nat) (r : Reading) (p : Parse) : Parse :=
  let unit := readHalf p.record offset
  setHalf offset ⟨unit % 2 ^ low + r.value % 2 ^ width * 2 ^ low +
    unit / 2 ^ (low + width) * 2 ^ (low + width), r.reads⟩ p

/-- Copy `n` bytes of a frame. -/
def copy (offset : Nat) (frame : Frame) (n : Nat) (p : Parse) : Parse :=
  forLoop (fun i p => p.setByte (offset + i) (frame i)) 0 n p

/-- A field of one byte. -/
def byte (p : Parse) (offset : Nat) : Nat := (p.record offset).toNat

/-- A field of two bytes. -/
def half (p : Parse) (offset : Nat) : Nat := readHalf p.record offset

end Parse

/-! ## What was read -/

/-- How far a frame was read: the number behind the last index. -/
def extent : List Nat → Nat
  | [] => 0
  | i :: reads => max (i + 1) (extent reads)

@[simp] theorem extent_nil : extent [] = 0 := rfl

@[simp] theorem extent_singleton (i : Nat) : extent [i] = i + 1 := Nat.max_zero _

@[simp] theorem extent_append (reads reads' : List Nat) :
    extent (reads ++ reads') = max (extent reads) (extent reads') := by
  induction reads with
  | nil => exact (Nat.zero_max _).symm
  | cons i reads ih => rw [List.cons_append, extent, extent, ih, Nat.max_assoc]

theorem extent_le_iff {n : Nat} {reads : List Nat} :
    extent reads ≤ n ↔ ∀ i ∈ reads, i < n := by
  induction reads with
  | nil => exact iff_of_true (Nat.zero_le n) (fun i hi => nomatch hi)
  | cons i reads ih =>
      rw [extent, Nat.max_le, ih, List.forall_mem_cons]
      exact Iff.rfl

@[simp] theorem reads_shiftLeft (r : Reading) (k : Nat) : (r <<< k).reads = r.reads := rfl

@[simp] theorem reads_shiftRight (r : Reading) (k : Nat) : (r >>> k).reads = r.reads := rfl

@[simp] theorem reads_or (r r' : Reading) : (r ||| r').reads = r.reads ++ r'.reads := rfl

@[simp] theorem reads_mask (r : Reading) (mask : Nat) : (r.mask mask).reads = r.reads := rfl

@[simp] theorem reads_skip_frameAt (m : Memory) (a k i : Nat) :
    ((frameAt m a).skip k i).reads = [k + i] := rfl

@[simp] theorem skip_skip (frame : Frame) (k l : Nat) :
    (frame.skip k).skip l = frame.skip (k + l) := by
  unfold Frame.skip
  funext i
  rw [Nat.add_assoc]

@[simp] theorem skip_zero (frame : Frame) : frame.skip 0 = frame := by
  unfold Frame.skip
  funext i
  rw [Nat.zero_add]

namespace Parse

@[simp] theorem reads_setByte (offset : Nat) (r : Reading) (p : Parse) :
    (p.setByte offset r).reads = p.reads ++ r.reads := rfl

@[simp] theorem reads_setHalf (offset : Nat) (r : Reading) (p : Parse) :
    (p.setHalf offset r).reads = p.reads ++ r.reads := rfl

@[simp] theorem reads_setWord (offset : Nat) (r : Reading) (p : Parse) :
    (p.setWord offset r).reads = p.reads ++ r.reads := rfl

@[simp] theorem reads_setBits (offset low width : Nat) (r : Reading) (p : Parse) :
    (p.setBits offset low width r).reads = p.reads ++ r.reads := by
  unfold setBits
  exact reads_setHalf _ _ _

/-- A copy reads the bytes copied. -/
theorem extent_copy {n k a : Nat} {m : Memory} (offset : Nat) (hn : 0 < n) (p : Parse) :
    extent (p.copy offset ((frameAt m a).skip k) n).reads =
      max (extent p.reads) (k + n) := by
  have hloop := forLoop_invariant
    (fun i (q : Parse) => extent q.reads = max (extent p.reads) (if i = 0 then 0 else k + i))
    (f := fun i q => q.setByte (offset + i) ((frameAt m a).skip k i)) n 0 p
    (Nat.max_zero _).symm (fun i q _ _ hq => by
      rw [reads_setByte, reads_skip_frameAt, extent_append, extent_singleton, hq,
        if_neg (Nat.succ_ne_zero i)]
      split <;> omega)
  rw [Nat.zero_add, if_neg (Nat.ne_of_gt hn)] at hloop
  exact hloop

/-! ## What was stored -/

theorem record_setByte_of_ne {offset b : Nat} (r : Reading) (p : Parse) (h : b ≠ offset) :
    (p.setByte offset r).record b = p.record b := writeByte_of_ne h

theorem record_setHalf_of_outside {offset b : Nat} (r : Reading) (p : Parse)
    (h : b < offset ∨ offset + 2 ≤ b) : (p.setHalf offset r).record b = p.record b :=
  (writeByte_of_ne (by omega)).trans (writeByte_of_ne (by omega))

/-- A copy writes only the bytes of its field. -/
theorem record_copy_of_outside {offset b n : Nat} (frame : Frame) (p : Parse)
    (h : b < offset ∨ offset + n ≤ b) : (p.copy offset frame n).record b = p.record b := by
  have hloop := forLoop_invariant (fun _ (q : Parse) => q.record b = p.record b)
    (f := fun i q => q.setByte (offset + i) (frame i)) n 0 p rfl
    (fun i q _ hi hq => (record_setByte_of_ne _ q (by omega)).trans hq)
  exact hloop

/-- The bytes of a copied field are those of the frame. -/
theorem record_copy {offset n k a i : Nat} {m : Memory} (p : Parse) (hi : i < n) :
    (p.copy offset ((frameAt m a).skip k) n).record (offset + i) = m (a + (k + i)) := by
  have hloop := forLoop_invariant
    (fun j (q : Parse) => i < j → q.record (offset + i) = m (a + (k + i)))
    (f := fun j q => q.setByte (offset + j) ((frameAt m a).skip k j)) n 0 p
    (fun h => nomatch h) (fun j q _ _ hq hij => by
      rcases Nat.lt_or_eq_of_le (Nat.le_of_lt_succ hij) with hlt | rfl
      · exact (record_setByte_of_ne _ q (by omega)).trans (hq hlt)
      · refine (if_pos rfl).trans ?_
        exact (BitVec.ofNat_toNat 8 _).trans (BitVec.setWidth_eq _))
  rw [Nat.zero_add] at hloop
  exact hloop hi

theorem byte_setByte_of_ne {offset b : Nat} (r : Reading) (p : Parse) (h : b ≠ offset) :
    (p.setByte offset r).byte b = p.byte b := congrArg BitVec.toNat (record_setByte_of_ne r p h)

theorem byte_setHalf_of_outside {offset b : Nat} (r : Reading) (p : Parse)
    (h : b < offset ∨ offset + 2 ≤ b) : (p.setHalf offset r).byte b = p.byte b :=
  congrArg BitVec.toNat (record_setHalf_of_outside r p h)

theorem byte_copy_of_outside {offset b n : Nat} (frame : Frame) (p : Parse)
    (h : b < offset ∨ offset + n ≤ b) : (p.copy offset frame n).byte b = p.byte b :=
  congrArg BitVec.toNat (record_copy_of_outside frame p h)

/-- A byte of a frame stored in a field of one byte. -/
theorem byte_setByte_skip (offset : Nat) (m : Memory) (a k i : Nat) (p : Parse) :
    (p.setByte offset ((frameAt m a).skip k i)).byte offset = (m (a + (k + i))).toNat := by
  unfold byte setByte writeByte
  change (if offset = offset then BitVec.ofNat 8 (m (a + (k + i))).toNat else _).toNat = _
  rw [if_pos rfl, BitVec.toNat_ofNat]
  exact Nat.mod_eq_of_lt (m (a + (k + i))).isLt

/-- Two bytes of a frame, the first one the more significant, stored in a field of
two bytes. -/
theorem half_setHalf (offset : Nat) (m : Memory) (a k i j : Nat) (p : Parse) :
    (p.setHalf offset ((frameAt m a).skip k i <<< 8 ||| (frameAt m a).skip k j)).half offset =
      (m (a + (k + i))).toNat * 0x100 + (m (a + (k + j))).toNat := by
  have hi := (m (a + (k + i))).isLt
  have hj := (m (a + (k + j))).isLt
  have hvalue : ((frameAt m a).skip k i <<< 8 ||| (frameAt m a).skip k j).value =
      (m (a + (k + i))).toNat * 0x100 + (m (a + (k + j))).toNat := by
    change (m (a + (k + i))).toNat <<< 8 ||| (m (a + (k + j))).toNat = _
    rw [← Nat.shiftLeft_add_eq_or_of_lt hj, Nat.shiftLeft_eq]
  unfold half setHalf readHalf
  simp only [writeByte, hvalue, if_true, show offset ≠ offset + 1 by omega, if_false,
    BitVec.toNat_ofNat]
  omega

end Parse

end DonutOS.Foundation
