import DonutOS.Foundation.Memory

set_option autoImplicit false

/-!
# Foundation: memory that records where it is written

A store is a memory with the list of the addresses written so far, the last one
first.  The list is for statements about footprints: no program reads it.
-/

namespace DonutOS.Foundation

/-- Memory, and the addresses written so far. -/
structure Store where
  bytes : Memory
  written : List Nat

/-- Write one byte. -/
def Store.put (a : Nat) (v : Byte) (st : Store) : Store :=
  ⟨writeByte st.bytes a v, a :: st.written⟩

/-- Write a word, which is four bytes. -/
def Store.putWord (a v : Nat) (st : Store) : Store :=
  ⟨writeWord st.bytes a v, a :: (a + 1) :: (a + 2) :: (a + 3) :: st.written⟩

theorem Store.bytes_put (a : Nat) (v : Byte) (st : Store) (b : Nat) :
    (st.put a v).bytes b = if b = a then v else st.bytes b := rfl

@[simp] theorem Store.bytes_put_same (a : Nat) (v : Byte) (st : Store) :
    (st.put a v).bytes a = v := if_pos rfl

theorem Store.bytes_put_of_ne {a b : Nat} (v : Byte) (st : Store) (h : b ≠ a) :
    (st.put a v).bytes b = st.bytes b := if_neg h

theorem Store.bytes_putWord_of_outside {a b : Nat} (v : Nat) (st : Store)
    (h : b < a ∨ a + 4 ≤ b) : (st.putWord a v).bytes b = st.bytes b :=
  writeWord_of_outside h

/-- A word that was read somewhere is written byte for byte. -/
theorem Store.bytes_putWord_readWord (m : Memory) (a s : Nat) (st : Store) {i : Nat}
    (hi : i < 4) : (st.putWord a (readWord m s)).bytes (a + i) = m (s + i) := by
  change writeWord st.bytes a (readWord m s) (a + i) = m (s + i)
  have h0 := (m s).isLt
  have h1 := (m (s + 1)).isLt
  have h2 := (m (s + 2)).isLt
  have h3 := (m (s + 3)).isLt
  unfold writeWord readWord
  obtain rfl | rfl | rfl | rfl : i = 0 ∨ i = 1 ∨ i = 2 ∨ i = 3 := by omega
  · rw [if_pos (by omega)]
    apply BitVec.eq_of_toNat_eq
    rw [BitVec.toNat_ofNat]
    change _ = (m s).toNat
    omega
  · rw [if_neg (by omega), if_pos rfl]
    apply BitVec.eq_of_toNat_eq
    rw [BitVec.toNat_ofNat]
    omega
  · rw [if_neg (by omega), if_neg (by omega), if_pos rfl]
    apply BitVec.eq_of_toNat_eq
    rw [BitVec.toNat_ofNat]
    omega
  · rw [if_neg (by omega), if_neg (by omega), if_neg (by omega), if_pos rfl]
    apply BitVec.eq_of_toNat_eq
    rw [BitVec.toNat_ofNat]
    omega

/-! ## Footprints -/

/-- What was written from `st` to `st'` lies in `P`. -/
structure Store.Writes (P : Nat → Prop) (st st' : Store) : Prop where
  log : ∃ new, st'.written = new ++ st.written ∧ ∀ a ∈ new, P a
  frame : ∀ a, ¬ P a → st'.bytes a = st.bytes a

namespace Store.Writes

variable {P Q : Nat → Prop} {st st' st'' : Store}

theorem refl (P : Nat → Prop) (st : Store) : Writes P st st where
  log := ⟨[], rfl, fun _ ha => absurd ha List.not_mem_nil⟩
  frame := fun _ _ => rfl

theorem trans (h : Writes P st st') (h' : Writes P st' st'') : Writes P st st'' where
  log := by
    obtain ⟨new, hnew, hin⟩ := h.log
    obtain ⟨new', hnew', hin'⟩ := h'.log
    refine ⟨new' ++ new, ?_, fun a ha => ?_⟩
    · rw [hnew', hnew, List.append_assoc]
    · rcases List.mem_append.mp ha with ha | ha
      · exact hin' a ha
      · exact hin a ha
  frame := fun a ha => (h'.frame a ha).trans (h.frame a ha)

theorem mono (h : Writes P st st') (hPQ : ∀ a, P a → Q a) : Writes Q st st' where
  log := by
    obtain ⟨new, hnew, hin⟩ := h.log
    exact ⟨new, hnew, fun a ha => hPQ a (hin a ha)⟩
  frame := fun a ha => h.frame a fun hP => ha (hPQ a hP)

/-- What was written in an interval was written in every interval around it. -/
theorem widen {lo hi lo' hi' : Nat} (h : Writes (fun a => lo ≤ a ∧ a < hi) st st')
    (hlo : lo' ≤ lo) (hhi : hi ≤ hi') : Writes (fun a => lo' ≤ a ∧ a < hi') st st' :=
  h.mono fun _ ha => ⟨Nat.le_trans hlo ha.1, Nat.lt_of_lt_of_le ha.2 hhi⟩

theorem put {a : Nat} (v : Byte) (st : Store) (ha : P a) : Writes P st (st.put a v) where
  log := ⟨[a], rfl, fun _ hb => List.mem_singleton.mp hb ▸ ha⟩
  frame := fun _ hb => Store.bytes_put_of_ne v st fun hba => hb (hba ▸ ha)

theorem putWord {a : Nat} (v : Nat) (st : Store) (ha : ∀ i < 4, P (a + i)) :
    Writes P st (st.putWord a v) where
  log := by
    refine ⟨[a, a + 1, a + 2, a + 3], rfl, fun b hb => ?_⟩
    simp only [List.mem_cons, List.not_mem_nil, or_false] at hb
    rcases hb with rfl | rfl | rfl | rfl
    · exact ha 0 (by decide)
    · exact ha 1 (by decide)
    · exact ha 2 (by decide)
    · exact ha 3 (by decide)
  frame := by
    intro b hb
    refine Store.bytes_putWord_of_outside v st ?_
    by_contra hin
    have hba : b = a + (b - a) := by omega
    exact hb (hba ▸ ha (b - a) (by omega))

/-- Only the addresses written count: a write outside `P` is never inside it. -/
theorem not_of_put {a : Nat} {v : Byte} (ha : ¬ P a) : ¬ Writes P st (st.put a v) := by
  intro h
  obtain ⟨new, hnew, hin⟩ := h.log
  have hnew' : [a] = new := List.append_cancel_right (hnew : [a] ++ st.written = new ++ st.written)
  exact ha (hin a (hnew' ▸ List.mem_cons_self))

end Store.Writes

/-- Nothing is known of what was written from `st` to `st'`. -/
def Store.Grows (st st' : Store) : Prop := st.Writes (fun _ => True) st'

theorem Store.Writes.grows {P : Nat → Prop} {st st' : Store} (h : st.Writes P st') :
    st.Grows st' := h.mono fun _ _ => trivial

/-- Between `st` and `st'` the address `a` was written. -/
def Store.Touches (a : Nat) (st st' : Store) : Prop :=
  ∃ new, st'.written = new ++ st.written ∧ a ∈ new

namespace Store.Touches

variable {P : Nat → Prop} {a : Nat} {st st' st'' : Store}

theorem put (a : Nat) (v : Byte) (st : Store) : Touches a st (st.put a v) :=
  ⟨[a], rfl, List.mem_singleton_self a⟩

theorem putWord {a i : Nat} (v : Nat) (st : Store) (hi : i < 4) :
    Touches (a + i) st (st.putWord a v) := by
  refine ⟨[a, a + 1, a + 2, a + 3], rfl, ?_⟩
  obtain rfl | rfl | rfl | rfl : i = 0 ∨ i = 1 ∨ i = 2 ∨ i = 3 := by omega
  all_goals simp

/-- It stays written. -/
theorem before (h : Touches a st st') (h' : st'.Writes P st'') : Touches a st st'' := by
  obtain ⟨new, hnew, ha⟩ := h
  obtain ⟨new', hnew', -⟩ := h'.log
  refine ⟨new' ++ new, ?_, List.mem_append_right new' ha⟩
  rw [hnew', hnew, List.append_assoc]

theorem behind (h' : st.Writes P st') (h : Touches a st' st'') : Touches a st st'' := by
  obtain ⟨new, hnew, -⟩ := h'.log
  obtain ⟨new', hnew', ha⟩ := h
  refine ⟨new' ++ new, ?_, List.mem_append_left new ha⟩
  rw [hnew', hnew, List.append_assoc]

/-- What was written lies in every footprint. -/
theorem mem (h : Touches a st st') (h' : st.Writes P st') : P a := by
  obtain ⟨new, hnew, ha⟩ := h
  obtain ⟨new', hnew', hin⟩ := h'.log
  exact hin a (List.append_cancel_right (hnew.symm.trans hnew') ▸ ha)

end Store.Touches

end DonutOS.Foundation
