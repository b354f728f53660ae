import DonutOS.Libc.StrSpec

set_option autoImplicit false

/-!
# Libc: words instead of bytes (`libc/src/string.c`)

`memcpy` and `memset` work a word at a time and finish with bytes; they leave what the
loops over bytes leave.  `memmove` to a higher address in the middle of its source goes
back word by word, but takes the bytes behind the last whole word at the end, when the
words may have overwritten them.
-/

namespace DonutOS.Libc

open DonutOS.Foundation

/-! ## `memset` -/

/-- `n` bytes at `ptr` are `c`, and nothing else was written. -/
structure Filled (ptr : Nat) (c : Byte) (n : Nat) (st st' : Store) : Prop where
  filled : ∀ i < n, st'.bytes (ptr + i) = c
  writes : st.Writes (fun a => ptr ≤ a ∧ a < ptr + n) st'
  touches : ∀ i < n, st.Touches (ptr + i) st'

theorem Filled.zero (ptr : Nat) (c : Byte) (st : Store) : Filled ptr c 0 st st where
  filled := fun i hi => absurd hi (Nat.not_lt_zero i)
  writes := .refl _ st
  touches := fun i hi => absurd hi (Nat.not_lt_zero i)

theorem Filled.append {ptr n k : Nat} {c : Byte} {st st' st'' : Store}
    (h : Filled ptr c n st st') (h' : Filled (ptr + n) c k st' st'') :
    Filled ptr c (n + k) st st'' where
  filled := by
    intro i hi
    by_cases hfirst : i < n
    · rw [h'.writes.frame (ptr + i) (by omega)]
      exact h.filled i hfirst
    · obtain ⟨j, rfl⟩ : ∃ j, i = n + j := ⟨i - n, by omega⟩
      rw [← Nat.add_assoc]
      exact h'.filled j (by omega)
  writes := .trans (h.writes.widen (by omega) (by omega)) (h'.writes.widen (by omega) (by omega))
  touches := by
    intro i hi
    by_cases hfirst : i < n
    · exact (h.touches i hfirst).before h'.writes
    · obtain ⟨j, rfl⟩ : ∃ j, i = n + j := ⟨i - n, by omega⟩
      rw [← Nat.add_assoc]
      exact .behind h.writes (h'.touches j (by omega))

theorem filled_put (ptr : Nat) (c : Byte) (st : Store) : Filled ptr c 1 st (st.put ptr c) where
  filled := by
    intro i hi
    obtain rfl : i = 0 := by omega
    exact Store.bytes_put_same _ _ _
  writes := .put _ _ ⟨Nat.le_refl _, Nat.lt_succ_self _⟩
  touches := by
    intro i hi
    obtain rfl : i = 0 := by omega
    exact .put _ _ _

/-- The fill word is the byte four times. -/
theorem cArch_eq (c : Byte) : cArch c = readWord (fun _ => c) 0 := by
  revert c
  decide +kernel

theorem filled_putWord (ptr : Nat) (c : Byte) (st : Store) :
    Filled ptr c 4 st (st.putWord ptr (cArch c)) where
  filled := by
    intro i hi
    rw [cArch_eq]
    exact Store.bytes_putWord_readWord _ _ _ _ hi
  writes := .putWord _ _ fun _ hi => ⟨Nat.le_add_right _ _, Nat.add_lt_add_left hi _⟩
  touches := fun _ hi => .putWord _ _ hi

theorem setBytes_spec (ptr : Nat) (c : Byte) (n : Nat) (st : Store) :
    Filled ptr c n st (setBytes ptr c n st) := by
  have hloop := forLoop_invariant (fun i st' => Filled ptr c i st st')
    (f := fun i st => st.put (ptr + i) c) n 0 st (.zero ptr c st)
    fun i st' _ _ h => h.append (filled_put _ _ _)
  rwa [Nat.zero_add] at hloop

theorem setWords_spec (ptr : Nat) (c : Byte) (n : Nat) (st : Store) :
    Filled ptr c (4 * n) st (setWords ptr (cArch c) n st) := by
  have hloop := forLoop_invariant (fun i st' => Filled ptr c (4 * i) st st')
    (f := fun i st => st.putWord (ptr + 4 * i) (cArch c)) n 0 st (.zero ptr c st)
    fun i st' _ _ h => h.append (filled_putWord _ _ _)
  rwa [Nat.zero_add] at hloop

theorem memset_spec (ptr : Nat) (c : Byte) (n : Nat) (st : Store) :
    Filled ptr c n st (memset ptr c n st) := by
  have hall := (setWords_spec ptr c (n / 4) st).append
    (setBytes_spec (ptr + 4 * (n / 4)) c (n % 4) _)
  rwa [Nat.div_add_mod] at hall

/-! ## The loops over bytes -/

theorem Copied.bytes_eq {dest src n : Nat} {st st' st'' : Store} (h : Copied dest src n st st')
    (h' : Copied dest src n st st'') : st'.bytes = st''.bytes := by
  funext a
  by_cases hin : dest ≤ a ∧ a < dest + n
  · obtain ⟨i, rfl⟩ : ∃ i, a = dest + i := ⟨a - dest, by omega⟩
    rw [h.copied i (by omega), h'.copied i (by omega)]
  · rw [h.writes.frame a hin, h'.writes.frame a hin]

theorem Filled.bytes_eq {ptr n : Nat} {c : Byte} {st st' st'' : Store}
    (h : Filled ptr c n st st') (h' : Filled ptr c n st st'') : st'.bytes = st''.bytes := by
  funext a
  by_cases hin : ptr ≤ a ∧ a < ptr + n
  · obtain ⟨i, rfl⟩ : ∃ i, a = ptr + i := ⟨a - ptr, by omega⟩
    rw [h.filled i (by omega), h'.filled i (by omega)]
  · rw [h.writes.frame a hin, h'.writes.frame a hin]

/-- `memcpy` between regions that do not overlap, and `memset`, leave the memory that the
loops over bytes leave, and write only inside the destination. -/
theorem memcpy_memset_bytes (dest n : Nat) (st : Store) :
    (∀ src, dest + n ≤ src ∨ src + n ≤ dest →
      (memcpy dest src n st).bytes = (moveBytes dest src n st).bytes ∧
        st.Writes (fun a => dest ≤ a ∧ a < dest + n) (memcpy dest src n st)) ∧
      ∀ c, (memset dest c n st).bytes = (setBytes dest c n st).bytes ∧
        st.Writes (fun a => dest ≤ a ∧ a < dest + n) (memset dest c n st) := by
  refine ⟨fun src hapart => ?_, fun c => ?_⟩
  · have hdown : dest ≤ src ∨ src + n ≤ dest := by omega
    have hcopy := memcpy_spec hdown st
    exact ⟨hcopy.bytes_eq (moveBytes_spec hdown st), hcopy.writes⟩
  · have hfill := memset_spec dest c n st
    exact ⟨hfill.bytes_eq (setBytes_spec dest c n st), hfill.writes⟩

/-- Memory in which every byte of a page of 256 is different. -/
def countingStore : Store := ⟨fun a => BitVec.ofNat 8 a, []⟩

/-- Seven bytes: a word and three more. -/
theorem memcpy_memset_bytes_seven :
    (memcpy 8 1 7 countingStore).bytes = (moveBytes 8 1 7 countingStore).bytes ∧
      (List.range' 8 7).map (memcpy 8 1 7 countingStore).bytes = [1, 2, 3, 4, 5, 6, 7] ∧
      countingStore.Writes (fun a => 8 ≤ a ∧ a < 8 + 7) (memcpy 8 1 7 countingStore) ∧
      (memset 8 0xcc 7 countingStore).bytes = (setBytes 8 0xcc 7 countingStore).bytes ∧
      (List.range' 7 9).map (memset 8 0xcc 7 countingStore).bytes =
        [7, 0xcc, 0xcc, 0xcc, 0xcc, 0xcc, 0xcc, 0xcc, 15] ∧
      countingStore.Writes (fun a => 8 ≤ a ∧ a < 8 + 7) (memset 8 0xcc 7 countingStore) := by
  obtain ⟨hcopies, hfills⟩ := memcpy_memset_bytes 8 7 countingStore
  obtain ⟨hcopied, hcopyWrites⟩ := hcopies 1 (Or.inr (by decide))
  obtain ⟨hfilled, hfillWrites⟩ := hfills 0xcc
  exact ⟨hcopied, by decide, hcopyWrites, hfilled, by decide, hfillWrites⟩

/-! ## `memmove` to a higher address -/

/-- `memmove` goes back through its source. -/
def MovesUp (dest src n : Nat) : Prop := src < dest ∧ dest < src + n

instance (dest src n : Nat) : Decidable (MovesUp dest src n) :=
  inferInstanceAs (Decidable (src < dest ∧ dest < src + n))

/-- The words of the source from the `i`-th on have arrived. -/
structure WordsMoved (dest src words i : Nat) (st st' : Store) : Prop where
  copied : ∀ j, 4 * i ≤ j → j < 4 * words → st'.bytes (dest + j) = st.bytes (src + j)
  writes : st.Writes (fun a => dest + 4 * i ≤ a ∧ a < dest + 4 * words) st'

theorem WordsMoved.word {dest src words i : Nat} {st st' : Store} (hup : src < dest)
    (hi : 0 < i) (hwords : i ≤ words) (h : WordsMoved dest src words i st st') :
    WordsMoved dest src words (i - 1) st
      (st'.putWord (dest + 4 * (i - 1)) (readWord st'.bytes (src + 4 * (i - 1)))) where
  copied := by
    intro j hlo hhi
    by_cases hword : j < 4 * i
    · obtain ⟨k, rfl⟩ : ∃ k, j = 4 * (i - 1) + k := ⟨j - 4 * (i - 1), by omega⟩
      rw [← Nat.add_assoc, Store.bytes_putWord_readWord _ _ _ _ (by omega), ← Nat.add_assoc]
      exact h.writes.frame _ (by omega)
    · rw [Store.bytes_putWord_of_outside _ _ (by omega)]
      exact h.copied j (by omega) hhi
  writes := by
    refine .trans (h.writes.widen ?_ (Nat.le_refl _)) (.putWord _ _ fun j hj => ?_)
    · omega
    · exact ⟨by omega, by omega⟩

theorem wordsMoved {dest src : Nat} (hup : src < dest) (words : Nat) (st : Store) :
    WordsMoved dest src words 0 st (downLoop (fun i st =>
      st.putWord (dest + 4 * (i - 1)) (readWord st.bytes (src + 4 * (i - 1)))) words words st) := by
  have hstart : WordsMoved dest src words (0 + words) st st := by
    rw [Nat.zero_add]
    exact ⟨fun j hlo hhi => absurd hhi (Nat.not_lt_of_le hlo), .refl _ st⟩
  have hloop := downLoop_invariant (fun i st' => WordsMoved dest src words i st st') words 0 st
    hstart fun i st' hi hwords h => h.word hup hi (by omega)
  rwa [Nat.zero_add] at hloop

/-- The words have arrived and `t` bytes behind them are written.  Such a byte comes from
the source while that is as it was, else from what is written before it. -/
structure TailMoved (dest src n t : Nat) (st st' : Store) : Prop where
  words : ∀ j < 4 * (n / 4), st'.bytes (dest + j) = st.bytes (src + j)
  tail : ∀ j, 4 * (n / 4) ≤ j → j < 4 * (n / 4) + t →
    st'.bytes (dest + j) = if j < dest - src then st.bytes (src + j)
      else st'.bytes (dest + (j - (dest - src)))
  writes : st.Writes (fun a => dest ≤ a ∧ a < dest + (4 * (n / 4) + t)) st'

theorem TailMoved.byte {dest src n t : Nat} {st st' : Store} (hup : src < dest)
    (h : TailMoved dest src n t st st') :
    TailMoved dest src n (t + 1) st
      (st'.put (dest + 4 * (n / 4) + t) (st'.bytes (src + 4 * (n / 4) + t))) where
  words := by
    intro j hj
    rw [Store.bytes_put_of_ne _ _ (by omega)]
    exact h.words j hj
  tail := by
    intro j hlo hhi
    by_cases hlast : j = 4 * (n / 4) + t
    · rw [hlast, ← Nat.add_assoc, Store.bytes_put_same]
      split
      · -- the source ends before the destination: it is as it was
        rw [h.writes.frame _ (by omega), Nat.add_assoc]
      · rw [Store.bytes_put_of_ne _ _ (by omega)]
        exact congrArg _ (by omega)
    · rw [Store.bytes_put_of_ne _ _ (by omega), Store.bytes_put_of_ne _ _ (by omega)]
      exact h.tail j hlo (by omega)
  writes := .trans (h.writes.widen (by omega) (by omega)) (.put _ _ ⟨by omega, by omega⟩)

/-- Up through its source, `memmove` takes the bytes behind the last word from what it
has written. -/
theorem memmove_up {dest src n : Nat} (hup : MovesUp dest src n) (st : Store) :
    TailMoved dest src n (n % 4) st (memmove dest src n st) := by
  obtain ⟨hlo, hhi⟩ := hup
  have hwords := wordsMoved hlo (n / 4) st
  have hstart : TailMoved dest src n 0 st (downLoop
      (fun i st => st.putWord (dest + 4 * (i - 1)) (readWord st.bytes (src + 4 * (i - 1))))
      (n / 4) (n / 4) st) :=
    ⟨fun j hj => hwords.copied j (by omega) hj, fun j hlo hhi => absurd hhi (Nat.not_lt_of_le hlo),
      hwords.writes.widen (by omega) (by omega)⟩
  have hloop := forLoop_invariant (fun t st' => TailMoved dest src n t st st')
    (f := fun i st => st.put (dest + 4 * (n / 4) + i) (st.bytes (src + 4 * (n / 4) + i)))
    (n % 4) 0 _ hstart fun t st' _ _ h => h.byte hlo
  rw [Nat.zero_add] at hloop
  unfold memmove
  rw [if_neg (by omega), if_pos ⟨hlo, by omega⟩]
  exact hloop

/-- The bytes of the source behind its last whole word are those `dest - src` before
them. -/
def TailRepeats (dest src n : Nat) (m : Memory) : Prop :=
  ∀ j, 4 * (n / 4) ≤ j → j < n → dest - src ≤ j → m (src + j) = m (src + (j - (dest - src)))

theorem TailMoved.copied_iff {dest src n : Nat} {st st' : Store} (hup : MovesUp dest src n)
    (h : TailMoved dest src n (n % 4) st st') :
    Copied dest src n st st' ↔ TailRepeats dest src n st.bytes := by
  have hlen : 4 * (n / 4) + n % 4 = n := Nat.div_add_mod n 4
  obtain ⟨hlo, hhi⟩ := hup
  constructor
  · intro hcopy j hword hj hback
    have htail := h.tail j hword (by omega)
    rw [if_neg (by omega), hcopy.copied j hj, hcopy.copied _ (by omega)] at htail
    exact htail
  · intro hrepeat
    refine ⟨fun j hj => ?_, hlen ▸ h.writes⟩
    -- a byte of the tail is a copy of an earlier one
    induction j using Nat.strong_induction_on with
    | _ j ih =>
        by_cases hword : j < 4 * (n / 4)
        · exact h.words j hword
        · rw [h.tail j (by omega) (by omega)]
          split
          · rfl
          · next hback =>
              rw [ih (j - (dest - src)) (by omega) (by omega)]
              exact (hrepeat j (by omega) hj (by omega)).symm

/-- `memmove` copies what was at `src`, and writes nothing else, exactly when it does not
go up through its source or the bytes behind the last whole word repeat. -/
theorem memmove_copied_iff (dest src n : Nat) (st : Store) :
    Copied dest src n st (memmove dest src n st) ↔
      (MovesUp dest src n → TailRepeats dest src n st.bytes) := by
  by_cases hup : MovesUp dest src n
  · rw [(memmove_up hup st).copied_iff hup]
    exact ⟨fun h _ => h, fun h => h hup⟩
  · refine iff_of_true ?_ fun h => absurd h hup
    rcases Nat.lt_trichotomy dest src with hdown | rfl | hlo
    · exact memmove_spec hdown n st
    · unfold memmove
      rw [if_pos (Or.inl rfl)]
      exact ⟨fun _ _ => rfl, .refl _ st⟩
    · have hapart : dest ≤ src ∨ src + n ≤ dest := by
        unfold MovesUp at hup
        omega
      unfold memmove
      by_cases hnone : n = 0
      · rw [if_pos (Or.inr hnone), hnone]
        exact .zero dest src st
      · rw [if_neg (by omega), if_neg (by omega), if_neg (by omega)]
        exact memcpy_spec hapart st

/-- The numbers 1 to 5 at address 0. -/
def fiveBytes : Store := ⟨fun a => BitVec.ofNat 8 (a + 1), []⟩

/-- Five bytes moved up by one: the fourth arrives twice and the fifth is lost. -/
theorem memmove_loses_byte : ¬ Copied 1 0 5 fiveBytes (memmove 1 0 5 fiveBytes) := by
  intro h
  exact absurd (h.copied 4 (by decide)) (by decide)

end DonutOS.Libc
