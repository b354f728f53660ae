import DonutOS.Libc.Str

set_option autoImplicit false

/-!
# Libc: what the string functions do

A string is described by `StrAt`, a copy by `Copied`.  The callers use the lemmas
of this module and never unfold a loop.
-/

namespace DonutOS.Libc

open DonutOS.Foundation

/-! ## Strings in memory -/

/-- At `a` there is the string `cs`, with its NUL behind it. -/
def StrAt (m : Memory) : Nat → List Byte → Prop
  | a, [] => m a = 0
  | a, c :: cs => m a = c ∧ c ≠ 0 ∧ StrAt m (a + 1) cs

theorem StrAt.congr {m m' : Memory} {a : Nat} {cs : List Byte} (h : StrAt m a cs)
    (hsame : ∀ b, a ≤ b → b ≤ a + cs.length → m' b = m b) : StrAt m' a cs := by
  induction cs generalizing a with
  | nil => exact (hsame a (Nat.le_refl _) (Nat.le_refl _)).trans h
  | cons c cs ih =>
      obtain ⟨hc, hne, hcs⟩ := h
      rw [List.length_cons] at hsame
      refine ⟨(hsame a (Nat.le_refl _) (by omega)).trans hc, hne, ih hcs fun b hlo hhi => ?_⟩
      exact hsame b (by omega) (by omega)

/-- An address holds one string only. -/
theorem StrAt.unique {m : Memory} {a : Nat} {cs ds : List Byte} (h : StrAt m a cs)
    (h' : StrAt m a ds) : cs = ds := by
  induction cs generalizing a ds with
  | nil =>
      cases ds with
      | nil => rfl
      | cons d ds => exact absurd (h'.1.symm.trans h) h'.2.1
  | cons c cs ih =>
      cases ds with
      | nil => exact absurd (h.1.symm.trans h') h.2.1
      | cons d ds =>
          have hhead : c = d := h.1.symm.trans h'.1
          rw [hhead, ih h.2.2 h'.2.2]

theorem StrAt.nul {m : Memory} {a : Nat} {cs : List Byte} (h : StrAt m a cs) :
    m (a + cs.length) = 0 := by
  induction cs generalizing a with
  | nil => exact h
  | cons c cs ih =>
      have hrest := ih h.2.2
      rwa [Nat.add_assoc, Nat.add_comm 1] at hrest

theorem StrAt.get {m : Memory} {a : Nat} {cs : List Byte} (h : StrAt m a cs) {i : Nat}
    (hi : i < cs.length) : m (a + i) = cs[i] := by
  induction cs generalizing a i with
  | nil => exact absurd hi (Nat.not_lt_zero i)
  | cons c cs ih =>
      cases i with
      | zero => exact h.1
      | succ i =>
          have hrest := ih h.2.2 (Nat.lt_of_succ_lt_succ hi)
          rwa [Nat.add_assoc, Nat.add_comm 1] at hrest

theorem StrAt.ne_zero {m : Memory} {a : Nat} {cs : List Byte} (h : StrAt m a cs) :
    ∀ c ∈ cs, c ≠ 0 := by
  induction cs generalizing a with
  | nil => exact fun c hc => absurd hc List.not_mem_nil
  | cons c cs ih =>
      intro d hd
      rcases List.mem_cons.mp hd with rfl | hd
      · exact h.2.1
      · exact ih h.2.2 d hd

theorem StrAt.head_ne {m : Memory} {a : Nat} {cs : List Byte} (h : StrAt m a cs)
    (hne : cs ≠ []) : m a ≠ 0 := by
  cases cs with
  | nil => exact absurd rfl hne
  | cons c cs =>
      rw [h.1]
      exact h.2.1

/-- Every address with a NUL somewhere behind it holds a string. -/
theorem exists_strAt {m : Memory} {a n : Nat} (h : m (a + n) = 0) :
    ∃ cs, StrAt m a cs ∧ cs.length ≤ n := by
  induction n generalizing a with
  | zero => exact ⟨[], h, Nat.le_refl _⟩
  | succ n ih =>
      by_cases hnul : m a = 0
      · exact ⟨[], hnul, Nat.zero_le _⟩
      · rw [← Nat.add_assoc, Nat.add_right_comm] at h
        obtain ⟨cs, hcs, hlen⟩ := ih h
        exact ⟨m a :: cs, ⟨rfl, hnul, hcs⟩, Nat.succ_le_succ hlen⟩

/-- The bytes of a list without NUL, and a NUL behind them. -/
theorem strAt_of_get {m : Memory} {a : Nat} {cs : List Byte} (hne : ∀ c ∈ cs, c ≠ 0)
    (hget : ∀ i (hi : i < cs.length), m (a + i) = cs[i]) (hnul : m (a + cs.length) = 0) :
    StrAt m a cs := by
  induction cs generalizing a with
  | nil => exact hnul
  | cons c cs ih =>
      refine ⟨hget 0 (Nat.succ_pos _), hne c List.mem_cons_self, ih ?_ ?_ ?_⟩
      · exact fun d hd => hne d (List.mem_cons_of_mem _ hd)
      · intro i hi
        have hindex : a + 1 + i = a + (i + 1) := by omega
        rw [hindex]
        exact hget (i + 1) (Nat.succ_lt_succ hi)
      · rwa [List.length_cons, Nat.add_comm cs.length, ← Nat.add_assoc] at hnul

/-! ## `strlen`, `strcmp`, `strcpy` -/

theorem strlenLoop_eq {m : Memory} {str : Nat} {cs : List Byte} :
    ∀ {fuel len : Nat}, StrAt m (str + len) cs → cs.length < fuel →
      strlenLoop m str fuel len = len + cs.length := by
  induction cs with
  | nil =>
      intro fuel len h hfuel
      obtain ⟨fuel, rfl⟩ : ∃ k, fuel = k + 1 := ⟨fuel - 1, by omega⟩
      have hnul : m (str + len) = 0 := h
      rw [strlenLoop, hnul, if_neg (not_not.mpr rfl)]
      rfl
  | cons c cs ih =>
      intro fuel len h hfuel
      obtain ⟨hc, hne, hcs⟩ := h
      rw [List.length_cons] at hfuel ⊢
      obtain ⟨fuel, rfl⟩ : ∃ k, fuel = k + 1 := ⟨fuel - 1, by omega⟩
      rw [strlenLoop, if_pos (hc ▸ hne), ih hcs (Nat.lt_of_succ_lt_succ hfuel)]
      omega

theorem strlen_eq {m : Memory} {str : Nat} {cs : List Byte} (h : StrAt m str cs)
    (hlen : cs.length < stringFuel) : strlen m str = cs.length := by
  unfold strlen
  rw [strlenLoop_eq h hlen, Nat.zero_add]

theorem strlenLoop_nul {m : Memory} {str : Nat} :
    ∀ {fuel len : Nat}, strlenLoop m str fuel len < len + fuel →
      m (str + strlenLoop m str fuel len) = 0 := by
  intro fuel
  induction fuel with
  | zero => exact fun h => absurd h (Nat.lt_irrefl _)
  | succ fuel ih =>
      intro len h
      rw [strlenLoop] at h ⊢
      split at h
      · next hne =>
          rw [if_pos hne]
          exact ih (by omega)
      · next hnul =>
          rw [if_neg hnul]
          exact not_not.mp hnul

/-- A string that `strlen` has found the end of. -/
theorem exists_strAt_strlen {m : Memory} {str : Nat} (h : strlen m str < stringFuel) :
    ∃ cs, StrAt m str cs ∧ cs.length = strlen m str := by
  have hnul : m (str + strlen m str) = 0 := strlenLoop_nul ((Nat.zero_add stringFuel).symm ▸ h)
  obtain ⟨cs, hcs, hlen⟩ := exists_strAt hnul
  exact ⟨cs, hcs, (strlen_eq hcs (Nat.lt_of_le_of_lt hlen h)).symm⟩

theorem strcmpLoop_eq_zero_iff {m : Memory} {cs : List Byte} :
    ∀ {fuel a b : Nat} {ds : List Byte}, StrAt m a cs → StrAt m b ds → cs.length < fuel →
      (strcmpLoop m fuel a b = 0 ↔ cs = ds) := by
  have hsub : ∀ {c d : Byte}, c ≠ d → c.toInt - d.toInt ≠ 0 := by
    intro c d hne heq
    exact hne (BitVec.eq_of_toInt_eq (Int.sub_eq_zero.mp heq))
  induction cs with
  | nil =>
      intro fuel a b ds h h' hfuel
      obtain ⟨fuel, rfl⟩ : ∃ k, fuel = k + 1 := ⟨fuel - 1, by omega⟩
      have hnul : m a = 0 := h
      rw [strcmpLoop]
      cases ds with
      | nil =>
          have hnul' : m b = 0 := h'
          rw [if_pos (hnul.trans hnul'.symm), if_pos hnul]
          exact iff_of_true rfl rfl
      | cons d ds =>
          have hne : m a ≠ m b := by
            rw [hnul, h'.1]
            exact h'.2.1.symm
          rw [if_neg hne]
          exact iff_of_false (hsub hne) (List.cons_ne_nil d ds).symm
  | cons c cs ih =>
      intro fuel a b ds h h' hfuel
      rw [List.length_cons] at hfuel
      obtain ⟨fuel, rfl⟩ : ∃ k, fuel = k + 1 := ⟨fuel - 1, by omega⟩
      obtain ⟨hc, hcne, hcs⟩ := h
      rw [strcmpLoop]
      cases ds with
      | nil =>
          have hnul' : m b = 0 := h'
          have hne : m a ≠ m b := by
            rw [hc, hnul']
            exact hcne
          rw [if_neg hne]
          exact iff_of_false (hsub hne) (List.cons_ne_nil c cs)
      | cons d ds =>
          by_cases heq : c = d
          · rw [if_pos (hc.trans (heq.trans h'.1.symm)), if_neg (hc ▸ hcne),
              ih hcs h'.2.2 (Nat.lt_of_succ_lt_succ hfuel), heq, List.cons.injEq]
            exact (and_iff_right rfl).symm
          · have hne : m a ≠ m b := by
              rw [hc, h'.1]
              exact heq
            rw [if_neg hne]
            exact iff_of_false (hsub hne) fun h => heq (List.cons.inj h).1

/-- `strcmp` answers `0` for equal strings only. -/
theorem strcmp_eq_zero_iff {m : Memory} {a b : Nat} {cs ds : List Byte} (h : StrAt m a cs)
    (h' : StrAt m b ds) (hlen : cs.length < stringFuel) : strcmp m a b = 0 ↔ cs = ds :=
  strcmpLoop_eq_zero_iff h h' hlen

theorem strcpyLoop_spec {cs : List Byte} :
    ∀ {fuel d s : Nat} {st : Store}, StrAt st.bytes s cs → (d ≤ s ∨ s + cs.length < d) →
      cs.length < fuel →
      StrAt (strcpyLoop fuel d s st).bytes d cs ∧
        st.Writes (fun a => d ≤ a ∧ a ≤ d + cs.length) (strcpyLoop fuel d s st) := by
  induction cs with
  | nil =>
      intro fuel d s st h _ hfuel
      obtain ⟨fuel, rfl⟩ : ∃ k, fuel = k + 1 := ⟨fuel - 1, by omega⟩
      have hnul : st.bytes s = 0 := h
      rw [strcpyLoop, hnul, if_neg (not_not.mpr rfl)]
      exact ⟨Store.bytes_put_same _ _ _, .put _ _ ⟨Nat.le_refl _, Nat.le_refl _⟩⟩
  | cons c cs ih =>
      intro fuel d s st h hapart hfuel
      obtain ⟨hc, hne, hcs⟩ := h
      rw [List.length_cons] at hfuel hapart ⊢
      obtain ⟨fuel, rfl⟩ : ∃ k, fuel = k + 1 := ⟨fuel - 1, by omega⟩
      rw [strcpyLoop, hc, if_pos hne]
      -- the rest of the source is not written by this round
      have hrest : StrAt (st.put d c).bytes (s + 1) cs :=
        hcs.congr fun b hlo hhi => Store.bytes_put_of_ne _ _ (by omega)
      obtain ⟨hcopy, hwrites⟩ := ih hrest (d := d + 1) (by omega) (Nat.lt_of_succ_lt_succ hfuel)
      refine ⟨⟨?_, hne, hcopy⟩, ?_⟩
      · rw [hwrites.frame d (by omega), Store.bytes_put_same]
      · refine .trans (.put _ _ ⟨Nat.le_refl _, by omega⟩) (hwrites.mono ?_)
        rintro a ⟨hlo, hhi⟩
        exact ⟨by omega, by omega⟩

/-- `strcpy`, onto itself or onto memory the string is not in. -/
theorem strcpy_spec {d s : Nat} {st : Store} {cs : List Byte} (h : StrAt st.bytes s cs)
    (hapart : d ≤ s ∨ s + cs.length < d) (hlen : cs.length < stringFuel) :
    StrAt (strcpy d s st).bytes d cs ∧
      st.Writes (fun a => d ≤ a ∧ a ≤ d + cs.length) (strcpy d s st) :=
  strcpyLoop_spec h hapart hlen

/-- Every byte up to the NUL is written. -/
theorem strcpyLoop_touches {cs : List Byte} :
    ∀ {fuel d s : Nat} {st : Store}, StrAt st.bytes s cs → (d ≤ s ∨ s + cs.length < d) →
      cs.length < fuel → ∀ i ≤ cs.length, st.Touches (d + i) (strcpyLoop fuel d s st) := by
  induction cs with
  | nil =>
      intro fuel d s st h _ hfuel i hi
      obtain ⟨fuel, rfl⟩ : ∃ k, fuel = k + 1 := ⟨fuel - 1, by omega⟩
      obtain rfl : i = 0 := Nat.le_zero.mp hi
      have hnul : st.bytes s = 0 := h
      rw [strcpyLoop, hnul, if_neg (not_not.mpr rfl)]
      exact .put _ _ _
  | cons c cs ih =>
      intro fuel d s st h hapart hfuel i hi
      obtain ⟨hc, hne, hcs⟩ := h
      rw [List.length_cons] at hfuel hapart hi
      obtain ⟨fuel, rfl⟩ : ∃ k, fuel = k + 1 := ⟨fuel - 1, by omega⟩
      rw [strcpyLoop, hc, if_pos hne]
      have hrest : StrAt (st.put d c).bytes (s + 1) cs :=
        hcs.congr fun b hlo hhi => Store.bytes_put_of_ne _ _ (by omega)
      have happart : d + 1 ≤ s + 1 ∨ s + 1 + cs.length < d + 1 := by omega
      cases i with
      | zero =>
          have hwrites := (strcpyLoop_spec hrest happart (Nat.lt_of_succ_lt_succ hfuel)).2
          exact (Store.Touches.put d c st).before hwrites
      | succ i =>
          have haddr : d + (i + 1) = d + 1 + i := by omega
          rw [haddr]
          exact .behind (.put (P := fun _ => True) c st trivial)
            (ih hrest happart (Nat.lt_of_succ_lt_succ hfuel) i (by omega))

theorem strcpy_touches {d s : Nat} {st : Store} {cs : List Byte} (h : StrAt st.bytes s cs)
    (hapart : d ≤ s ∨ s + cs.length < d) (hlen : cs.length < stringFuel) :
    ∀ i ≤ cs.length, st.Touches (d + i) (strcpy d s st) :=
  strcpyLoop_touches h hapart hlen

/-! ## Copies -/

/-- `n` bytes at `dest` are those that were at `src`, and nothing else was written. -/
structure Copied (dest src n : Nat) (st st' : Store) : Prop where
  copied : ∀ i < n, st'.bytes (dest + i) = st.bytes (src + i)
  writes : st.Writes (fun a => dest ≤ a ∧ a < dest + n) st'

/-- The copy of a string with its NUL. -/
theorem Copied.string {dest src n : Nat} {st st' : Store} (h : Copied dest src n st st')
    {cs : List Byte} (hcs : StrAt st.bytes src cs) (hlen : cs.length < n) :
    StrAt st'.bytes dest cs := by
  refine strAt_of_get hcs.ne_zero (fun i hi => ?_) ?_
  · rw [h.copied i (Nat.lt_trans hi hlen)]
    exact hcs.get hi
  · rw [h.copied _ hlen]
    exact hcs.nul

theorem Copied.zero (dest src : Nat) (st : Store) : Copied dest src 0 st st where
  copied := fun i hi => absurd hi (Nat.not_lt_zero i)
  writes := .refl _ st

/-- A copy goes on behind another: what is behind the source was not written when
the copy goes down or to another place. -/
theorem Copied.append {dest src n k : Nat} {st st' st'' : Store}
    (hapart : dest ≤ src ∨ src + (n + k) ≤ dest) (h : Copied dest src n st st')
    (h' : Copied (dest + n) (src + n) k st' st'') : Copied dest src (n + k) st st'' where
  copied := by
    intro i hi
    by_cases hfirst : i < n
    · rw [h'.writes.frame (dest + i) (by omega)]
      exact h.copied i hfirst
    · obtain ⟨j, rfl⟩ : ∃ j, i = n + j := ⟨i - n, by omega⟩
      have hread : st'.bytes (src + n + j) = st.bytes (src + n + j) :=
        h.writes.frame _ (by omega)
      rw [← Nat.add_assoc, ← Nat.add_assoc, h'.copied j (by omega), hread]
  writes := .trans (h.writes.widen (by omega) (by omega)) (h'.writes.widen (by omega) (by omega))

theorem copied_put (dest src : Nat) (st : Store) :
    Copied dest src 1 st (st.put dest (st.bytes src)) where
  copied := by
    intro i hi
    obtain rfl : i = 0 := by omega
    exact Store.bytes_put_same _ _ _
  writes := .put _ _ ⟨Nat.le_refl _, Nat.lt_succ_self _⟩

theorem copied_putWord (dest src : Nat) (st : Store) :
    Copied dest src 4 st (st.putWord dest (readWord st.bytes src)) where
  copied := fun _ hi => Store.bytes_putWord_readWord _ _ _ _ hi
  writes := .putWord _ _ fun _ hi => ⟨Nat.le_add_right _ _, Nat.add_lt_add_left hi _⟩

theorem moveBytes_spec {dest src n : Nat} (hapart : dest ≤ src ∨ src + n ≤ dest) (st : Store) :
    Copied dest src n st (moveBytes dest src n st) := by
  have hloop := forLoop_invariant (fun i st' => Copied dest src i st st')
    (f := fun i st => st.put (dest + i) (st.bytes (src + i))) n 0 st (.zero dest src st)
    fun i st' _ hi h => h.append (by omega) (copied_put _ _ _)
  rwa [Nat.zero_add] at hloop

theorem moveWords_spec {dest src n : Nat} (hapart : dest ≤ src ∨ src + 4 * n ≤ dest)
    (st : Store) : Copied dest src (4 * n) st (moveWords dest src n st) := by
  have hround : ∀ i st', 0 ≤ i → i < 0 + n → Copied dest src (4 * i) st st' →
      Copied dest src (4 * (i + 1)) st
        (st'.putWord (dest + 4 * i) (readWord st'.bytes (src + 4 * i))) := by
    intro i st' _ hi h
    have happend : dest ≤ src ∨ src + (4 * i + 4) ≤ dest := by omega
    exact h.append happend (copied_putWord _ _ _)
  have hloop := forLoop_invariant (fun i st' => Copied dest src (4 * i) st st') n 0 st
    (.zero dest src st) hround
  rwa [Nat.zero_add] at hloop

/-- Words first, then the bytes that are left. -/
theorem moveWords_moveBytes_spec {dest src n : Nat} (hapart : dest ≤ src ∨ src + n ≤ dest)
    (st : Store) :
    Copied dest src n st (moveBytes (dest + 4 * (n / 4)) (src + 4 * (n / 4)) (n % 4)
      (moveWords dest src (n / 4) st)) := by
  have happend : dest ≤ src ∨ src + (4 * (n / 4) + n % 4) ≤ dest := by omega
  have hwords : Copied dest src (4 * (n / 4)) st (moveWords dest src (n / 4) st) :=
    moveWords_spec (by omega) st
  have hbytes : Copied (dest + 4 * (n / 4)) (src + 4 * (n / 4)) (n % 4)
      (moveWords dest src (n / 4) st) (moveBytes (dest + 4 * (n / 4)) (src + 4 * (n / 4)) (n % 4)
        (moveWords dest src (n / 4) st)) := moveBytes_spec (by omega) _
  have hall := hwords.append happend hbytes
  rwa [Nat.div_add_mod] at hall

theorem memcpy_spec {dest src n : Nat} (hapart : dest ≤ src ∨ src + n ≤ dest) (st : Store) :
    Copied dest src n st (memcpy dest src n st) := moveWords_moveBytes_spec hapart st

/-- Wherever the source is, only the destination is written. -/
theorem memcpy_writes (dest src n : Nat) (st : Store) :
    st.Writes (fun a => dest ≤ a ∧ a < dest + n) (memcpy dest src n st) := by
  have hwords := forLoop_invariant
    (fun _ st' => st.Writes (fun a => dest ≤ a ∧ a < dest + n) st')
    (f := fun i st => st.putWord (dest + 4 * i) (readWord st.bytes (src + 4 * i))) (n / 4) 0 st
    (.refl _ st) fun i st' _ hi h => h.trans (.putWord _ _ fun j hj => ⟨by omega, by omega⟩)
  exact forLoop_invariant
    (fun _ st' => st.Writes (fun a => dest ≤ a ∧ a < dest + n) st')
    (f := fun i st => st.put (dest + 4 * (n / 4) + i) (st.bytes (src + 4 * (n / 4) + i)))
    (n % 4) 0 (moveWords dest src (n / 4) st) hwords
    fun i st' _ hi h => h.trans (.put _ _ ⟨by omega, by omega⟩)

/-- The first `k` bytes of a copy to a higher address, of which `done` bytes are made;
what is behind the `k` bytes of the source may be overwritten. -/
structure CopiedFront (dest src k done : Nat) (st st' : Store) : Prop where
  copied : ∀ i < k, i < done → st'.bytes (dest + i) = st.bytes (src + i)
  kept : ∀ i < k, st'.bytes (src + i) = st.bytes (src + i)

theorem CopiedFront.append {dest src k done n : Nat} {st st' st'' : Store}
    (hapart : src + k ≤ dest) (h : CopiedFront dest src k done st st')
    (h' : Copied (dest + done) (src + done) n st' st'') :
    CopiedFront dest src k (done + n) st st'' where
  copied := by
    intro i hi hdone
    by_cases hbefore : i < done
    · rw [h'.writes.frame _ (by omega)]
      exact h.copied i hi hbefore
    · obtain ⟨j, rfl⟩ : ∃ j, i = done + j := ⟨i - done, by omega⟩
      rw [← Nat.add_assoc, h'.copied j (by omega), Nat.add_assoc]
      exact h.kept _ hi
  kept := by
    intro i hi
    rw [h'.writes.frame _ (by omega)]
    exact h.kept i hi

/-- Whatever the size, the bytes of a source that ends before the destination arrive. -/
theorem memcpy_front {dest src k n : Nat} (hk : k ≤ n) (hapart : src + k ≤ dest) (st : Store) :
    ∀ i < k, (memcpy dest src n st).bytes (dest + i) = st.bytes (src + i) := by
  have hwords := forLoop_invariant (fun i st' => CopiedFront dest src k (4 * i) st st') (n / 4) 0 st
    ⟨fun i _ hi => absurd hi (Nat.not_lt_zero i), fun _ _ => rfl⟩
    fun i st' _ _ h => h.append hapart (copied_putWord _ _ _)
  rw [Nat.zero_add] at hwords
  have hbytes := forLoop_invariant
    (fun i st' => CopiedFront dest src k (4 * (n / 4) + i) st st') (n % 4) 0
    (moveWords dest src (n / 4) st) hwords fun i st' _ _ h => by
      have hone := h.append hapart (copied_put _ _ _)
      rwa [← Nat.add_assoc, ← Nat.add_assoc] at hone
  intro i hi
  rw [Nat.zero_add, Nat.div_add_mod] at hbytes
  exact hbytes.copied i hi (by omega)

/-- `memmove` to a lower address. -/
theorem memmove_spec {dest src : Nat} (hdown : dest < src) (n : Nat) (st : Store) :
    Copied dest src n st (memmove dest src n st) := by
  unfold memmove
  by_cases hnone : src = dest ∨ n = 0
  · obtain rfl : n = 0 := hnone.resolve_left (by omega)
    rw [if_pos hnone]
    exact .zero dest src st
  · rw [if_neg hnone, if_neg (by omega)]
    split
    · exact moveWords_moveBytes_spec (Or.inl (Nat.le_of_lt hdown)) st
    · exact memcpy_spec (Or.inl (Nat.le_of_lt hdown)) st

end DonutOS.Libc
