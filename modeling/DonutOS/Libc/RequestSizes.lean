import DonutOS.Libc.Calloc

set_option autoImplicit false

/-!
# Libc: requests near `2 ^ 32`

`malloc` adds the header length and `calloc` multiplies, both in 32 bits.
`Serves` is what a caller expects of either, over all arguments; the two
theorems say for which heaps and arguments it is met.  A refused `calloc` also
counts as unmet when its zeroing loop, which starts at address 0 then, reaches
the first header.
-/

namespace DonutOS.Libc

open DonutOS.Foundation

/-- Two chains have the same used chunks at the same addresses. -/
def SameUsed (cs ds : List Chunk) : Prop :=
  ∀ x : Nat × Chunk, x.2.free = false → (x ∈ spans heapPtr ds ↔ x ∈ spans heapPtr cs)

/-- A request for `n` bytes on the heap of chain `cs` is met: the call returns,
a chain tiles the heap, and either the answer is `NULL` and the used chunks are
the old ones, or it is the payload of a new used chunk with room for `n`
bytes. -/
def Serves (n : Nat) (cs : List Chunk) : Option (Heap × Option Nat) → Prop
  | none => False
  | some (h, none) => ∃ ds, WellFormed h.mem ds ∧ SameUsed cs ds
  | some (h, some ptr) => ∃ ds y, WellFormed h.mem ds ∧ y.2.free = false ∧
      ptr = y.1 + sizeofAllocHeader ∧ n + sizeofAllocHeader ≤ y.2.size ∧
      y ∉ spans heapPtr cs ∧ ∀ x : Nat × Chunk, x.2.free = false →
        (x ∈ spans heapPtr ds ↔ x ∈ spans heapPtr cs ∨ x = y)

theorem SameUsed.refl (cs : List Chunk) : SameUsed cs cs := fun _ _ => Iff.rfl

/-- No block is longer than the heap. -/
theorem Serves.le_heapMaxSize {n ptr : Nat} {cs : List Chunk} {h : Heap}
    (hserves : Serves n cs (some (h, some ptr))) :
    n + sizeofAllocHeader ≤ heapMaxSize := by
  obtain ⟨ds, y, hwf, hused, -, hroom, -, hspans⟩ := hserves
  have hy := (hspans y hused).mpr (Or.inr rfl)
  have hbounds := mem_spans_bounds hy
  have htotal := hwf.total_eq
  omega

/-- A block found by first fit is what was asked for, and more memory may change
outside the headers. -/
theorem serves_of_firstFit {h : Heap} {cs : List Chunk} {size : Nat} {hole : Nat × Nat}
    {mem mem' : Memory} {used : Nat} (hwf : WellFormed h.mem cs)
    (hfit : firstFit (size + sizeofAllocHeader) heapPtr cs = some hole)
    (hwf' : WellFormed mem (mallocChain size cs))
    (hsame : ∀ b, InHeader heapPtr (mallocChain size cs) b → mem' b = mem b) :
    Serves size cs (some (⟨mem', used⟩, some (hole.1 + sizeofAllocHeader))) := by
  refine ⟨mallocChain size cs, takenChunk size hole, ?_, rfl, rfl, ?_,
    takenChunk_not_mem hwf hfit, ?_⟩
  · refine ⟨hwf'.tiles.congr fun x hx => header_congr fun b hlo hhi => ?_, hwf'.size_ge⟩
    exact hsame b ⟨x, hx, hlo, hhi⟩
  · exact le_placedSize (mem_holes_of_firstFit hfit).2
  · intro x hused
    rw [mem_spans_mallocChain_iff hwf hused, hfit]
    refine or_congr_right ⟨?_, ?_⟩
    · rintro ⟨hole', hhole, rfl⟩
      rw [Option.some.injEq] at hhole
      rw [hhole]
      rfl
    · rintro rfl
      exact ⟨hole, rfl, rfl⟩

theorem sameUsed_of_firstFit_none {m : Memory} {cs : List Chunk} {size : Nat}
    (hwf : WellFormed m cs)
    (hfit : firstFit (size + sizeofAllocHeader) heapPtr cs = none) :
    SameUsed cs (mallocChain size cs) := by
  intro x hused
  rw [mem_spans_mallocChain_iff hwf hused, hfit]
  simp

/-! ## `malloc` -/

theorem exists_free_or_used (cs : List Chunk) :
    (∃ c ∈ cs, c.free = true) ∨ ∀ c ∈ cs, c.free = false := by
  by_cases h : ∃ c ∈ cs, c.free = true
  · exact Or.inl h
  · refine Or.inr fun c hc => Bool.eq_false_iff.mpr fun hfree => h ⟨c, hc, hfree⟩

theorem serves_malloc_iff {h : Heap} {cs : List Chunk} {size : Nat}
    (hwf : WellFormed h.mem cs) (hlt : size < 2 ^ 32) :
    Serves size cs (malloc h size) ↔
      size + sizeofAllocHeader ≤ 2 ^ 32 ∨ ∀ c ∈ cs, c.free = false := by
  have hnull : Serves size cs (some (h, none)) := ⟨cs, hwf, SameUsed.refl cs⟩
  rcases Nat.lt_trichotomy (size + sizeofAllocHeader) (2 ^ 32) with hfits | heq | hwrap
  · refine iff_of_true ?_ (Or.inl (Nat.le_of_lt hfits))
    obtain ⟨h', hcall, hwf', -, -⟩ := malloc_spec hwf hfits
    rw [hcall]
    cases hfit : firstFit (size + sizeofAllocHeader) heapPtr cs with
    | none => exact ⟨_, hwf', sameUsed_of_firstFit_none hwf hfit⟩
    | some hole => exact serves_of_firstFit hwf hfit hwf' fun _ _ => rfl
  · refine iff_of_true ?_ (Or.inl (Nat.le_of_eq heq))
    rw [malloc_of_wrap h (by rw [heq, Nat.mod_self])]
    exact hnull
  · rcases exists_free_or_used cs with hfree | hused
    · obtain ⟨h', ptr, hcall⟩ := malloc_of_lt_header hwf hlt hwrap hfree
      refine iff_of_false ?_ ?_
      · rw [hcall]
        intro hserves
        have := hserves.le_heapMaxSize
        have := heapMaxSize_lt
        omega
      · rintro (hle | hall)
        · omega
        · obtain ⟨c, hc, hcfree⟩ := hfree
          rw [hall c hc] at hcfree
          exact Bool.noConfusion hcfree
    · refine iff_of_true ?_ (Or.inr hused)
      rw [malloc_of_used size hwf hused]
      exact hnull

/-! ## The word at the start of the heap -/

/-- The first chunk of a heap. -/
theorem WellFormed.exists_first {m : Memory} {cs : List Chunk} (hwf : WellFormed m cs) :
    (heapPtr, header m heapPtr) ∈ spans heapPtr cs := by
  cases cs with
  | nil =>
      have := hwf.total_eq
      exact absurd this (by decide)
  | cons c cs =>
      rw [hwf.tiles.1]
      exact List.mem_cons_self

/-- A chain with the same used chunks starts with the same header, or both start
with a free chunk. -/
theorem header_of_sameUsed {m m' : Memory} {cs ds : List Chunk} (hwf : WellFormed m cs)
    (hwf' : WellFormed m' ds) (hsame : SameUsed cs ds) :
    header m' heapPtr = header m heapPtr ∨
      (allocIsFree m heapPtr = true ∧ allocIsFree m' heapPtr = true) := by
  have hfirst := hwf.exists_first
  have hfirst' := hwf'.exists_first
  cases hfree : allocIsFree m heapPtr with
  | false => exact Or.inl (hwf'.tiles.header_eq ((hsame _ hfree).mpr hfirst))
  | true =>
      cases hfree' : allocIsFree m' heapPtr with
      | false => exact Or.inl (hwf.tiles.header_eq ((hsame _ hfree').mp hfirst')).symm
      | true => exact Or.inr ⟨rfl, rfl⟩

/-- Zeroing memory from address 0 on clears the low bytes of the first word
reached. -/
theorem readWord_zeroBytes (m : Memory) {p k : Nat} (hroom : p + k ≤ 2 ^ 32) :
    readWord (zeroBytes 0 (p + k) m) p = readWord m p / 256 ^ k * 256 ^ k := by
  have hbyte : ∀ b, zeroBytes 0 (p + k) m b = if b < p + k then 0 else m b := by
    intro b
    rw [zeroBytes_apply (by omega)]
    exact if_congr (by omega) rfl rfl
  have hlt := readWord_lt m p
  have h0 := (m p).isLt
  have h1 := (m (p + 1)).isLt
  have h2 := (m (p + 2)).isLt
  have h3 := (m (p + 3)).isLt
  rcases k with _ | _ | _ | _ | k
  · rw [Nat.pow_zero, Nat.div_one, Nat.mul_one]
    refine readWord_congr fun b hlo _ => ?_
    rw [hbyte, if_neg (by omega)]
  · unfold readWord
    simp only [hbyte]
    rw [if_pos (by omega), if_neg (by omega), if_neg (by omega), if_neg (by omega)]
    simp only [BitVec.ofNat_eq_ofNat, BitVec.toNat_ofNat]
    omega
  · unfold readWord
    simp only [hbyte]
    rw [if_pos (by omega), if_pos (by omega), if_neg (by omega), if_neg (by omega)]
    simp only [BitVec.ofNat_eq_ofNat, BitVec.toNat_ofNat]
    omega
  · unfold readWord
    simp only [hbyte]
    rw [if_pos (by omega), if_pos (by omega), if_pos (by omega), if_neg (by omega)]
    simp only [BitVec.ofNat_eq_ofNat, BitVec.toNat_ofNat]
    omega
  · have hbig : readWord m p < 256 ^ (k + 1 + 1 + 1 + 1) := by
      refine Nat.lt_of_lt_of_le hlt ?_
      calc 2 ^ 32 = 256 ^ 4 := by decide
        _ ≤ 256 ^ (k + 4) := Nat.pow_le_pow_right (by decide) (Nat.le_add_left 4 k)
    rw [Nat.div_eq_of_lt hbig, Nat.zero_mul]
    unfold readWord
    simp only [hbyte]
    rw [if_pos (by omega), if_pos (by omega), if_pos (by omega), if_pos (by omega)]
    rfl

/-- An odd word has a nonzero low byte. -/
theorem eq_zero_of_odd {w k : Nat} (hodd : w % 2 = 1) (hclear : w % 256 ^ k = 0) :
    k = 0 := by
  cases k with
  | zero => rfl
  | succ k =>
      have hpow : 256 ^ (k + 1) = 2 * (128 * 256 ^ k) := by
        rw [Nat.pow_succ]
        omega
      have htwo : 2 ∣ w :=
        Nat.dvd_trans ⟨128 * 256 ^ k, hpow⟩ (Nat.dvd_of_mod_eq_zero hclear)
      omega

theorem readWord_odd_of_free {m : Memory} {p : Nat} (hfree : allocIsFree m p = true) :
    readWord m p % 2 = 1 := beq_iff_eq.mp hfree

/-- Zeroing up to the end of the first header leaves the chain, if the first word
stays what it was. -/
theorem WellFormed.zeroBytes {m : Memory} {ds : List Chunk} {bytes : Nat}
    (hwf : WellFormed m ds) (hreach : bytes ≤ heapPtr + 4)
    (hword : readWord (zeroBytes 0 bytes m) heapPtr = readWord m heapPtr) :
    WellFormed (Libc.zeroBytes 0 bytes m) ds := by
  refine ⟨hwf.tiles.congr fun x hx => ?_, hwf.size_ge⟩
  have hfirst := hwf.exists_first
  have hsize := hwf.size_ge _ (chunk_mem_of_mem_spans hfirst)
  have hxsize := hwf.size_ge x.2 (chunk_mem_of_mem_spans hx)
  have hlow := (mem_spans_bounds hx).1
  simp only [sizeofAllocHeader] at hsize hxsize
  rcases eq_or_apart_of_mem_spans hx hfirst with rfl | hapart | hapart
  · unfold header allocIsFree allocSize
    rw [hword]
  · simp only at hapart
    omega
  · simp only at hapart
    refine header_congr fun b hlo _ => ?_
    have hroom : 0 + bytes ≤ 2 ^ 32 := by
      simp only [heapPtr, heapAddress] at hreach
      omega
    rw [zeroBytes_apply hroom, if_neg (by omega)]

/-! ## `calloc` -/

/-- A `calloc` answered with `NULL` zeroes memory from address 0 on.  The chain
survives exactly when that changes nothing in the first header. -/
theorem serves_zeroBytes_iff {m : Memory} {h : Heap} {cs ds : List Chunk} {n bytes : Nat}
    (hwf : WellFormed m cs) (hwf' : WellFormed h.mem ds) (hsame : SameUsed cs ds)
    (hlt : bytes < 2 ^ 32) :
    Serves n cs (some ({ h with mem := zeroBytes 0 bytes h.mem }, none)) ↔
      readWord m heapPtr % 256 ^ (bytes - heapPtr) = 0 := by
  by_cases hreach : heapPtr ≤ bytes
  · obtain ⟨k, rfl⟩ := Nat.exists_eq_add_of_le hreach
    rw [Nat.add_sub_cancel_left]
    have hword := readWord_zeroBytes h.mem (Nat.le_of_lt hlt)
    constructor
    · rintro ⟨es, hzeroed, hkept⟩
      have hclear : readWord (zeroBytes 0 (heapPtr + k) h.mem) heapPtr % 256 ^ k = 0 := by
        rw [hword, Nat.mul_mod_left]
      rcases header_of_sameUsed hwf hzeroed hkept with heq | ⟨-, hfree⟩
      · rw [← readWord_eq_of_header heq]
        exact hclear
      · -- the word of a free chunk is odd, so no byte of it was zeroed
        rw [eq_zero_of_odd (readWord_odd_of_free hfree) hclear]
        exact Nat.mod_one _
    · intro hclear
      have hsize := hwf.size_ge _ (chunk_mem_of_mem_spans hwf.exists_first)
      simp only [header_size, allocSize, sizeofAllocHeader] at hsize
      have hk : k < 4 := by
        have hle := Nat.le_of_dvd (by omega) (Nat.dvd_of_mod_eq_zero hclear)
        refine (Nat.pow_lt_pow_iff_right (show 1 < 256 by decide)).mp ?_
        calc 256 ^ k ≤ readWord m heapPtr := hle
          _ < 2 ^ 32 := readWord_lt m heapPtr
      refine ⟨ds, hwf'.zeroBytes (by omega) ?_, hsame⟩
      rw [hword]
      refine Nat.div_mul_cancel (Nat.dvd_of_mod_eq_zero ?_)
      rcases header_of_sameUsed hwf hwf' hsame with heq | ⟨hfree, -⟩
      · rw [readWord_eq_of_header heq]
        exact hclear
      · rw [eq_zero_of_odd (readWord_odd_of_free hfree) hclear]
        exact Nat.mod_one _
  · rw [show bytes - heapPtr = 0 by omega]
    refine iff_of_true ⟨ds, hwf'.zeroBytes (by omega) ?_, hsame⟩ (Nat.mod_one _)
    refine readWord_congr fun b hlo _ => ?_
    rw [zeroBytes_apply (by omega), if_neg (by omega)]

/-- When `calloc` does what is expected of it. -/
def CallocMet (m : Memory) (cs : List Chunk) (size regSize : Nat) : Prop :=
  let bytes := size * regSize % 2 ^ 32
  ((∃ run, RunFits cs (bytes + sizeofAllocHeader) run) ∧ size * regSize < 2 ^ 32) ∨
    (¬ (∃ run, RunFits cs (bytes + sizeofAllocHeader) run) ∧
      readWord m heapPtr % 256 ^ (bytes - heapPtr) = 0)

/-- The bytes `calloc` zeroes are payload bytes of the chunk it was given. -/
theorem zeroBytes_of_inHeader {m : Memory} {cs : List Chunk} {size : Nat}
    {hole : Nat × Nat} {b : Nat} (hwf : WellFormed m (mallocChain size cs))
    (htaken : takenChunk size hole ∈ spans heapPtr (mallocChain size cs))
    (hlen : size + sizeofAllocHeader ≤ (takenChunk size hole).2.size)
    (hb : InHeader heapPtr (mallocChain size cs) b) :
    zeroBytes (hole.1 + sizeofAllocHeader) size m b = m b := by
  have hend := (mem_spans_bounds htaken).2
  have htop : heapPtr + total (mallocChain size cs) < 2 ^ 32 := by
    rw [hwf.total_eq]
    decide
  have hout : ¬ InPayload (takenChunk size hole) b := fun hin =>
    hin.not_inHeader hwf htaken hb
  unfold InPayload at hout
  unfold takenChunk at hend hlen hout
  simp only at hend hlen hout
  rw [zeroBytes_apply (by omega), if_neg (by omega)]

theorem serves_calloc_of_fits {h : Heap} {cs : List Chunk} {size regSize : Nat}
    {hole : Nat × Nat} (hwf : WellFormed h.mem cs)
    (hfit : firstFit (size * regSize % 2 ^ 32 + sizeofAllocHeader) heapPtr cs = some hole) :
    Serves (size * regSize) cs (calloc h size regSize) ↔ size * regSize < 2 ^ 32 := by
  have hmax := heapMaxSize_lt
  have hsize : size * regSize % 2 ^ 32 + sizeofAllocHeader < 2 ^ 32 := by
    obtain ⟨hmem, hlong⟩ := mem_holes_of_firstFit hfit
    have hbounds := mem_holes_bounds _ _ hole hmem
    have htotal := hwf.total_eq
    omega
  obtain ⟨h', hcall, hwf', -, -⟩ := malloc_spec hwf hsize
  rw [hfit] at hcall
  have hresult : calloc h size regSize = some
      (⟨zeroBytes (hole.1 + sizeofAllocHeader) (size * regSize % 2 ^ 32) h'.mem,
        h'.memoryUsed⟩, some (hole.1 + sizeofAllocHeader)) := by
    unfold calloc
    simp only
    rw [hcall]
    rfl
  rw [hresult]
  constructor
  · intro hserves
    have := hserves.le_heapMaxSize
    omega
  · intro hexact
    rw [Nat.mod_eq_of_lt hexact] at hcall hfit hwf' hsize ⊢
    obtain ⟨hole', hfit', -, -, htaken, hlen⟩ := malloc_some hwf hsize hcall
    rw [hfit, Option.some.injEq] at hfit'
    subst hfit'
    exact serves_of_firstFit hwf hfit hwf' fun b hb =>
      zeroBytes_of_inHeader hwf' htaken hlen hb

theorem serves_calloc_of_not_fits {h : Heap} {cs : List Chunk} {size regSize : Nat}
    (hwf : WellFormed h.mem cs)
    (hfit : firstFit (size * regSize % 2 ^ 32 + sizeofAllocHeader) heapPtr cs = none) :
    Serves (size * regSize) cs (calloc h size regSize) ↔
      readWord h.mem heapPtr % 256 ^ (size * regSize % 2 ^ 32 - heapPtr) = 0 := by
  have hlt : size * regSize % 2 ^ 32 < 2 ^ 32 := Nat.mod_lt _ (by decide)
  have hnull : ∀ h' ds, malloc h (size * regSize % 2 ^ 32) = some (h', none) →
      WellFormed h'.mem ds → SameUsed cs ds →
      (Serves (size * regSize) cs (calloc h size regSize) ↔
        readWord h.mem heapPtr % 256 ^ (size * regSize % 2 ^ 32 - heapPtr) = 0) := by
    intro h' ds hcall hwf' hsame
    unfold calloc
    simp only
    rw [hcall]
    exact serves_zeroBytes_iff hwf hwf' hsame hlt
  rcases Nat.lt_trichotomy (size * regSize % 2 ^ 32 + sizeofAllocHeader) (2 ^ 32) with
    hsize | heq | hwrap
  · obtain ⟨h', hcall, hwf', -, -⟩ := malloc_spec hwf hsize
    rw [hfit] at hcall
    exact hnull h' _ hcall hwf' (sameUsed_of_firstFit_none hwf hfit)
  · exact hnull h cs (malloc_of_wrap h (by rw [heq, Nat.mod_self])) hwf (SameUsed.refl cs)
  · rcases exists_free_or_used cs with hfree | hused
    · obtain ⟨h', ptr, hcall⟩ := malloc_of_lt_header hwf hlt hwrap hfree
      refine iff_of_false ?_ ?_
      · unfold calloc
        simp only
        rw [hcall]
        intro hserves
        have := hserves.le_heapMaxSize
        have := heapMaxSize_lt
        have := Nat.mod_le (size * regSize) (2 ^ 32)
        omega
      · intro hclear
        have hsize := hwf.size_ge _ (chunk_mem_of_mem_spans hwf.exists_first)
        simp only [header_size, allocSize, sizeofAllocHeader] at hsize hwrap
        have hle := Nat.le_of_dvd (by omega) (Nat.dvd_of_mod_eq_zero hclear)
        have hword := readWord_lt h.mem heapPtr
        have hlong : 4 ≤ size * regSize % 2 ^ 32 - heapPtr := by
          simp only [heapPtr, heapAddress]
          omega
        have hpow := Nat.pow_le_pow_right (show 0 < 256 by decide) hlong
        omega
    · exact hnull h cs (malloc_of_used _ hwf hused) hwf (SameUsed.refl cs)

theorem serves_calloc_iff {h : Heap} {cs : List Chunk} {size regSize : Nat}
    (hwf : WellFormed h.mem cs) :
    Serves (size * regSize) cs (calloc h size regSize) ↔
      CallocMet h.mem cs size regSize := by
  unfold CallocMet
  simp only
  cases hfit : firstFit (size * regSize % 2 ^ 32 + sizeofAllocHeader) heapPtr cs with
  | some hole =>
      have hrun : ∃ run, RunFits cs (size * regSize % 2 ^ 32 + sizeofAllocHeader) run :=
        ⟨hole, (firstFit_eq_some_imp hfit).1⟩
      rw [serves_calloc_of_fits hwf hfit]
      simp only [hrun, not_true, false_and, or_false, true_and]
  | none =>
      have hrun := firstFit_eq_none_iff.mp hfit
      rw [serves_calloc_of_not_fits hwf hfit]
      simp only [hrun, not_false_iff, false_and, false_or, true_and]

/-! ## Both calls -/

/-- A request is met by `malloc` unless adding the header wraps past zero with
something free, and by `calloc` unless the product wraps or the zeroing of a
refused request reaches the first header. -/
theorem requests_met_iff {h : Heap} {cs : List Chunk} (hwf : WellFormed h.mem cs) :
    (∀ size, size < 2 ^ 32 → (Serves size cs (malloc h size) ↔
      size + sizeofAllocHeader ≤ 2 ^ 32 ∨ ∀ c ∈ cs, c.free = false)) ∧
    ∀ size regSize, size < 2 ^ 32 → regSize < 2 ^ 32 →
      (Serves (size * regSize) cs (calloc h size regSize) ↔
        CallocMet h.mem cs size regSize) :=
  ⟨fun _ hsize => serves_malloc_iff hwf hsize, fun _ _ _ _ => serves_calloc_iff hwf⟩

theorem requests_met_iff_fresh :
    (∀ size, size < 2 ^ 32 →
      (Serves size [⟨true, heapMaxSize⟩] (malloc (heapInit ⟨fun _ => 0, 0⟩) size) ↔
        size + sizeofAllocHeader ≤ 2 ^ 32 ∨
          ∀ c ∈ ([⟨true, heapMaxSize⟩] : List Chunk), c.free = false)) ∧
    ∀ size regSize, size < 2 ^ 32 → regSize < 2 ^ 32 →
      (Serves (size * regSize) [⟨true, heapMaxSize⟩]
          (calloc (heapInit ⟨fun _ => 0, 0⟩) size regSize) ↔
        CallocMet (heapInit ⟨fun _ => 0, 0⟩).mem [⟨true, heapMaxSize⟩] size regSize) :=
  requests_met_iff (wellFormed_heapInit _)

/-- On a fresh heap `malloc(0xfffffffd)` answers with a block, and
`calloc(0x10000, 0x10000)` with one of no bytes at all. -/
theorem wrapped_requests_unmet :
    ¬ Serves 0xfffffffd [⟨true, heapMaxSize⟩] (malloc (heapInit ⟨fun _ => 0, 0⟩) 0xfffffffd) ∧
    ¬ Serves (0x10000 * 0x10000) [⟨true, heapMaxSize⟩]
      (calloc (heapInit ⟨fun _ => 0, 0⟩) 0x10000 0x10000) := by
  have hfresh := wellFormed_heapInit ⟨fun _ => 0, 0⟩
  refine ⟨?_, ?_⟩
  · rw [serves_malloc_iff hfresh (by decide)]
    rintro (hle | hused)
    · exact absurd hle (by decide)
    · exact Bool.noConfusion (hused _ List.mem_cons_self)
  · have hfit : firstFit (0x10000 * 0x10000 % 2 ^ 32 + sizeofAllocHeader) heapPtr
        [⟨true, heapMaxSize⟩] = some (heapPtr, heapMaxSize) :=
      firstFit_cons_fit heapPtr rfl (by decide)
    rw [serves_calloc_of_fits hfresh hfit]
    decide

end DonutOS.Libc
