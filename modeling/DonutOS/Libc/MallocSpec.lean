import DonutOS.Foundation.FirstFit
import DonutOS.Libc.Malloc

set_option autoImplicit false

/-!
# Libc: what `malloc` and `free` do to a well-formed heap

`WellFormed m cs` ties memory to the abstract chain `cs`.  On such a heap every
call returns, and `malloc` and `free` are exactly first fit (`allocate`) and
`release` on the chain.  Each loop of the source has its own lemma; `malloc_spec`
and `free_spec` assemble them and are all that later modules use.
-/

namespace DonutOS.Libc

open DonutOS.Foundation

/-! ## Headers in memory -/

/-- The header stored at `p`. -/
def header (m : Memory) (p : Nat) : Chunk := ⟨allocIsFree m p, allocSize m p⟩

@[simp] theorem header_free (m : Memory) (p : Nat) :
    (header m p).free = allocIsFree m p := rfl

@[simp] theorem header_size (m : Memory) (p : Nat) :
    (header m p).size = allocSize m p := rfl

theorem header_congr {m m' : Memory} {p : Nat}
    (h : ∀ b, p ≤ b → b < p + 4 → m' b = m b) : header m' p = header m p := by
  unfold header allocIsFree allocSize
  rw [readWord_congr h]

/-- The header spells out the word. -/
theorem readWord_eq_of_header {m m' : Memory} {p : Nat}
    (h : header m' p = header m p) : readWord m' p = readWord m p := by
  have hfree : (readWord m' p % 2 == 1) = (readWord m p % 2 == 1) := congrArg Chunk.free h
  have hsize : readWord m' p / 2 = readWord m p / 2 := congrArg Chunk.size h
  rw [Bool.eq_iff_iff, beq_iff_eq, beq_iff_eq] at hfree
  omega

theorem setIsFree_of_outside {m : Memory} {p b : Nat} {f : Bool}
    (h : b < p ∨ p + 4 ≤ b) : setIsFree m p f b = m b :=
  writeWord_of_outside h

theorem setSize_of_outside {m : Memory} {p v b : Nat}
    (h : b < p ∨ p + 4 ≤ b) : setSize m p v b = m b :=
  writeWord_of_outside h

/-- Setting the flag keeps the size. -/
@[simp] theorem header_setIsFree (m : Memory) (p : Nat) (f : Bool) :
    header (setIsFree m p f) p = ⟨f, allocSize m p⟩ := by
  have hlt := readWord_lt m p
  have hword : readWord (setIsFree m p f) p = readWord m p / 2 * 2 + f.toNat := by
    have := Bool.toNat_le f
    rw [setIsFree, readWord_writeWord_same]
    exact Nat.mod_eq_of_lt (by omega)
  unfold header allocIsFree allocSize
  rw [hword]
  cases f
  · simp
  · simp only [Bool.toNat_true, Chunk.mk.injEq, beq_iff_eq]
    omega

/-- Setting the size keeps the flag, and stores a size below `2 ^ 31`
exactly. -/
theorem header_setSize {m : Memory} {p v : Nat} (hv : v < 2 ^ 31) :
    header (setSize m p v) p = ⟨allocIsFree m p, v⟩ := by
  have hword : readWord (setSize m p v) p = readWord m p % 2 + 2 * v := by
    rw [setSize, readWord_writeWord_same, Nat.mod_eq_of_lt hv]
    exact Nat.mod_eq_of_lt (by omega)
  unfold header allocIsFree allocSize
  rw [hword, Nat.add_mul_mod_self_left, Nat.mod_mod]
  congr 1
  omega

/-! ## Well-formed heaps -/

/-- Memory holds a chain of chunks, none shorter than its header, that tiles the
heap from `HEAP_PTR` to `STACK_BASE_PTR`. -/
structure WellFormed (m : Memory) (cs : List Chunk) : Prop where
  tiles : Tiles (header m) heapPtr cs stackBasePtr
  size_ge : ∀ c ∈ cs, sizeofAllocHeader ≤ c.size

theorem heapPtr_add_heapMaxSize : heapPtr + heapMaxSize = stackBasePtr := rfl

theorem heapMaxSize_lt : heapMaxSize < 2 ^ 31 := by decide

/-- A tail of the heap's chain: what the loops of the allocator walk over. -/
structure Tail (m : Memory) (p : Nat) (cs : List Chunk) : Prop where
  tiles : Tiles (header m) p cs stackBasePtr
  size_ge : ∀ c ∈ cs, sizeofAllocHeader ≤ c.size
  total_lt : total cs < 2 ^ 31

theorem WellFormed.total_eq {m : Memory} {cs : List Chunk} (h : WellFormed m cs) :
    total cs = heapMaxSize := by
  have := h.tiles.end_eq
  have := heapPtr_add_heapMaxSize
  omega

theorem WellFormed.tail {m : Memory} {cs : List Chunk} (h : WellFormed m cs) :
    Tail m heapPtr cs :=
  ⟨h.tiles, h.size_ge, by rw [h.total_eq]; exact heapMaxSize_lt⟩

theorem WellFormed.size_pos {m : Memory} {cs : List Chunk} (h : WellFormed m cs) :
    ∀ c ∈ cs, 0 < c.size :=
  fun c hc => Nat.lt_of_lt_of_le (by decide) (h.size_ge c hc)

/-- A heap is described by one chain only. -/
theorem WellFormed.unique {m : Memory} {cs ds : List Chunk}
    (hc : WellFormed m cs) (hd : WellFormed m ds) : cs = ds :=
  hc.tiles.unique hd.tiles hc.size_pos hd.size_pos

theorem Tail.end_eq {m : Memory} {p : Nat} {cs : List Chunk} (h : Tail m p cs) :
    p + total cs = stackBasePtr := h.tiles.end_eq.symm

theorem Tail.tail {m : Memory} {p : Nat} {c : Chunk} {cs : List Chunk}
    (h : Tail m p (c :: cs)) : Tail m (p + c.size) cs where
  tiles := h.tiles.2
  size_ge d hd := h.size_ge d (List.mem_cons_of_mem _ hd)
  total_lt := by
    have := h.total_lt
    simp only [total_cons] at this
    omega

theorem Tail.cons {m : Memory} {p : Nat} {c : Chunk} {cs : List Chunk}
    (hheader : header m p = c) (hsize : sizeofAllocHeader ≤ c.size)
    (h : Tail m (p + c.size) cs) (hlt : c.size + total cs < 2 ^ 31) : Tail m p (c :: cs) where
  tiles := ⟨hheader, h.tiles⟩
  size_ge d hd := by
    rcases List.mem_cons.mp hd with rfl | hd
    · exact hsize
    · exact h.size_ge d hd
  total_lt := by
    rw [total_cons]
    exact hlt

theorem Tail.header_eq {m : Memory} {p : Nat} {c : Chunk} {cs : List Chunk}
    (h : Tail m p (c :: cs)) : header m p = c := h.tiles.1

theorem Tail.allocIsFree_eq {m : Memory} {p : Nat} {c : Chunk} {cs : List Chunk}
    (h : Tail m p (c :: cs)) : allocIsFree m p = c.free :=
  congrArg Chunk.free h.header_eq

theorem Tail.allocSize_eq {m : Memory} {p : Nat} {c : Chunk} {cs : List Chunk}
    (h : Tail m p (c :: cs)) : allocSize m p = c.size :=
  congrArg Chunk.size h.header_eq

theorem Tail.lt_stackBasePtr {m : Memory} {p : Nat} {c : Chunk} {cs : List Chunk}
    (h : Tail m p (c :: cs)) : p < stackBasePtr := by
  have hend := h.end_eq
  have hsize := h.size_ge c List.mem_cons_self
  simp only [total_cons, sizeofAllocHeader] at hend hsize
  omega

theorem Tail.not_lt_of_nil {m : Memory} {p : Nat} (h : Tail m p []) :
    ¬ p < stackBasePtr := by
  have hend := h.end_eq
  simp only [total_nil] at hend
  omega

/-- A tail survives every change of memory below it. -/
theorem Tail.congr {m m' : Memory} {p : Nat} {cs : List Chunk} (h : Tail m p cs)
    (hsame : ∀ b, p ≤ b → m' b = m b) : Tail m' p cs where
  tiles := by
    refine h.tiles.congr fun x hx => header_congr fun b hlo _ => hsame b ?_
    exact Nat.le_trans (mem_spans_bounds hx).1 hlo
  size_ge := h.size_ge
  total_lt := h.total_lt

/-- The part of a tail after its leading free run. -/
theorem Tail.afterRun {m : Memory} {p : Nat} {cs : List Chunk} (h : Tail m p cs) :
    Tail m (p + total (freeRun cs)) (afterRun cs) where
  tiles := by
    have htiles := h.tiles
    rw [← List.takeWhile_append_dropWhile (p := (·.free)) (l := cs),
      tiles_append] at htiles
    exact htiles.2
  size_ge d hd := h.size_ge d (List.dropWhile_subset _ hd)
  total_lt := by
    have := total_freeRun_add_afterRun cs
    have := h.total_lt
    omega

/-- A chain has no more chunks than bytes, so the loops have fuel enough. -/
theorem Tail.length_lt_loopFuel {m : Memory} {p : Nat} {cs : List Chunk}
    (h : Tail m p cs) (hp : heapPtr ≤ p) : cs.length + 1 < loopFuel := by
  have hlen : sizeofAllocHeader * cs.length ≤ total cs := by
    clear hp
    induction cs generalizing p with
    | nil => simp
    | cons c cs ih =>
        have hc := h.size_ge c List.mem_cons_self
        have := ih h.tail
        simp only [total_cons, List.length_cons, Nat.mul_succ]
        omega
  have hend := h.end_eq
  simp only [sizeofAllocHeader, loopFuel, heapMaxSize, heapPtr, stackBasePtr,
    heapAddress, stackAddress] at *
  omega

/-! ## The loops -/

/-- The used chunks at the front of a chain. -/
abbrev usedRun (cs : List Chunk) : List Chunk := cs.takeWhile fun c => !c.free

/-- `__malloc_find_empty_space` stops after the leading used chunks. -/
theorem mallocFindEmptySpace_spec {m : Memory} {cs : List Chunk} :
    ∀ {fuel p : Nat}, Tail m p cs → cs.length < fuel →
      mallocFindEmptySpace m fuel p = some (p + total (usedRun cs)) := by
  induction cs with
  | nil =>
      intro fuel p h hfuel
      obtain ⟨fuel, rfl⟩ := Nat.exists_eq_add_of_lt hfuel
      rw [mallocFindEmptySpace, if_neg (fun hlt => h.not_lt_of_nil hlt.1)]
      simp
  | cons c cs ih =>
      intro fuel p h hfuel
      obtain ⟨fuel, rfl⟩ : ∃ k, fuel = k + 1 := ⟨fuel - 1, by omega⟩
      simp only [List.length_cons] at hfuel
      rw [mallocFindEmptySpace, h.allocIsFree_eq, h.allocSize_eq]
      cases hfree : c.free with
      | false =>
          rw [if_pos ⟨h.lt_stackBasePtr, rfl⟩, ih h.tail (by omega)]
          simp [usedRun, hfree, Nat.add_assoc]
      | true =>
          rw [if_neg (by simp)]
          simp [usedRun, hfree]

/-- The merging loop: the chunk at `p` grows by the free chunks that follow,
and only its header is written. -/
theorem mallocConcatLoop_spec {p : Nat} {f : Bool} {cs : List Chunk} :
    ∀ {fuel q acc : Nat} {m : Memory}, Tail m q cs → cs.length < fuel →
      header m p = ⟨f, acc⟩ → p + sizeofAllocHeader ≤ q →
      acc + total cs < 2 ^ 31 →
      ∃ m', mallocConcatLoop p fuel m q = some m' ∧
        header m' p = ⟨f, acc + total (freeRun cs)⟩ ∧
        ∀ b, b < p ∨ p + 4 ≤ b → m' b = m b := by
  induction cs with
  | nil =>
      intro fuel q acc m h hfuel hhdr _ _
      obtain ⟨fuel, rfl⟩ : ∃ k, fuel = k + 1 := ⟨fuel - 1, by omega⟩
      refine ⟨m, ?_, by simpa using hhdr, fun _ _ => rfl⟩
      rw [mallocConcatLoop, if_neg (fun hlt => h.not_lt_of_nil hlt.1)]
  | cons c cs ih =>
      intro fuel q acc m h hfuel hhdr hpq hlt
      obtain ⟨fuel, rfl⟩ : ∃ k, fuel = k + 1 := ⟨fuel - 1, by omega⟩
      simp only [List.length_cons, total_cons] at hfuel hlt
      rw [mallocConcatLoop, h.allocIsFree_eq, h.allocSize_eq]
      cases hfree : c.free with
      | false =>
          refine ⟨m, ?_, ?_, fun _ _ => rfl⟩
          · rw [if_neg (by simp)]
          · simpa [hfree] using hhdr
      | true =>
          have hflag : allocIsFree m p = f := congrArg Chunk.free hhdr
          have hsize : allocSize m p = acc := congrArg Chunk.size hhdr
          have hgrown : header (setSize m p (allocSize m p + c.size)) p =
              ⟨f, acc + c.size⟩ := by
            rw [header_setSize (by omega), hflag, hsize]
          have hrest : Tail (setSize m p (allocSize m p + c.size)) (q + c.size) cs :=
            h.tail.congr fun b hb => setSize_of_outside
              (by simp only [sizeofAllocHeader] at hpq; omega)
          have hfuel' : cs.length < fuel := by omega
          obtain ⟨m', hrun, hhdr', hframe⟩ := ih hrest hfuel' hgrown (by omega)
            (by omega)
          refine ⟨m', ?_, ?_, ?_⟩
          · rw [if_pos ⟨h.lt_stackBasePtr, rfl⟩]
            exact hrun
          · rw [hhdr']
            simp [hfree, Nat.add_assoc]
          · intro b hb
            rw [hframe b hb, setSize_of_outside hb]

/-- `__malloc_concat_free_chunks` on a free chunk merges the whole free run
into it. -/
theorem mallocConcatFreeChunks_spec {m : Memory} {p : Nat} {c : Chunk}
    {cs : List Chunk} (h : Tail m p (c :: cs)) (hp : heapPtr ≤ p)
    (hfree : c.free = true) :
    ∃ m', mallocConcatFreeChunks m p = some m' ∧
      Tail m' p (⟨true, c.size + total (freeRun cs)⟩ :: afterRun cs) ∧
      ∀ b, b < p ∨ p + 4 ≤ b → m' b = m b := by
  have hhdr : header m p = ⟨true, c.size⟩ := by
    rw [h.header_eq, ← hfree]
  have hsize : sizeofAllocHeader ≤ c.size := h.size_ge c List.mem_cons_self
  have hfuel := h.length_lt_loopFuel hp
  simp only [List.length_cons] at hfuel
  have htotal := h.total_lt
  have hrunTotal := total_freeRun_add_afterRun cs
  simp only [total_cons, sizeofAllocHeader] at htotal hsize
  obtain ⟨m', hloop, hhdr', hframe⟩ :=
    mallocConcatLoop_spec h.tail (Nat.lt_of_succ_lt (Nat.lt_of_succ_lt hfuel)) hhdr
      (Nat.add_le_add_left hsize p) htotal
  refine ⟨m', ?_, Tail.cons hhdr' ?_ ?_ ?_, hframe⟩
  · rw [mallocConcatFreeChunks, h.allocIsFree_eq, h.allocSize_eq,
      if_pos ⟨h.lt_stackBasePtr, hfree⟩]
    exact hloop
  · exact Nat.le_add_right_of_le hsize
  · rw [← Nat.add_assoc]
    exact h.tail.afterRun.congr fun b hb => hframe b (by omega)
  · simp only
    omega

/-- Byte `b` belongs to a header of the chain at `p`. -/
def InHeader (p : Nat) (cs : List Chunk) (b : Nat) : Prop :=
  ∃ x ∈ spans p cs, x.1 ≤ b ∧ b < x.1 + sizeofAllocHeader

theorem inHeader_cons {p b : Nat} {c : Chunk} {cs : List Chunk} :
    InHeader p (c :: cs) b ↔
      (p ≤ b ∧ b < p + sizeofAllocHeader) ∨ InHeader (p + c.size) cs b := by
  simp [InHeader]

theorem InHeader.ge {p b : Nat} {cs : List Chunk} (h : InHeader p cs b) : p ≤ b := by
  obtain ⟨x, hx, hlo, _⟩ := h
  exact Nat.le_trans (mem_spans_bounds hx).1 hlo

/-- Splitting a merged free chunk: the heap from `p` on becomes what `place`
makes of it, and only bytes of its headers are written. -/
theorem mallocTake_spec {h : Heap} {p size : Nat} {c : Chunk} {cs : List Chunk}
    (htail : Tail h.mem p (c :: cs)) (hsize : sizeofAllocHeader ≤ size)
    (hfit : size < c.size) :
    Tiles (header (mallocTake h p size).mem) p
        (place sizeofAllocHeader size c.size cs) stackBasePtr ∧
      (mallocTake h p size).memoryUsed = (h.memoryUsed + size) % 2 ^ 32 ∧
      ∀ b, (mallocTake h p size).mem b ≠ h.mem b →
        InHeader p (place sizeofAllocHeader size c.size cs) b := by
  have htotal := htail.total_lt
  rw [total_cons] at htotal
  simp only [sizeofAllocHeader] at hsize
  have hold := htail.allocSize_eq
  -- the header after the flag and the requested size are stored
  have hcut : header (setSize (setIsFree h.mem p false) p size) p = ⟨false, size⟩ := by
    rw [header_setSize (by omega)]
    exact congrArg (fun x : Chunk => (⟨x.free, size⟩ : Chunk)) (header_setIsFree _ _ _)
  have hcutSize := congrArg Chunk.size hcut
  have hcutFree := congrArg Chunk.free hcut
  simp only [header_size, header_free] at hcutSize hcutFree
  have hcutFrame : ∀ b, b < p ∨ p + 4 ≤ b →
      setSize (setIsFree h.mem p false) p size b = h.mem b := fun b hb => by
    rw [setSize_of_outside hb, setIsFree_of_outside hb]
  unfold mallocTake place placedSize
  simp only [hold, hcutSize]
  by_cases hsplit : sizeofAllocHeader < c.size - size
  · simp only [if_pos hsplit]
    simp only [sizeofAllocHeader] at hsplit
    have hframe : ∀ b, b < p + size ∨ p + size + 4 ≤ b →
        setSize (setIsFree (setSize (setIsFree h.mem p false) p size) (p + size) true)
          (p + size) (c.size - size) b =
        setSize (setIsFree h.mem p false) p size b := fun b hb => by
      rw [setSize_of_outside hb, setIsFree_of_outside hb]
    refine ⟨⟨?_, ?_, ?_⟩, trivial, ?_⟩
    · rw [header_congr fun b _ _ => hframe b (by omega), hcut]
    · rw [header_setSize (by omega)]
      exact congrArg (fun x : Chunk => (⟨x.free, c.size - size⟩ : Chunk))
        (header_setIsFree _ _ _)
    · rw [show p + size + (c.size - size) = p + c.size by omega]
      refine (htail.tail.congr fun b hb => ?_).tiles
      rw [hframe b (by omega), hcutFrame b (by omega)]
    · intro b hne
      by_contra hout
      simp only [inHeader_cons, sizeofAllocHeader, not_or] at hout
      exact hne (by rw [hframe b (by omega), hcutFrame b (by omega)])
  · simp only [if_neg hsplit]
    simp only [sizeofAllocHeader] at hsplit
    refine ⟨⟨?_, ?_⟩, trivial, ?_⟩
    · rw [header_setSize (by omega), hcutFree,
        show size + (c.size - size) = c.size by omega]
    · refine (htail.tail.congr fun b hb => ?_).tiles
      rw [setSize_of_outside (by omega), hcutFrame b (by omega)]
    · intro b hne
      by_contra hout
      simp only [inHeader_cons, sizeofAllocHeader, not_or] at hout
      exact hne (by rw [setSize_of_outside (by omega), hcutFrame b (by omega)])

/-- The search does not care whether it starts at a used chunk or behind it. -/
theorem mallocLoop_skip_used {size fuel p : Nat} {h : Heap} {c : Chunk}
    {cs : List Chunk} (htail : Tail h.mem p (c :: cs)) (hp : heapPtr ≤ p)
    (hused : c.free = false) (hfuel : 1 < fuel) :
    mallocLoop size fuel h p = mallocLoop size fuel h (p + c.size) := by
  obtain ⟨fuel, rfl⟩ : ∃ k, fuel = k + 2 := ⟨fuel - 2, by omega⟩
  have hlen := htail.length_lt_loopFuel hp
  simp only [List.length_cons] at hlen
  have hfind : mallocFindEmptySpace h.mem loopFuel p =
      mallocFindEmptySpace h.mem loopFuel (p + c.size) := by
    rw [mallocFindEmptySpace_spec htail (by simp only [List.length_cons]; omega),
      mallocFindEmptySpace_spec htail.tail (by omega)]
    simp [usedRun, hused, Nat.add_assoc]
  cases cs with
  | nil =>
      have hend : ¬ p + c.size < stackBasePtr := htail.tail.not_lt_of_nil
      have hstop : mallocFindEmptySpace h.mem loopFuel (p + c.size) =
          some (p + c.size) := by
        rw [mallocFindEmptySpace_spec htail.tail (by omega)]
        simp
      have hconcat : mallocConcatFreeChunks h.mem (p + c.size) = some h.mem := by
        rw [mallocConcatFreeChunks, if_neg (fun hlt => hend hlt.1)]
      rw [mallocLoop, if_pos htail.lt_stackBasePtr, hfind, hstop]
      simp only [hconcat]
      rw [if_neg (fun hlt => hend hlt.1), mallocLoop, if_neg hend, mallocLoop,
        if_neg hend]
  | cons d ds =>
      rw [mallocLoop, if_pos htail.lt_stackBasePtr, hfind, mallocLoop,
        if_pos htail.tail.lt_stackBasePtr]

/-- At a free chunk the search merges the free run into it, and takes it or goes on
behind it. -/
theorem mallocLoop_of_free {p : Nat} {h : Heap} {c : Chunk} {cs : List Chunk} (size fuel : Nat)
    (htail : Tail h.mem p (c :: cs)) (hp : heapPtr ≤ p) (hfree : c.free = true) :
    ∃ m, Tail m p (⟨true, c.size + total (freeRun cs)⟩ :: afterRun cs) ∧
      (∀ b, b < p ∨ p + 4 ≤ b → m b = h.mem b) ∧
      mallocLoop size (fuel + 1) h p =
        if size < c.size + total (freeRun cs) then
          some (mallocTake { h with mem := m } p size, some p)
        else mallocLoop size fuel { h with mem := m } (p + (c.size + total (freeRun cs))) := by
  have hlen := htail.length_lt_loopFuel hp
  have hfind : mallocFindEmptySpace h.mem loopFuel p = some p := by
    rw [mallocFindEmptySpace_spec htail (Nat.lt_of_succ_lt hlen)]
    simp [usedRun, hfree]
  obtain ⟨m, hconcat, hmerged, hframe⟩ := mallocConcatFreeChunks_spec htail hp hfree
  refine ⟨m, hmerged, hframe, ?_⟩
  rw [mallocLoop, if_pos htail.lt_stackBasePtr, hfind]
  simp only [hconcat]
  rw [if_pos ⟨htail.lt_stackBasePtr, hmerged.allocIsFree_eq⟩, hmerged.allocSize_eq]

/-- What the search for `size` bytes from `p` on leaves of the heap `h`. -/
structure LoopLeaves (size p : Nat) (cs : List Chunk) (h h' : Heap) : Prop where
  tiles : Tiles (header h'.mem) p (allocate sizeofAllocHeader size p cs).2 stackBasePtr
  memoryUsed : h'.memoryUsed = (match firstFit size p cs with
    | some _ => (h.memoryUsed + size) % 2 ^ 32
    | none => h.memoryUsed)
  headers : ∀ b, h'.mem b ≠ h.mem b → InHeader p (allocate sizeofAllocHeader size p cs).2 b

section LoopLeaves

variable {size p : Nat} {h h' : Heap} {c : Chunk} {cs : List Chunk} {m : Memory}

/-- Passing a used chunk. -/
theorem LoopLeaves.cons_used (hleft : LoopLeaves size (p + c.size) cs h h')
    (htail : Tail h.mem p (c :: cs)) (hused : c.free = false) :
    LoopLeaves size p (c :: cs) h h' where
  tiles := by
    rw [allocate_cons_used _ _ _ _ hused]
    refine ⟨?_, hleft.tiles⟩
    rw [← htail.header_eq]
    refine header_congr fun b _ hhi => ?_
    -- a changed byte would lie behind `c`
    by_contra hne
    have hge := (hleft.headers b hne).ge
    have hsize := htail.size_ge c List.mem_cons_self
    simp only [sizeofAllocHeader] at hsize
    omega
  memoryUsed := by
    rw [firstFit_cons_used _ _ _ hused]
    exact hleft.memoryUsed
  headers b hne := by
    rw [allocate_cons_used _ _ _ _ hused, inHeader_cons]
    exact Or.inr (hleft.headers b hne)

/-- Passing a free run that is too short. -/
theorem LoopLeaves.cons_small
    (hleft : LoopLeaves size (p + (c.size + total (freeRun cs))) (afterRun cs)
      { h with mem := m } h')
    (hmerged : Tail m p (⟨true, c.size + total (freeRun cs)⟩ :: afterRun cs))
    (hframe : ∀ b, b < p ∨ p + 4 ≤ b → m b = h.mem b) (hfree : c.free = true)
    (hsmall : ¬ size < c.size + total (freeRun cs)) : LoopLeaves size p (c :: cs) h h' where
  tiles := by
    rw [allocate_cons_small p hfree hsmall]
    refine ⟨?_, hleft.tiles⟩
    rw [← hmerged.header_eq]
    refine header_congr fun b _ hhi => ?_
    by_contra hne
    have hge := (hleft.headers b hne).ge
    have hsize := hmerged.size_ge _ List.mem_cons_self
    simp only [sizeofAllocHeader] at hsize
    omega
  memoryUsed := by
    rw [firstFit_cons_small p hfree hsmall]
    exact hleft.memoryUsed
  headers b hne := by
    rw [allocate_cons_small p hfree hsmall, inHeader_cons]
    by_cases hkept : h'.mem b = m b
    · refine Or.inl ?_
      by_contra hout
      simp only [sizeofAllocHeader] at hout
      exact hne (hkept.trans (hframe b (by omega)))
    · exact Or.inr (hleft.headers b hkept)

/-- Taking a free run that is long enough. -/
theorem LoopLeaves.cons_fit
    (hmerged : Tail m p (⟨true, c.size + total (freeRun cs)⟩ :: afterRun cs))
    (hframe : ∀ b, b < p ∨ p + 4 ≤ b → m b = h.mem b) (hfree : c.free = true)
    (hsize : sizeofAllocHeader ≤ size) (hfit : size < c.size + total (freeRun cs)) :
    LoopLeaves size p (c :: cs) h (mallocTake { h with mem := m } p size) := by
  obtain ⟨htiles, hmu, hheaders⟩ :=
    mallocTake_spec (h := { h with mem := m }) hmerged hsize hfit
  refine ⟨?_, ?_, fun b hne => ?_⟩
  · rw [allocate_cons_fit p hfree hfit]
    exact htiles
  · rw [firstFit_cons_fit p hfree hfit]
    exact hmu
  · rw [allocate_cons_fit p hfree hfit]
    by_cases hkept : (mallocTake { h with mem := m } p size).mem b = m b
    · refine inHeader_cons.mpr (Or.inl ?_)
      by_contra hout
      simp only [sizeofAllocHeader] at hout
      exact hne (hkept.trans (hframe b (by omega)))
    · exact hheaders b hkept

end LoopLeaves

/-- The whole search: `malloc`'s loop is first fit with lazy merging, and writes
only headers of the chain it leaves. -/
theorem mallocLoop_spec {size : Nat} (hsize : sizeofAllocHeader ≤ size) (p : Nat)
    (cs : List Chunk) :
    ∀ {fuel : Nat} {h : Heap}, Tail h.mem p cs → heapPtr ≤ p →
      cs.length + 1 < fuel →
      ∃ h', mallocLoop size fuel h p =
          some (h', (allocate sizeofAllocHeader size p cs).1) ∧
        LoopLeaves size p cs h h' := by
  induction p, cs using runInduction with
  | nil p =>
      intro fuel h htail _ hfuel
      obtain ⟨fuel, rfl⟩ : ∃ k, fuel = k + 1 := ⟨fuel - 1, by omega⟩
      refine ⟨h, ?_, by simpa using htail.tiles, by simp [firstFit], by simp⟩
      rw [mallocLoop, if_neg htail.not_lt_of_nil]
      simp
  | used p c cs hused ih =>
      intro fuel h htail hp hfuel
      have hlen : cs.length + 1 < fuel := Nat.lt_of_succ_lt hfuel
      obtain ⟨h', hrun, hleft⟩ := ih htail.tail (Nat.le_add_right_of_le hp) hlen
      refine ⟨h', ?_, hleft.cons_used htail hused⟩
      rw [mallocLoop_skip_used htail hp hused (by omega), hrun,
        allocate_cons_used _ _ _ _ hused]
  | free p c cs hfree ih =>
      intro fuel h htail hp hfuel
      obtain ⟨fuel, rfl⟩ : ∃ k, fuel = k + 1 := ⟨fuel - 1, by omega⟩
      obtain ⟨m, hmerged, hframe, hloop⟩ := mallocLoop_of_free size fuel htail hp hfree
      rw [hloop]
      by_cases hfit : size < c.size + total (freeRun cs)
      · refine ⟨_, ?_, LoopLeaves.cons_fit hmerged hframe hfree hsize hfit⟩
        rw [if_pos hfit, allocate_cons_fit p hfree hfit]
      · have hafterLen := length_afterRun_le cs
        have hlen : (afterRun cs).length + 1 < fuel := by
          rw [List.length_cons] at hfuel
          omega
        obtain ⟨h', hrun, hleft⟩ :=
          ih (h := { h with mem := m }) hmerged.tail (Nat.le_add_right_of_le hp) hlen
        refine ⟨h', ?_, hleft.cons_small hmerged hframe hfree hfit⟩
        rw [if_neg hfit, hrun, allocate_cons_small p hfree hfit]

/-! ## `heap_init`, `malloc` and `free` as a whole -/

/-- `heap_init` leaves one free chunk, whatever memory held before. -/
theorem wellFormed_heapInit (h : Heap) :
    WellFormed (heapInit h).mem [⟨true, heapMaxSize⟩] where
  tiles := by
    refine ⟨?_, heapPtr_add_heapMaxSize⟩
    simp only [heapInit]
    rw [header_setSize heapMaxSize_lt]
    exact congrArg (fun x : Chunk => (⟨x.free, heapMaxSize⟩ : Chunk))
      (header_setIsFree _ _ _)
  size_ge := by
    intro c hc
    rw [List.mem_singleton] at hc
    subst hc
    decide

/-- Memory with the headers of a chain from `p` on. -/
def layChunks : Nat → List Chunk → Memory → Memory
  | _, [], m => m
  | p, c :: cs, m => layChunks (p + c.size) cs (writeWord m p (2 * c.size + c.free.toNat))

theorem layChunks_of_lt (m : Memory) {p b : Nat} (cs : List Chunk) (hb : b < p) :
    layChunks p cs m b = m b := by
  induction cs generalizing p m with
  | nil => rfl
  | cons c cs ih =>
      rw [layChunks, ih _ (Nat.lt_add_right _ hb)]
      exact writeWord_of_outside (Or.inl hb)

theorem header_writeWord (m : Memory) (p : Nat) {c : Chunk} (hc : c.size < 2 ^ 31) :
    header (writeWord m p (2 * c.size + c.free.toNat)) p = c := by
  obtain ⟨free, size⟩ := c
  have hflag := Bool.toNat_le free
  have hword : (2 * size + free.toNat) % 2 ^ 32 = 2 * size + free.toNat :=
    Nat.mod_eq_of_lt (by simp only at hc; omega)
  unfold header allocIsFree allocSize
  rw [readWord_writeWord_same, hword]
  cases free with
  | false => simp
  | true =>
      simp only [Bool.toNat_true, Nat.mul_add_mod, Chunk.mk.injEq]
      exact ⟨rfl, by omega⟩

theorem tiles_layChunks {cs : List Chunk} (hsize : ∀ c ∈ cs, sizeofAllocHeader ≤ c.size)
    (hlt : total cs < 2 ^ 31) (m : Memory) (p : Nat) :
    Tiles (header (layChunks p cs m)) p cs (p + total cs) := by
  induction cs generalizing p m with
  | nil => exact rfl
  | cons c cs ih =>
      rw [total_cons] at hlt ⊢
      refine ⟨?_, ?_⟩
      · have hc : sizeofAllocHeader ≤ c.size := hsize c List.mem_cons_self
        rw [sizeofAllocHeader] at hc
        have hframe : header (layChunks p (c :: cs) m) p =
            header (writeWord m p (2 * c.size + c.free.toNat)) p :=
          header_congr fun b _ hb => layChunks_of_lt _ cs (by omega)
        exact hframe.trans
          (header_writeWord m p (Nat.lt_of_le_of_lt (Nat.le_add_right _ _) hlt))
      · rw [← Nat.add_assoc]
        exact ih (fun d hd => hsize d (List.mem_cons_of_mem _ hd))
          (Nat.lt_of_le_of_lt (Nat.le_add_left _ _) hlt) _ _

/-- Every chain that fills the heap is the chain of some heap. -/
theorem wellFormed_layChunks {cs : List Chunk} (hsize : ∀ c ∈ cs, sizeofAllocHeader ≤ c.size)
    (htotal : total cs = heapMaxSize) (m : Memory) :
    WellFormed (layChunks heapPtr cs m) cs where
  tiles := by
    have htiles := tiles_layChunks hsize (htotal ▸ heapMaxSize_lt) m heapPtr
    rwa [htotal, heapPtr_add_heapMaxSize] at htiles
  size_ge := hsize

/-- The chain `malloc` leaves. -/
def mallocChain (size : Nat) (cs : List Chunk) : List Chunk :=
  if heapMaxSize ≤ size + sizeofAllocHeader then cs
  else (allocate sizeofAllocHeader (size + sizeofAllocHeader) heapPtr cs).2

/-- A request as large as the heap fits nowhere. -/
theorem firstFit_eq_none_of_ge {m : Memory} {cs : List Chunk} {need : Nat}
    (hwf : WellFormed m cs) (hbig : heapMaxSize ≤ need) :
    firstFit need heapPtr cs = none := by
  cases hfit : firstFit need heapPtr cs with
  | none => rfl
  | some hole =>
      obtain ⟨hmem, hlong⟩ := mem_holes_of_firstFit hfit
      have := mem_holes_bounds _ _ hole hmem
      have := hwf.total_eq
      omega

/-- The used chunks after `malloc`: the old ones, where they were, and the new
one. -/
theorem mem_spans_mallocChain_iff {m : Memory} {cs : List Chunk} {size : Nat}
    (hwf : WellFormed m cs) {x : Nat × Chunk} (hx : x.2.free = false) :
    x ∈ spans heapPtr (mallocChain size cs) ↔ x ∈ spans heapPtr cs ∨
      ∃ hole, firstFit (size + sizeofAllocHeader) heapPtr cs = some hole ∧
        x = (hole.1, ⟨false,
          placedSize sizeofAllocHeader (size + sizeofAllocHeader) hole.2⟩) := by
  unfold mallocChain
  split
  · next hbig => simp [firstFit_eq_none_of_ge hwf hbig]
  · exact mem_spans_allocate_iff _ _ _ _ hx

theorem mem_spans_mallocChain {m : Memory} {cs : List Chunk} (size : Nat)
    (hwf : WellFormed m cs) {x : Nat × Chunk} (hmem : x ∈ spans heapPtr cs)
    (hused : x.2.free = false) : x ∈ spans heapPtr (mallocChain size cs) :=
  (mem_spans_mallocChain_iff hwf hused).mpr (Or.inl hmem)

/-- `malloc` makes at most one new boundary, behind the chunk it takes. -/
theorem fst_of_mem_spans_mallocChain {cs : List Chunk} {size : Nat} {x : Nat × Chunk}
    (hx : x ∈ spans heapPtr (mallocChain size cs)) :
    (∃ y ∈ spans heapPtr cs, y.1 = x.1) ∨
      ∃ hole, firstFit (size + sizeofAllocHeader) heapPtr cs = some hole ∧
        x.1 = hole.1 + (size + sizeofAllocHeader) := by
  unfold mallocChain at hx
  split at hx
  · exact Or.inl ⟨x, hx, rfl⟩
  · exact fst_of_mem_spans_allocate _ _ _ _ hx

/-- A request whose sum wraps to zero is answered with `NULL`. -/
theorem malloc_of_wrap (h : Heap) {size : Nat}
    (hwrap : (size + sizeofAllocHeader) % 2 ^ 32 = 0) : malloc h size = some (h, none) := by
  unfold malloc
  simp only [hwrap, or_true, if_true]

/-- `malloc` on a well-formed heap: the call returns; the answer is the payload
of the first hole longer than `size + 4`; only headers of the new chain are
written. -/
theorem malloc_spec {h : Heap} {cs : List Chunk} {size : Nat}
    (hwf : WellFormed h.mem cs) (hsize : size + sizeofAllocHeader < 2 ^ 32) :
    ∃ h',
      malloc h size = some (h', (firstFit (size + sizeofAllocHeader) heapPtr cs).map
        fun hole => hole.1 + sizeofAllocHeader) ∧
      WellFormed h'.mem (mallocChain size cs) ∧
      h'.memoryUsed = (match firstFit (size + sizeofAllocHeader) heapPtr cs with
        | some _ => (h.memoryUsed + (size + sizeofAllocHeader)) % 2 ^ 32
        | none => h.memoryUsed) ∧
      ∀ b, h'.mem b ≠ h.mem b → InHeader heapPtr (mallocChain size cs) b := by
  have hmod : (size + sizeofAllocHeader) % 2 ^ 32 = size + sizeofAllocHeader :=
    Nat.mod_eq_of_lt hsize
  unfold malloc mallocChain
  simp only [hmod]
  by_cases hbig : heapMaxSize ≤ size + sizeofAllocHeader
  · rw [if_pos (Or.inl hbig), if_pos hbig, firstFit_eq_none_of_ge hwf hbig]
    exact ⟨h, rfl, hwf, rfl, fun b hne => absurd rfl hne⟩
  · have hsmall : ¬ (heapMaxSize ≤ size + sizeofAllocHeader ∨
        size + sizeofAllocHeader = 0) := by
      simp only [sizeofAllocHeader] at hbig ⊢
      omega
    have hfuel := hwf.tail.length_lt_loopFuel (Nat.le_refl heapPtr)
    obtain ⟨h', hrun, hleft⟩ :=
      mallocLoop_spec (Nat.le_add_left sizeofAllocHeader size) heapPtr cs hwf.tail
        (Nat.le_refl heapPtr) hfuel
    rw [if_neg hbig]
    refine ⟨h', ?_, ?_, hleft.memoryUsed, hleft.headers⟩
    · rw [if_neg hsmall, hrun, allocate_fst]
      simp only [Option.map_map]
      rfl
    · exact ⟨hleft.tiles, size_le_of_mem_allocate (Nat.le_add_left _ _) _ _ hwf.size_ge⟩

/-- `free` on the payload of a chunk of a well-formed heap is `release`: that
chunk's flag is set, and nothing outside its header is written. -/
theorem free_spec {h : Heap} {cs : List Chunk} {ptr : Nat} {c : Chunk}
    (hwf : WellFormed h.mem cs)
    (hmem : (ptr - sizeofAllocHeader, c) ∈ spans heapPtr cs) :
    WellFormed (free h ptr).mem (release (ptr - sizeofAllocHeader) heapPtr cs) ∧
      (free h ptr).memoryUsed = (h.memoryUsed + 2 ^ 32 - c.size) % 2 ^ 32 ∧
      ∀ b, b < ptr - sizeofAllocHeader ∨ ptr - sizeofAllocHeader + 4 ≤ b →
        (free h ptr).mem b = h.mem b := by
  have hhdr : header h.mem (ptr - sizeofAllocHeader) = c := (hwf.tiles.header_eq hmem :)
  have hfreed := header_setIsFree h.mem (ptr - sizeofAllocHeader) true
  refine ⟨⟨?_, ?_⟩, ?_, ?_⟩
  · refine hwf.tiles.release hfreed fun x hx hne => header_congr fun b hlo hhi => ?_
    -- two chunks of the heap do not overlap, so neither do their headers
    have hxsize := hwf.size_ge x.2 (chunk_mem_of_mem_spans hx)
    have hcsize := hwf.size_ge c (chunk_mem_of_mem_spans hmem)
    rcases eq_or_apart_of_mem_spans hx hmem with heq | hapart | hapart
    · exact absurd (congrArg Prod.fst heq) hne
    · simp only [sizeofAllocHeader] at hxsize hcsize hapart
      exact setIsFree_of_outside (by simp only [sizeofAllocHeader]; omega)
    · simp only [sizeofAllocHeader] at hxsize hcsize hapart
      exact setIsFree_of_outside (by simp only [sizeofAllocHeader]; omega)
  · exact size_le_of_mem_release _ _ hwf.size_ge
  · have hkept : allocSize (setIsFree h.mem (ptr - sizeofAllocHeader) true)
        (ptr - sizeofAllocHeader) = allocSize h.mem (ptr - sizeofAllocHeader) :=
      congrArg Chunk.size hfreed
    have hsize : allocSize h.mem (ptr - sizeofAllocHeader) = c.size :=
      congrArg Chunk.size hhdr
    simp only [free, hkept, hsize]
  · intro b hb
    exact setIsFree_of_outside hb

end DonutOS.Libc
