import DonutOS.Libc.MallocSpec

set_option autoImplicit false

/-!
# Libc: when `malloc` answers `NULL`, and what it answers otherwise

Coalescing happens only along the search.  Against the maximal free runs of the
heap the answer is exact all the same: whatever the order of earlier frees, a
request fails only when no run is long enough.  The last section looks at the
requests whose length wraps when the header is added.
-/

namespace DonutOS.Libc

open DonutOS.Foundation

/-- A free run of the heap that a request of `need` bytes, header included, fits
into. -/
def RunFits (cs : List Chunk) (need : Nat) (run : Nat × Nat) : Prop :=
  MaximalRun heapPtr cs run ∧ need < run.2

theorem firstFit_eq_some_imp {need : Nat} {cs : List Chunk} {hole : Nat × Nat}
    (hfit : firstFit need heapPtr cs = some hole) :
    RunFits cs need hole ∧ ∀ run, RunFits cs need run → hole.1 ≤ run.1 := by
  obtain ⟨hmem, hlong⟩ := mem_holes_of_firstFit hfit
  refine ⟨⟨mem_holes_iff.mp hmem, hlong⟩, ?_⟩
  rintro run ⟨hrun, hrunLong⟩
  exact firstFit_fst_le hfit (mem_holes_iff.mpr hrun) hrunLong

theorem firstFit_eq_none_iff {need : Nat} {cs : List Chunk} :
    firstFit need heapPtr cs = none ↔ ¬ ∃ run, RunFits cs need run := by
  unfold firstFit
  rw [List.find?_eq_none]
  constructor
  · rintro hall ⟨run, hrun, hlong⟩
    exact hall run (mem_holes_iff.mpr hrun) (by simpa using hlong)
  · intro hnone run hrun hlong
    exact hnone ⟨run, mem_holes_iff.mp hrun, by simpa using hlong⟩

/-- `malloc` returns.  It answers `NULL` exactly when no maximal free run is
longer than the request with its header; otherwise it answers the payload of
the lowest such run.  Used chunks stay where they are. -/
theorem malloc_exact {h : Heap} {cs : List Chunk} {size : Nat}
    (hwf : WellFormed h.mem cs) (hsize : size + sizeofAllocHeader < 2 ^ 32) :
    ∃ h' answer ds, malloc h size = some (h', answer) ∧
      (answer = none ↔ (¬ ∃ run, RunFits cs (size + sizeofAllocHeader) run) ∨
        heapMaxSize ≤ size + sizeofAllocHeader) ∧
      (∀ ptr, answer = some ptr → ∃ run, RunFits cs (size + sizeofAllocHeader) run ∧
        (∀ other, RunFits cs (size + sizeofAllocHeader) other → run.1 ≤ other.1) ∧
        ptr = run.1 + sizeofAllocHeader) ∧
      WellFormed h'.mem ds ∧
      ∀ x ∈ spans heapPtr cs, x.2.free = false → x ∈ spans heapPtr ds := by
  obtain ⟨h', hcall, hwf', -, -⟩ := malloc_spec hwf hsize
  refine ⟨h', _, _, hcall, ?_, ?_, hwf', ?_⟩
  · rw [Option.map_eq_none_iff, ← firstFit_eq_none_iff]
    constructor
    · exact Or.inl
    · rintro (hnone | hbig)
      · exact hnone
      · exact firstFit_eq_none_of_ge hwf hbig
  · intro ptr hptr
    obtain ⟨hole, hfit, rfl⟩ := Option.map_eq_some_iff.mp hptr
    obtain ⟨hrun, hlowest⟩ := firstFit_eq_some_imp hfit
    exact ⟨hole, hrun, hlowest, rfl⟩
  · intro x hx hused
    exact mem_spans_mallocChain size hwf hx hused

/-- A heap with used chunks, and with free ones between them, two of them adjacent. -/
def fragments : List Chunk :=
  [⟨false, 100⟩, ⟨true, 24⟩, ⟨true, 40⟩, ⟨false, 60⟩, ⟨true, 16⟩, ⟨false, 20⟩,
    ⟨true, heapMaxSize - 260⟩]

theorem wellFormed_fragments : WellFormed (layChunks heapPtr fragments fun _ => 0) fragments :=
  wellFormed_layChunks (by decide) (by decide) _

theorem holes_fragments : holes heapPtr fragments =
    [(heapPtr + 100, 64), (heapPtr + 224, 16), (heapPtr + 260, heapMaxSize - 260)] := by
  simp [fragments, holes_cons_used, holes_cons_free]

/-- A request for 48 bytes takes the two adjacent chunks, which it fits into together. -/
theorem malloc_exact_fragments :
    ∃ h' ds, malloc ⟨layChunks heapPtr fragments fun _ => 0, 180⟩ 48 =
        some (h', some (heapPtr + 104)) ∧ WellFormed h'.mem ds ∧
      ∀ x ∈ spans heapPtr fragments, x.2.free = false → x ∈ spans heapPtr ds := by
  let h : Heap := ⟨layChunks heapPtr fragments fun _ => 0, 180⟩
  have hsize : 48 + sizeofAllocHeader < 2 ^ 32 := by decide
  have hlaid : WellFormed h.mem fragments := wellFormed_fragments
  obtain ⟨h', answer, ds, hcall, hnone, hsome, hwf, hkept⟩ := malloc_exact hlaid hsize
  have hfits : ∀ {run : Nat × Nat}, RunFits fragments (48 + sizeofAllocHeader) run ↔
      run ∈ holes heapPtr fragments ∧ 48 + sizeofAllocHeader < run.2 := by
    intro run
    rw [mem_holes_iff]
    rfl
  have hrun : RunFits fragments (48 + sizeofAllocHeader) (heapPtr + 100, 64) := by
    rw [hfits, holes_fragments]
    exact ⟨List.mem_cons_self, by decide⟩
  have hsmall : ¬ heapMaxSize ≤ 48 + sizeofAllocHeader := by decide
  cases answer with
  | none =>
      rcases hnone.mp rfl with hno | hbig
      · exact absurd ⟨_, hrun⟩ hno
      · exact absurd hbig hsmall
  | some ptr =>
      obtain ⟨run, hfit, hlowest, rfl⟩ := hsome ptr rfl
      have hlow := hlowest _ hrun
      rw [hfits, holes_fragments] at hfit
      have hstart : run.1 = heapPtr + 100 := by
        have hmem := hfit.1
        simp only [List.mem_cons, List.not_mem_nil, or_false] at hmem
        rcases hmem with rfl | rfl | rfl
        · rfl
        · exact absurd hlow (by decide)
        · exact absurd hlow (by decide)
      refine ⟨h', ds, ?_, hwf, hkept⟩
      rw [hcall, hstart]
      rfl

/-! ## Requests that wrap -/

/-- With nothing free the search passes the whole heap. -/
theorem mallocLoop_of_used {size : Nat} {h : Heap} {cs : List Chunk}
    (hused : ∀ c ∈ cs, c.free = false) :
    ∀ {fuel p : Nat}, Tail h.mem p cs → heapPtr ≤ p → 1 < fuel →
      mallocLoop size fuel h p = some (h, none) := by
  induction cs with
  | nil =>
      intro fuel p htail _ hfuel
      obtain ⟨fuel, rfl⟩ : ∃ k, fuel = k + 1 := ⟨fuel - 1, by omega⟩
      rw [mallocLoop, if_neg htail.not_lt_of_nil]
  | cons c cs ih =>
      intro fuel p htail hp hfuel
      rw [mallocLoop_skip_used htail hp (hused c List.mem_cons_self) hfuel]
      exact ih (fun d hd => hused d (List.mem_cons_of_mem _ hd)) htail.tail
        (Nat.le_trans hp (Nat.le_add_right _ _)) hfuel

/-- A search for less than a header takes the first free chunk there is. -/
theorem mallocLoop_of_lt_header {size : Nat} (hsize : size < sizeofAllocHeader)
    {h : Heap} {cs : List Chunk} (hfree : ∃ c ∈ cs, c.free = true) :
    ∀ {fuel p : Nat}, Tail h.mem p cs → heapPtr ≤ p → 1 < fuel →
      ∃ h' q, mallocLoop size fuel h p = some (h', some q) := by
  induction cs with
  | nil =>
      obtain ⟨c, hc, -⟩ := hfree
      cases hc
  | cons c cs ih =>
      intro fuel p htail hp hfuel
      cases hc : c.free with
      | false =>
          have hrest : ∃ d ∈ cs, d.free = true := by
            obtain ⟨d, hd, hdfree⟩ := hfree
            rcases List.mem_cons.mp hd with rfl | hd
            · rw [hc] at hdfree
              exact Bool.noConfusion hdfree
            · exact ⟨d, hd, hdfree⟩
          rw [mallocLoop_skip_used htail hp hc hfuel]
          exact ih hrest htail.tail (Nat.le_trans hp (Nat.le_add_right _ _)) hfuel
      | true =>
          obtain ⟨fuel, rfl⟩ : ∃ k, fuel = k + 1 := ⟨fuel - 1, by omega⟩
          have hcsize := htail.size_ge c List.mem_cons_self
          obtain ⟨m, -, -, hloop⟩ := mallocLoop_of_free size fuel htail hp hc
          exact ⟨_, p, by rw [hloop, if_pos (by omega)]⟩

theorem malloc_of_used {h : Heap} {cs : List Chunk} (size : Nat)
    (hwf : WellFormed h.mem cs) (hused : ∀ c ∈ cs, c.free = false) :
    malloc h size = some (h, none) := by
  unfold malloc
  simp only
  split
  · rfl
  · rw [mallocLoop_of_used hused hwf.tail (Nat.le_refl heapPtr) (by decide)]
    rfl

/-- A request within three bytes of `2 ^ 32` is answered as one for less than a
header: with a block, as long as anything is free. -/
theorem malloc_of_lt_header {h : Heap} {cs : List Chunk} {size : Nat}
    (hwf : WellFormed h.mem cs) (hlt : size < 2 ^ 32)
    (hwrap : 2 ^ 32 < size + sizeofAllocHeader) (hfree : ∃ c ∈ cs, c.free = true) :
    ∃ h' ptr, malloc h size = some (h', some ptr) := by
  have hmod : (size + sizeofAllocHeader) % 2 ^ 32 =
      size + sizeofAllocHeader - 2 ^ 32 := by
    rw [Nat.mod_eq_sub_mod (Nat.le_of_lt hwrap)]
    exact Nat.mod_eq_of_lt (by simp only [sizeofAllocHeader]; omega)
  have hsmall : size + sizeofAllocHeader - 2 ^ 32 < sizeofAllocHeader := by
    simp only [sizeofAllocHeader]
    omega
  obtain ⟨h', q, hrun⟩ := mallocLoop_of_lt_header hsmall hfree hwf.tail
    (Nat.le_refl heapPtr) (show 1 < loopFuel by decide)
  have hnull : ¬ (heapMaxSize ≤ size + sizeofAllocHeader - 2 ^ 32 ∨
      size + sizeofAllocHeader - 2 ^ 32 = 0) := by
    have : sizeofAllocHeader < heapMaxSize := by decide
    omega
  refine ⟨h', q + sizeofAllocHeader, ?_⟩
  unfold malloc
  simp only [hmod]
  rw [if_neg hnull, hrun]
  rfl

end DonutOS.Libc
