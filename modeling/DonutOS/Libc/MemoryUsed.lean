import DonutOS.Libc.HeapRuns

set_option autoImplicit false

/-!
# Libc: the `memory_used` counter

`malloc` adds the size it asked for, `free` takes off the size the chunk has.
The two differ when the rest of a run is too short for a header and stays with
the chunk.  Over whole runs the counter is exact as long as that does not
happen, and wrong from the first time it does.
-/

namespace DonutOS.Libc

open DonutOS.Foundation

/-- What the counter should be: the length of the used chunks; then no release
takes off more than it holds, and it is 0 when nothing is out. -/
structure MemoryUsedExact (s : HeapState) : Prop where
  exact : ∃ cs, WellFormed s.heap.mem cs ∧ s.heap.memoryUsed = usedTotal cs
  noWrap : ∀ b ∈ s.live,
    allocSize s.heap.mem (b.ptr - sizeofAllocHeader) ≤ s.heap.memoryUsed
  zero : s.live = [] → s.heap.memoryUsed = 0

/-- The lowest free run that a request fits into has room for a second header
behind it. -/
def LeavesHeader (s : HeapState) : HeapCall → Prop
  | .malloc size => ∀ cs hole, WellFormed s.heap.mem cs →
      firstFit (size + sizeofAllocHeader) heapPtr cs = some hole →
      size + sizeofAllocHeader + sizeofAllocHeader < hole.2
  | _ => True

/-- The heap's invariant, with an exact counter. -/
def CountedInv (s : HeapState) : Prop :=
  ∃ cs, HeapInv cs s ∧ s.heap.memoryUsed = usedTotal cs

theorem countedInv_heapStart (m : Memory) : CountedInv (heapStart m) :=
  ⟨_, heapInv_heapStart m, (usedTotal_cons_free [] rfl).symm⟩

theorem CountedInv.exact {s : HeapState} (h : CountedInv s) : MemoryUsedExact s := by
  obtain ⟨cs, hinv, hused⟩ := h
  refine ⟨⟨cs, hinv.wellFormed, hused⟩, ?_, ?_⟩
  · intro b hb
    obtain ⟨c, hc, hcused, -⟩ := hinv.liveUsed b hb
    have hsize : allocSize s.heap.mem (b.ptr - sizeofAllocHeader) = c.size :=
      congrArg Chunk.size (hinv.wellFormed.tiles.header_eq hc)
    rw [hsize, hused]
    exact size_le_usedTotal hc hcused
  · intro hempty
    rw [hused]
    refine usedTotal_eq_zero (p := heapPtr) fun x hx => ?_
    by_contra hnot
    obtain ⟨b, hb, -⟩ := hinv.usedLive x hx (Bool.eq_false_iff.mpr hnot)
    rw [hempty] at hb
    cases hb

/-- The counter after a `malloc`, next to the length of the used chunks. -/
theorem counted_malloc {cs : List Chunk} {s : HeapState} (hinv : HeapInv cs s)
    (hused : s.heap.memoryUsed = usedTotal cs) {size : Nat}
    (hsize : size + sizeofAllocHeader < 2 ^ 32) {h : Heap} {answer : Option Nat}
    (hcall : malloc s.heap size = some (h, answer)) :
    HeapInv (mallocChain size cs) ⟨h, grant size s.live answer⟩ ∧
      match firstFit (size + sizeofAllocHeader) heapPtr cs with
      | none => h.memoryUsed = usedTotal (mallocChain size cs)
      | some hole =>
          h.memoryUsed = usedTotal cs + (size + sizeofAllocHeader) ∧
          usedTotal (mallocChain size cs) = usedTotal cs +
            placedSize sizeofAllocHeader (size + sizeofAllocHeader) hole.2 := by
  refine ⟨(hinv.malloc hsize hcall).1, ?_⟩
  obtain ⟨h', hcall', hwf', hmu, -⟩ := malloc_spec hinv.wellFormed hsize
  rw [hcall, Option.some.injEq, Prod.mk.injEq] at hcall'
  obtain ⟨rfl, -⟩ := hcall'
  have htotal := usedTotal_allocate sizeofAllocHeader (size + sizeofAllocHeader) heapPtr cs
  cases hfit : firstFit (size + sizeofAllocHeader) heapPtr cs with
  | none =>
      rw [hfit] at hmu htotal
      simp only at hmu ⊢
      rw [hmu, hused, mallocChain]
      split
      · rfl
      · exact htotal.symm
  | some hole =>
      rw [hfit] at hmu htotal
      simp only [Option.map_some, Option.getD_some] at hmu htotal ⊢
      have hbig : ¬ heapMaxSize ≤ size + sizeofAllocHeader := by
        intro hbig
        rw [firstFit_eq_none_of_ge hinv.wellFormed hbig] at hfit
        cases hfit
      have hchain : usedTotal (mallocChain size cs) = usedTotal cs +
          placedSize sizeofAllocHeader (size + sizeofAllocHeader) hole.2 := by
        rw [mallocChain, if_neg hbig]
        exact htotal
      refine ⟨?_, hchain⟩
      -- the used chunks of the new chain fit the heap, so the sum does not wrap
      have hle := usedTotal_le_total (mallocChain size cs)
      rw [hwf'.total_eq, hchain] at hle
      have hplaced : size + sizeofAllocHeader ≤
          placedSize sizeofAllocHeader (size + sizeofAllocHeader) hole.2 :=
        le_placedSize (mem_holes_of_firstFit hfit).2
      have hmax := heapMaxSize_lt
      rw [hmu, hused]
      exact Nat.mod_eq_of_lt (by omega)

theorem CountedInv.free {s : HeapState} (h : CountedInv s) {b : Block} (hb : b ∈ s.live) :
    CountedInv ⟨Libc.free s.heap b.ptr, s.live.filter fun x => x.ptr ≠ b.ptr⟩ := by
  obtain ⟨cs, hinv, hused⟩ := h
  refine ⟨_, hinv.free hb, ?_⟩
  obtain ⟨c, hc, hcused, -⟩ := hinv.liveUsed b hb
  have hreleased := usedTotal_release hinv.wellFormed.size_pos hc hcused
  have hle := usedTotal_le_total cs
  rw [hinv.wellFormed.total_eq] at hle
  have hmax := heapMaxSize_lt
  simp only
  rw [(free_spec hinv.wellFormed hc).2.1, hused,
    show usedTotal cs + 2 ^ 32 - c.size = usedTotal cs - c.size + 2 ^ 32 by omega,
    Nat.add_mod_right, Nat.mod_eq_of_lt (by omega)]
  omega

/-- A call that leaves room for a header keeps the counter exact. -/
theorem countedInv_step {s t : HeapState} {call : HeapCall} (h : CountedInv s)
    (hroom : LeavesHeader s call) (hstep : SizedStep s call t) : CountedInv t := by
  obtain ⟨hstep, hsized⟩ := hstep
  cases hstep with
  | @malloc size h' answer _ hcall =>
      obtain ⟨cs, hinv, hused⟩ := h
      obtain ⟨hinv', hcount⟩ := counted_malloc hinv hused hsized hcall
      refine ⟨_, hinv', ?_⟩
      cases hfit : firstFit (size + sizeofAllocHeader) heapPtr cs with
      | none =>
          rw [hfit] at hcount
          exact hcount
      | some hole =>
          rw [hfit] at hcount
          have hlong := hroom cs hole hinv.wellFormed hfit
          rw [hcount.2, placedSize, if_pos (by omega)]
          exact hcount.1
  | free hlive => exact h.free hlive
  | store hlive hlo hhi =>
      obtain ⟨cs, hinv, hused⟩ := h
      exact ⟨cs, hinv.store hlive _ hlo hhi, hused⟩

/-- A call that does not makes it too small at once. -/
theorem not_exact_of_no_header {s t : HeapState} {call : HeapCall} (h : CountedInv s)
    (hroom : ¬ LeavesHeader s call) (hstep : SizedStep s call t) : ¬ MemoryUsedExact t := by
  obtain ⟨hstep, hsized⟩ := hstep
  cases hstep with
  | @malloc size h' answer _ hcall =>
      obtain ⟨cs, hinv, hused⟩ := h
      obtain ⟨hinv', hcount⟩ := counted_malloc hinv hused hsized hcall
      unfold LeavesHeader at hroom
      push Not at hroom
      obtain ⟨ds, hole, hwf, hfit, hshort⟩ := hroom
      obtain rfl := hwf.unique hinv.wellFormed
      rw [hfit] at hcount
      obtain ⟨hcounter, hchain⟩ := hcount
      have hlong := (mem_holes_of_firstFit hfit).2
      rw [placedSize, if_neg (by omega)] at hchain
      rintro ⟨⟨es, hes, hexact⟩, -, -⟩
      obtain rfl := hes.unique hinv'.wellFormed
      simp only at hexact
      omega
  | free hlive => exact absurd trivial hroom
  | store hlive hlo hhi => exact absurd trivial hroom

/-- Over every run of calls after `heap_init`: the counter is exact in every state
reached if and only if every request that is met leaves room for a header
behind it. -/
theorem memoryUsed_exact_iff (m : Memory) {path : List (HeapCall × HeapState)}
    (hpath : IsPath SizedStep (heapStart m) path) :
    (∀ s ∈ visited (heapStart m) path, MemoryUsedExact s) ↔
      StepsMeet LeavesHeader (heapStart m) path := by
  have hexact : ∀ s, CountedInv s → MemoryUsedExact s := fun _ => CountedInv.exact
  have hstep : ∀ s call t, CountedInv s → LeavesHeader s call → SizedStep s call t →
      CountedInv t := fun _ _ _ => countedInv_step
  have hbad : ∀ s call t, CountedInv s → ¬ LeavesHeader s call → SizedStep s call t →
      ¬ MemoryUsedExact t := fun _ _ _ => not_exact_of_no_header
  exact hpath.forall_iff_stepsMeet hexact hstep hbad (countedInv_heapStart m)

/-! ## A request that fills the heap -/

/-- `malloc(HEAP_MAX_SIZE - 6)` on a fresh heap leaves a rest of two bytes. -/
theorem malloc_whole_heap (m : Memory) :
    ∃ h, malloc (heapStart m).heap (heapMaxSize - 6) =
        some (h, some (heapPtr + sizeofAllocHeader)) ∧
      WellFormed h.mem [⟨false, heapMaxSize⟩] ∧ h.memoryUsed = heapMaxSize - 2 := by
  have hfit : firstFit (heapMaxSize - 6 + sizeofAllocHeader) heapPtr [⟨true, heapMaxSize⟩] =
      some (heapPtr, heapMaxSize) :=
    firstFit_cons_fit heapPtr rfl (by decide)
  have hchain : mallocChain (heapMaxSize - 6) [⟨true, heapMaxSize⟩] =
      [⟨false, heapMaxSize⟩] := by
    rw [mallocChain, if_neg (by decide), allocate_cons_fit heapPtr rfl (by decide)]
    rfl
  have hsized : heapMaxSize - 6 + sizeofAllocHeader < 2 ^ 32 := by decide
  obtain ⟨h, hcall, hwf, hmu, -⟩ := malloc_spec (wellFormed_heapInit ⟨m, 0⟩) hsized
  rw [hfit] at hcall hmu
  rw [hchain] at hwf
  have hsum : (0 + (heapMaxSize - 6 + sizeofAllocHeader)) % 2 ^ 32 = heapMaxSize - 2 := by
    decide
  exact ⟨h, hcall, hwf, hmu.trans hsum⟩

/-- The run that asks for all but six bytes of the heap and gives them back. -/
theorem whole_heap_run :
    ∃ path : List (HeapCall × HeapState),
      path.map Prod.fst = [.malloc (heapMaxSize - 6), .free (heapPtr + sizeofAllocHeader)] ∧
      IsPath SizedStep (heapStart fun _ => 0) path ∧
      (endState (heapStart fun _ => 0) path).live = [] ∧
      (endState (heapStart fun _ => 0) path).heap.memoryUsed = 2 ^ 32 - 2 := by
  obtain ⟨h, hcall, hwf, hmu⟩ := malloc_whole_heap fun _ => 0
  have hmalloc : HeapStep (heapStart fun _ => 0) (.malloc (heapMaxSize - 6))
      ⟨h, [⟨heapPtr + sizeofAllocHeader, heapMaxSize - 6⟩]⟩ :=
    HeapStep.malloc (by decide) hcall
  have hfree := HeapStep.free
    (s := ⟨h, [⟨heapPtr + sizeofAllocHeader, heapMaxSize - 6⟩]⟩) List.mem_cons_self
  have hsized : heapMaxSize - 6 + sizeofAllocHeader < 2 ^ 32 := by decide
  refine ⟨[(_, _), (_, _)], rfl, ⟨⟨hmalloc, hsized⟩, ⟨hfree, trivial⟩, trivial⟩, rfl, ?_⟩
  have hback : heapPtr + sizeofAllocHeader - sizeofAllocHeader = heapPtr :=
    Nat.add_sub_cancel ..
  have hmem : (heapPtr + sizeofAllocHeader - sizeofAllocHeader, (⟨false, heapMaxSize⟩ : Chunk)) ∈
      spans heapPtr [⟨false, heapMaxSize⟩] := by
    rw [hback]
    exact List.mem_cons_self
  have hfreed := free_spec (h := h) hwf hmem
  simp only [endState]
  rw [hfreed.2.1, hmu]
  rfl

/-- A request that is followed by a free run of 20 bytes and more. -/
theorem memoryUsed_exact_iff_one :
    ∃ path : List (HeapCall × HeapState), path.map Prod.fst = [.malloc 16] ∧
      ((∀ s ∈ visited (heapStart fun _ => 0) path, MemoryUsedExact s) ↔
        StepsMeet LeavesHeader (heapStart fun _ => 0) path) := by
  have hsized : 16 + sizeofAllocHeader < 2 ^ 32 := by decide
  obtain ⟨h, hcall, -, -, -⟩ := malloc_spec (wellFormed_heapInit ⟨fun _ => 0, 0⟩) hsized
  have hmalloc := HeapStep.malloc (s := heapStart fun _ => 0)
    (show 16 < 2 ^ 32 by decide) hcall
  exact ⟨[(_, _)], rfl, memoryUsed_exact_iff _ ⟨⟨hmalloc, hsized⟩, trivial⟩⟩

/-- After that run nothing is out, and the counter is two bytes below zero. -/
theorem whole_heap_run_not_exact :
    ∃ path : List (HeapCall × HeapState), IsPath SizedStep (heapStart fun _ => 0) path ∧
      (endState (heapStart fun _ => 0) path).live = [] ∧
      ¬ MemoryUsedExact (endState (heapStart fun _ => 0) path) := by
  obtain ⟨path, -, hpath, hlive, hused⟩ := whole_heap_run
  refine ⟨path, hpath, hlive, fun hexact => ?_⟩
  have hzero := hexact.zero hlive
  rw [hused] at hzero
  exact absurd hzero (by decide)

end DonutOS.Libc
