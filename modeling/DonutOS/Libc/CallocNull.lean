import DonutOS.Libc.CallInvariant
import DonutOS.Libc.Calloc

set_option autoImplicit false

/-!
# Libc: which bytes `calloc` writes

A call of `calloc` makes the stores of its `malloc` and then those of its own loop.
The loop does not look at the pointer, so a refused request writes from address 0
on.  The stores of `malloc` are read off the machine of `Libc.MallocSteps`.
-/

namespace DonutOS.Libc

open DonutOS.Foundation

/-! ## The stores -/

/-- The header that the next access writes, when it writes memory. -/
def HeapPc.storesTo (need : Nat) : HeapPc → Option Nat
  | .grown p _ _ _ => some p
  | .taken p _ _ => some p
  | .cutting p _ _ => some p
  | .nextFree p _ _ => some (p + need)
  | .nextSized p _ _ => some (p + need)
  | .padded p _ _ => some p
  | .cleared p _ => some p
  | _ => none

/-- An access changes no byte but those of the header it writes. -/
theorem callStep_frame {need b : Nat} {s : CallState}
    (h : ∀ p, s.pc.storesTo need = some p → b < p ∨ p + sizeofAllocHeader ≤ b) :
    (callStep need s).heap.mem b = s.heap.mem b := by
  obtain ⟨heap, pc⟩ := s
  cases pc with
  | grown p q n w => exact writeWord_of_outside (h p rfl)
  | taken p n w => exact writeWord_of_outside (h p rfl)
  | cutting p n w => exact writeWord_of_outside (h p rfl)
  | nextFree p n w => exact writeWord_of_outside (h (p + need) rfl)
  | nextSized p n w => exact writeWord_of_outside (h (p + need) rfl)
  | padded p n w => exact writeWord_of_outside (h p rfl)
  | cleared p w => exact writeWord_of_outside (h p rfl)
  | _ => rfl

/-- Byte `b` is written by a store of the call. -/
def HeapRequest.Writes (request : HeapRequest) (h : Heap) (b : Nat) : Prop :=
  ∃ n p, (request.after h n).pc.storesTo request.need = some p ∧ p ≤ b ∧
    b < p + sizeofAllocHeader

/-- A byte that a call of `calloc` writes: in `malloc`, or through the pointer that
`malloc` returned. -/
inductive CallocWrites (h : Heap) (size regSize b : Nat) : Prop
  | header (hin : (HeapRequest.malloc (size * regSize % 2 ^ 32)).Writes h b)
  | zero {h' : Heap} {array : Option Nat} {i : Nat}
      (hcall : malloc h (size * regSize % 2 ^ 32) = some (h', array))
      (hi : i < size * regSize % 2 ^ 32) (hb : b = (array.getD 0 + i) % 2 ^ 32)

/-! ## A refused `malloc` -/

/-- The call has found its chunk, and will answer with it. -/
def HeapPc.Committed : HeapPc → Prop
  | .rest _ | .take _ _ | .taken _ _ _ | .cut _ _ | .cutting _ _ _ | .count _ _ => True
  | .counted _ _ _ | .counting _ _ _ | .next _ _ | .nextFree _ _ _ => True
  | .nextCut _ _ | .nextSized _ _ _ | .pad _ _ | .padded _ _ _ => True
  | .done answer => answer ≠ none
  | _ => False

theorem committed_step {need : Nat} (s : CallState) (h : s.pc.Committed) :
    (callStep need s).pc.Committed := by
  obtain ⟨heap, pc⟩ := s
  cases pc with
  | counting p n used =>
      unfold callStep
      simp only
      split <;> trivial
  | nextSized p n w => exact Option.some_ne_none _
  | padded p n w => exact Option.some_ne_none _
  | done answer => exact h
  | find p => exact h.elim
  | findSize p => exact h.elim
  | concat p => exact h.elim
  | concatSize p => exact h.elim
  | merge p q => exact h.elim
  | mergeSize p q => exact h.elim
  | grow p q n => exact h.elim
  | grown p q n w => exact h.elim
  | test p => exact h.elim
  | fits p => exact h.elim
  | skip p => exact h.elim
  | clear p => exact h.elim
  | cleared p w => exact h.elim
  | uncount p => exact h.elim
  | uncounted k => exact h.elim
  | uncounting used => exact h.elim
  | _ => trivial

/-- `p` is where a chunk of the heap starts. -/
def StartsChunk (cs : List Chunk) (p : Nat) : Prop := ∃ c, (p, c) ∈ spans heapPtr cs

/-- The call is still looking for a chunk.  It has merged chunks, but made no new
boundary. -/
structure Searching (cs : List Chunk) (need : Nat) (s : CallState) : Prop where
  known : MallocInv need s
  starts : ∀ ds, WellFormed s.heap.mem ds → ∀ p, StartsChunk ds p → StartsChunk cs p

/-- Merging a chunk with the one behind it drops a boundary. -/
theorem startsChunk_of_merged {ds es : List Chunk} {c e : Chunk} {p : Nat}
    (h : StartsChunk (ds ++ ⟨true, c.size + e.size⟩ :: es) p) :
    StartsChunk (ds ++ c :: e :: es) p := by
  obtain ⟨x, hx⟩ := h
  rw [spans_append, List.mem_append, spans_cons, List.mem_cons] at hx
  unfold StartsChunk
  simp only [spans_append, spans_cons, List.mem_append, List.mem_cons]
  rcases hx with hx | hx | hx
  · exact ⟨x, Or.inl hx⟩
  · exact ⟨c, Or.inr (Or.inl (Prod.ext (Prod.mk.inj hx).1 rfl))⟩
  · rw [← Nat.add_assoc] at hx
    exact ⟨x, Or.inr (Or.inr (Or.inr hx))⟩

theorem searching_step {cs : List Chunk} {need : Nat} {s : CallState}
    (h : Searching cs need s) (hnot : ¬ s.pc.Committed) :
    Searching cs need (callStep need s) := by
  refine ⟨mallocInv_step s h.known, ?_⟩
  obtain ⟨heap, pc⟩ := s
  have hinv := h.known
  cases pc with
  | grown p q n w =>
      obtain ⟨⟨ds, c, e, es, hat, -, -, rfl⟩, hword⟩ := hinv
      simp only at hword hat
      subst hword
      intro ds' hwf r hr
      rw [hwf.unique (hat.grow rfl).stands.wellFormed] at hr
      exact h.starts _ hat.stands.wellFormed r (startsChunk_of_merged hr)
  | taken p n w => exact absurd trivial hnot
  | cutting p n w => exact absurd trivial hnot
  | nextFree p n w => exact absurd trivial hnot
  | nextSized p n w => exact absurd trivial hnot
  | padded p n w => exact absurd trivial hnot
  | cleared p w => exact hinv.elim
  | _ => exact h.starts

/-- A call looks for a chunk until it commits itself to one. -/
theorem committed_or_searching {h : Heap} {cs : List Chunk} (hwf : WellFormed h.mem cs)
    (size n : Nat) :
    ((HeapRequest.malloc size).after h n).pc.Committed ∨
      Searching cs (HeapRequest.malloc size).need ((HeapRequest.malloc size).after h n) := by
  let need := (HeapRequest.malloc size).need
  have hstep : ∀ s : CallState, s.pc.Committed ∨ Searching cs need s →
      (callStep need s).pc.Committed ∨ Searching cs need (callStep need s) := by
    intro s hs
    by_cases hcom : s.pc.Committed
    · exact Or.inl (committed_step s hcom)
    · exact Or.inr (searching_step (hs.resolve_left hcom) hcom)
  have hstart : Searching cs need ⟨h, (HeapRequest.malloc size).start⟩ := by
    refine ⟨?_, ?_⟩
    · simp only [HeapRequest.start]
      split
      · trivial
      · exact mallocInv_atLoop _ (stands_heapPtr hwf) (cut_nil cs)
    · intro ds hds p hp
      rw [hds.unique hwf] at hp
      exact hp
  exact iterate_invariant hstep (Or.inr hstart) n

/-- A call that is refused never commits itself. -/
theorem not_committed_of_refused {h h' : Heap} {size : Nat}
    (hcall : malloc h size = some (h', none)) (n : Nat) :
    ¬ ((HeapRequest.malloc size).after h n).pc.Committed := by
  intro hcom
  have hmiddle : CallLeads (HeapRequest.malloc size).need ⟨h, (HeapRequest.malloc size).start⟩
      ((HeapRequest.malloc size).after h n) := ⟨n, rfl⟩
  obtain ⟨k, hk⟩ := hmiddle.of_middle (malloc_leads hcall) (callStep_done h' none)
  have hstep : ∀ s : CallState, s.pc.Committed →
      (callStep (HeapRequest.malloc size).need s).pc.Committed := committed_step
  have hend := iterate_invariant hstep hcom k
  rw [hk] at hend
  exact hend rfl

/-- What a call writes while it looks for a chunk is the header of a chunk. -/
theorem Searching.startsChunk {cs : List Chunk} {need p : Nat} {s : CallState}
    (h : Searching cs need s) (hnot : ¬ s.pc.Committed)
    (hstore : s.pc.storesTo need = some p) : StartsChunk cs p := by
  obtain ⟨heap, pc⟩ := s
  have hinv := h.known
  cases pc with
  | grown q r k w =>
      obtain rfl := Option.some.inj hstore
      obtain ⟨⟨ds, c, e, es, hat, -⟩, -⟩ := hinv
      exact h.starts _ hat.stands.wellFormed q ⟨c, hat.stands.chunk_mem⟩
  | taken q k w => exact absurd trivial hnot
  | cutting q k w => exact absurd trivial hnot
  | nextFree q k w => exact absurd trivial hnot
  | nextSized q k w => exact absurd trivial hnot
  | padded q k w => exact absurd trivial hnot
  | cleared q w => exact hinv.elim
  | _ => exact nomatch (hstore : none = some p)

/-- A refused `malloc` writes headers of the heap it was called on, and nothing
else. -/
theorem inHeader_of_refused {h h' : Heap} {cs : List Chunk} {size b : Nat}
    (hwf : WellFormed h.mem cs) (hcall : malloc h size = some (h', none))
    (hin : (HeapRequest.malloc size).Writes h b) : InHeader heapPtr cs b := by
  obtain ⟨n, p, hstore, hlo, hhi⟩ := hin
  have hnot := not_committed_of_refused hcall n
  have hsearch := (committed_or_searching hwf size n).resolve_left hnot
  obtain ⟨c, hc⟩ := hsearch.startsChunk hnot hstore
  exact ⟨(p, c), hc, hlo, hhi⟩

/-! ## What a caller of `calloc` counts on -/

/-- A call for `size * regSize` bytes is atomic when no free run is long enough, and
otherwise answers with a new block of zeros and leaves the other blocks alone. -/
structure CallocMeets (h : Heap) (cs : List Chunk) (size regSize : Nat) : Prop where
  refused : (¬ ∃ run, RunFits cs (size * regSize + sizeofAllocHeader) run) →
    ∃ h', calloc h size regSize = some (h', none) ∧
      ∀ b, CallocWrites h size regSize b → InHeader heapPtr cs b
  served : (∃ run, RunFits cs (size * regSize + sizeofAllocHeader) run) →
    ∃ h' ds x, calloc h size regSize = some (h', some (x.1 + sizeofAllocHeader)) ∧
      WellFormed h'.mem ds ∧ x ∈ spans heapPtr ds ∧ x ∉ spans heapPtr cs ∧
      x.2.free = false ∧ size * regSize + sizeofAllocHeader ≤ x.2.size ∧
      (∀ i < size * regSize, h'.mem (x.1 + sizeofAllocHeader + i) = 0) ∧
      ∀ y ∈ spans heapPtr cs, y.2.free = false → y ∈ spans heapPtr ds ∧
        ∀ b, InPayload y b → h'.mem b = h.mem b

section Calls

variable {h : Heap} {cs : List Chunk} {size regSize : Nat}

theorem calloc_eq {h₁ : Heap} {answer : Option Nat}
    (hsize : size * regSize + sizeofAllocHeader < 2 ^ 32)
    (hmalloc : malloc h (size * regSize) = some (h₁, answer)) :
    calloc h size regSize = some
      ({ h₁ with mem := zeroBytes (answer.getD 0) (size * regSize) h₁.mem }, answer) := by
  have hbytes : size * regSize % 2 ^ 32 = size * regSize :=
    Nat.mod_eq_of_lt (Nat.lt_of_le_of_lt (Nat.le_add_right _ _) hsize)
  unfold calloc
  simp only [hbytes, hmalloc]

/-- A request that fits takes the first hole that is long enough. -/
theorem calloc_taken (hwf : WellFormed h.mem cs)
    (hsize : size * regSize + sizeofAllocHeader < 2 ^ 32) {hole : Nat × Nat}
    (hfit : firstFit (size * regSize + sizeofAllocHeader) heapPtr cs = some hole) :
    ∃ h', calloc h size regSize = some (h', some (hole.1 + sizeofAllocHeader)) ∧
      WellFormed h'.mem (mallocChain (size * regSize) cs) ∧
      ∀ i < size * regSize, h'.mem (hole.1 + sizeofAllocHeader + i) = 0 := by
  obtain ⟨h₁, hmalloc, hwf₁, -, -⟩ := malloc_spec hwf hsize
  rw [hfit] at hmalloc
  obtain ⟨hole', hfit', hptr, -, htaken, hlong⟩ := malloc_some hwf hsize hmalloc
  rw [hfit] at hfit'
  obtain rfl := Option.some.inj hfit'
  -- the bytes zeroed are payload bytes of the chunk taken
  have hend := (mem_spans_bounds htaken).2
  have htop : heapPtr + total (mallocChain (size * regSize) cs) < 2 ^ 32 := by
    rw [hwf₁.total_eq]
    decide
  have hroom : hole.1 + sizeofAllocHeader + size * regSize ≤ 2 ^ 32 := by
    unfold takenChunk at hend hlong
    simp only at hend hlong
    omega
  have hzero := zeroBytes_apply hroom h₁.mem
  refine ⟨_, calloc_eq hsize hmalloc, ?_, fun i hi => ?_⟩
  · refine hwf₁.of_payload htaken fun b hne => ?_
    by_contra hout
    refine hne ((hzero b).trans (if_neg fun hin => hout ⟨hin.1, ?_⟩))
    have hlt := hin.2
    unfold takenChunk at hlong ⊢
    simp only at hlong ⊢
    omega
  · exact (hzero _).trans (if_pos ⟨Nat.le_add_right _ _, Nat.add_lt_add_left hi _⟩)

/-- In a free run behind used chunks, a request takes the start of the run. -/
theorem mallocChain_behind {us : List Chunk} {n size : Nat} (hused : ∀ c ∈ us, c.free = false)
    (hn : n ≤ heapMaxSize) (hroom : size + sizeofAllocHeader + sizeofAllocHeader < n) :
    mallocChain size (us ++ [⟨true, n⟩]) =
      us ++ [⟨false, size + sizeofAllocHeader⟩] ++ [⟨true, n - (size + sizeofAllocHeader)⟩] := by
  unfold mallocChain
  rw [if_neg (by omega), allocate_append_free hused hroom]

theorem calloc_behind {us : List Chunk} {n : Nat} (hwf : WellFormed h.mem (us ++ [⟨true, n⟩]))
    (hused : ∀ c ∈ us, c.free = false)
    (hroom : size * regSize + sizeofAllocHeader + sizeofAllocHeader < n) :
    ∃ h', calloc h size regSize = some (h', some (heapPtr + total us + sizeofAllocHeader)) ∧
      WellFormed h'.mem (us ++ [⟨false, size * regSize + sizeofAllocHeader⟩] ++
        [⟨true, n - (size * regSize + sizeofAllocHeader)⟩]) := by
  have htotal := hwf.total_eq
  have hmax := heapMaxSize_lt
  rw [total_append, total_cons, total_nil] at htotal
  simp only at htotal
  have hfit : firstFit (size * regSize + sizeofAllocHeader) heapPtr (us ++ [⟨true, n⟩]) =
      some (heapPtr + total us, n) := firstFit_append_free hused (by omega)
  obtain ⟨h', hcall, hwf', -⟩ := calloc_taken hwf (by omega) hfit
  rw [mallocChain_behind hused (by omega) hroom] at hwf'
  exact ⟨h', hcall, hwf'⟩

/-- A request that fits is served. -/
theorem calloc_served (hwf : WellFormed h.mem cs)
    (hsize : size * regSize + sizeofAllocHeader < 2 ^ 32) {hole : Nat × Nat}
    (hfit : firstFit (size * regSize + sizeofAllocHeader) heapPtr cs = some hole) :
    ∃ h' ds x, calloc h size regSize = some (h', some (x.1 + sizeofAllocHeader)) ∧
      WellFormed h'.mem ds ∧ x ∈ spans heapPtr ds ∧ x ∉ spans heapPtr cs ∧
      x.2.free = false ∧ size * regSize + sizeofAllocHeader ≤ x.2.size ∧
      (∀ i < size * regSize, h'.mem (x.1 + sizeofAllocHeader + i) = 0) ∧
      ∀ y ∈ spans heapPtr cs, y.2.free = false → y ∈ spans heapPtr ds ∧
        ∀ b, InPayload y b → h'.mem b = h.mem b := by
  obtain ⟨h', hcall, hwf', hzero⟩ := calloc_taken hwf hsize hfit
  have htaken : takenChunk (size * regSize) hole ∈
      spans heapPtr (mallocChain (size * regSize) cs) :=
    (mem_spans_mallocChain_iff hwf rfl).mpr (Or.inr ⟨hole, hfit, rfl⟩)
  refine ⟨h', mallocChain (size * regSize) cs, takenChunk (size * regSize) hole, hcall, hwf',
    htaken, takenChunk_not_mem hwf hfit, rfl, le_placedSize (mem_holes_of_firstFit hfit).2,
    hzero, fun y hy hused => ⟨mem_spans_mallocChain _ hwf hy hused, fun b hb => ?_⟩⟩
  have hbytes : size * regSize % 2 ^ 32 + sizeofAllocHeader < 2 ^ 32 :=
    Nat.lt_of_le_of_lt (Nat.add_le_add_right (Nat.mod_le _ _) _) hsize
  exact calloc_payload hwf hy hused hb hbytes hcall

/-- A request that fits nowhere is refused. -/
theorem malloc_refused {n : Nat} (hwf : WellFormed h.mem cs)
    (hsize : n + sizeofAllocHeader < 2 ^ 32)
    (hnone : ¬ ∃ run, RunFits cs (n + sizeofAllocHeader) run) :
    ∃ h', malloc h n = some (h', none) := by
  obtain ⟨h', hmalloc, -⟩ := malloc_spec hwf hsize
  rw [firstFit_eq_none_iff.mpr hnone] at hmalloc
  exact ⟨h', hmalloc⟩

/-- `calloc` does what its callers count on just when some free run is long enough,
or there is nothing to write. -/
theorem callocMeets_iff (hwf : WellFormed h.mem cs)
    (hsize : size * regSize + sizeofAllocHeader < 2 ^ 32) :
    CallocMeets h cs size regSize ↔
      (∃ run, RunFits cs (size * regSize + sizeofAllocHeader) run) ∨ size * regSize = 0 := by
  have hbytes : size * regSize % 2 ^ 32 = size * regSize :=
    Nat.mod_eq_of_lt (Nat.lt_of_le_of_lt (Nat.le_add_right _ _) hsize)
  constructor
  · intro hmeets
    by_contra hnot
    rw [not_or] at hnot
    obtain ⟨hnone, hpos⟩ := hnot
    obtain ⟨h', hmalloc⟩ := malloc_refused hwf hsize hnone
    obtain ⟨-, -, hin⟩ := hmeets.refused hnone
    -- the first round of the loop writes address 0
    have hzero : CallocWrites h size regSize 0 :=
      .zero (by rw [hbytes]; exact hmalloc) (by rw [hbytes]; exact Nat.pos_of_ne_zero hpos) rfl
    exact absurd (hin 0 hzero).ge (by decide)
  · intro hcase
    refine ⟨fun hnone => ?_, fun hfits => ?_⟩
    · obtain ⟨h', hmalloc⟩ := malloc_refused hwf hsize hnone
      refine ⟨_, calloc_eq hsize hmalloc, fun b hb => ?_⟩
      cases hb with
      | header hin =>
          rw [hbytes] at hin
          exact inHeader_of_refused hwf hmalloc hin
      | zero _ hi _ =>
          rw [hbytes, hcase.resolve_left hnone] at hi
          exact absurd hi (Nat.not_lt_zero _)
    · cases hfit : firstFit (size * regSize + sizeofAllocHeader) heapPtr cs with
      | none => exact absurd hfits (firstFit_eq_none_iff.mp hfit)
      | some hole => exact calloc_served hwf hsize hfit

end Calls

/-! ## A full heap -/

/-- A fresh heap after `malloc(HEAP_MAX_SIZE - 6)`: one used chunk from end to end. -/
def fullHeap : Heap :=
  ⟨setIsFree (heapInit ⟨fun _ => 0, 0⟩).mem heapPtr false, heapMaxSize - 2⟩

theorem wellFormed_fullHeap : WellFormed fullHeap.mem [⟨false, heapMaxSize⟩] :=
  ((stands_heapPtr (wellFormed_heapInit ⟨fun _ => 0, 0⟩)).withFlag false).wellFormed

/-- A full heap answers every call with `NULL` and stays as it is. -/
theorem malloc_fullHeap (size : Nat) : malloc fullHeap size = some (fullHeap, none) := by
  apply malloc_of_used size wellFormed_fullHeap
  intro c hc
  rw [List.mem_singleton.mp hc]

theorem callocMeets_iff_full :
    1 * 1 + sizeofAllocHeader < 2 ^ 32 ∧
      (CallocMeets fullHeap [⟨false, heapMaxSize⟩] 1 1 ↔
        (∃ run, RunFits [⟨false, heapMaxSize⟩] (1 * 1 + sizeofAllocHeader) run) ∨ 1 * 1 = 0) :=
  ⟨by decide, callocMeets_iff wellFormed_fullHeap (by decide)⟩

/-- `calloc(1, 1)` on a full heap writes address 0. -/
theorem not_callocMeets_full :
    ¬ ∀ (h : Heap) (cs : List Chunk) (size regSize : Nat), WellFormed h.mem cs →
      size * regSize + sizeofAllocHeader < 2 ^ 32 → CallocMeets h cs size regSize := by
  intro hall
  have hmeets := hall fullHeap [⟨false, heapMaxSize⟩] 1 1 wellFormed_fullHeap (by decide)
  have hfit : firstFit (1 * 1 + sizeofAllocHeader) heapPtr [⟨false, heapMaxSize⟩] = none := by
    rw [firstFit_cons_used _ _ _ rfl]
    simp [firstFit]
  have hnone := firstFit_eq_none_iff.mp hfit
  obtain ⟨-, -, hin⟩ := hmeets.refused hnone
  have hzero : CallocWrites fullHeap 1 1 0 :=
    .zero (malloc_fullHeap 1) (Nat.one_pos : 0 < 1) rfl
  exact absurd (hin 0 hzero).ge (by decide)

end DonutOS.Libc
