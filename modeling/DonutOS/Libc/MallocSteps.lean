import DonutOS.Foundation.Machine
import DonutOS.Libc.MallocSpec

set_option autoImplicit false

/-!
# Libc: `malloc` and `free`, one memory access at a time (`libc/src/malloc.c`)

Nothing keeps an interrupt away from the allocator, so its calls are also modelled
as a machine that makes one access of memory in a step.  What the code holds in
registers between two accesses is part of the program point.  An assignment to a
bit field reads the header word and writes it back.
-/

namespace DonutOS.Libc

open DonutOS.Foundation

/-- Where a call stands: the access it makes next, and the values it holds. -/
inductive HeapPc
  /-- `__malloc_find_empty_space`: `__alloc_is_free(p)` -/
  | find (p : Nat)
  /-- `p += __alloc_size(p)` -/
  | findSize (p : Nat)
  /-- `__malloc_concat_free_chunks`: `__alloc_is_free(p)` -/
  | concat (p : Nat)
  /-- `concat_ptr = p + alloc_p->size` -/
  | concatSize (p : Nat)
  /-- `__alloc_is_free(concat_ptr)` -/
  | merge (p concatPtr : Nat)
  /-- `concat_size = __alloc_size(concat_ptr)` -/
  | mergeSize (p concatPtr : Nat)
  /-- `alloc_p->size += concat_size`, the read -/
  | grow (p concatPtr concatSize : Nat)
  /-- and the write -/
  | grown (p concatPtr concatSize word : Nat)
  /-- `malloc`: `__alloc_is_free(p)` -/
  | test (p : Nat)
  /-- `size < __alloc_size(p)` -/
  | fits (p : Nat)
  /-- `p += __alloc_size(p)` -/
  | skip (p : Nat)
  /-- `next_size = header->size - size` -/
  | rest (p : Nat)
  /-- `header->is_free = 0`, the read -/
  | take (p nextSize : Nat)
  /-- and the write -/
  | taken (p nextSize word : Nat)
  /-- `header->size = size`, the read -/
  | cut (p nextSize : Nat)
  /-- and the write -/
  | cutting (p nextSize word : Nat)
  /-- `memory_used += header->size`, the read of the header -/
  | count (p nextSize : Nat)
  /-- the read of the counter -/
  | counted (p nextSize size : Nat)
  /-- and the write -/
  | counting (p nextSize used : Nat)
  /-- `header->is_free = 1` behind the chunk, the read -/
  | next (p nextSize : Nat)
  /-- and the write -/
  | nextFree (p nextSize word : Nat)
  /-- `header->size = next_size`, the read -/
  | nextCut (p nextSize : Nat)
  /-- and the write -/
  | nextSized (p nextSize word : Nat)
  /-- `header->size += next_size`, the read -/
  | pad (p nextSize : Nat)
  /-- and the write -/
  | padded (p nextSize word : Nat)
  /-- `free`: `(--p)->is_free = 1`, the read -/
  | clear (p : Nat)
  /-- and the write -/
  | cleared (p word : Nat)
  /-- `memory_used -= p->size`, the read of the header -/
  | uncount (p : Nat)
  /-- the read of the counter -/
  | uncounted (size : Nat)
  /-- and the write -/
  | uncounting (used : Nat)
  /-- the call has returned, `malloc` with this pointer -/
  | done (answer : Option Nat)

/-- A call under way. -/
structure CallState where
  heap : Heap
  pc : HeapPc

/-- `while(p < STACK_BASE_PTR …)`, of `malloc` and of the search. -/
def atLoop (p : Nat) : HeapPc := if p < stackBasePtr then .find p else .done none

/-- `while(concat_ptr < STACK_BASE_PTR …)`. -/
def atMerge (p concatPtr : Nat) : HeapPc :=
  if concatPtr < stackBasePtr then .merge p concatPtr else .test p

/-- Behind an access that changes nothing. -/
def CallState.goto (s : CallState) (pc : HeapPc) : CallState := { s with pc := pc }

/-- A write to a header. -/
def CallState.store (s : CallState) (p word : Nat) (pc : HeapPc) : CallState :=
  ⟨{ s.heap with mem := writeWord s.heap.mem p word }, pc⟩

/-- One access.  `size` is the request with its header. -/
def callStep (size : Nat) (s : CallState) : CallState :=
  let m := s.heap.mem
  match s.pc with
  | .find p => s.goto (if allocIsFree m p then .concat p else .findSize p)
  | .findSize p => s.goto (atLoop (p + allocSize m p))
  | .concat p => s.goto (if allocIsFree m p then .concatSize p else .test p)
  | .concatSize p => s.goto (atMerge p (p + allocSize m p))
  | .merge p q => s.goto (if allocIsFree m q then .mergeSize p q else .test p)
  | .mergeSize p q => s.goto (.grow p q (allocSize m q))
  | .grow p q n => s.goto (.grown p q n (readWord m p))
  | .grown p q n w => s.store p (w % 2 + 2 * ((w / 2 + n) % 2 ^ 31)) (atMerge p (q + n))
  | .test p => s.goto (if allocIsFree m p then .fits p else atLoop p)
  | .fits p => s.goto (if size < allocSize m p then .rest p else .skip p)
  | .skip p => s.goto (atLoop (p + allocSize m p))
  | .rest p => s.goto (.take p ((allocSize m p + 2 ^ 32 - size) % 2 ^ 32))
  | .take p n => s.goto (.taken p n (readWord m p))
  | .taken p n w => s.store p (w / 2 * 2) (.cut p n)
  | .cut p n => s.goto (.cutting p n (readWord m p))
  | .cutting p n w => s.store p (w % 2 + 2 * (size % 2 ^ 31)) (.count p n)
  | .count p n => s.goto (.counted p n (allocSize m p))
  | .counted p n k => s.goto (.counting p n ((s.heap.memoryUsed + k) % 2 ^ 32))
  | .counting p n used =>
      ⟨{ s.heap with memoryUsed := used },
        if sizeofAllocHeader < n then .next p n else .pad p n⟩
  | .next p n => s.goto (.nextFree p n (readWord m (p + size)))
  | .nextFree p n w => s.store (p + size) (w / 2 * 2 + 1) (.nextCut p n)
  | .nextCut p n => s.goto (.nextSized p n (readWord m (p + size)))
  | .nextSized p n w =>
      s.store (p + size) (w % 2 + 2 * (n % 2 ^ 31)) (.done (some (p + sizeofAllocHeader)))
  | .pad p n => s.goto (.padded p n (readWord m p))
  | .padded p n w =>
      s.store p (w % 2 + 2 * ((w / 2 + n) % 2 ^ 31)) (.done (some (p + sizeofAllocHeader)))
  | .clear p => s.goto (.cleared p (readWord m p))
  | .cleared p w => s.store p (w / 2 * 2 + 1) (.uncount p)
  | .uncount p => s.goto (.uncounted (allocSize m p))
  | .uncounted k => s.goto (.uncounting ((s.heap.memoryUsed + 2 ^ 32 - k) % 2 ^ 32))
  | .uncounting used => ⟨{ s.heap with memoryUsed := used }, .done none⟩
  | .done _ => s

/-- A call of the allocator. -/
inductive HeapRequest
  | malloc (size : Nat)
  | free (ptr : Nat)

/-- The request with its header. -/
def HeapRequest.need : HeapRequest → Nat
  | .malloc size => (size + sizeofAllocHeader) % 2 ^ 32
  | .free _ => 0

/-- The first access of a call. -/
def HeapRequest.start : HeapRequest → HeapPc
  | .malloc size =>
      let size := (size + sizeofAllocHeader) % 2 ^ 32
      if heapMaxSize ≤ size ∨ size = 0 then .done none else atLoop heapPtr
  | .free ptr => .clear (ptr - sizeofAllocHeader)

/-- A call after `n` accesses. -/
def HeapRequest.after (request : HeapRequest) (h : Heap) (n : Nat) : CallState :=
  (callStep request.need)^[n] ⟨h, request.start⟩

/-! ## The machine makes the same calls -/

variable {size : Nat}

theorem callStep_done (h : Heap) (answer : Option Nat) :
    callStep size ⟨h, .done answer⟩ = ⟨h, .done answer⟩ := rfl

/-- Accesses lead from one state of a call to another. -/
abbrev CallLeads (size : Nat) : CallState → CallState → Prop := Leads (callStep size)

theorem atLoop_of_lt {p : Nat} (h : p < stackBasePtr) : atLoop p = .find p := if_pos h

theorem atLoop_of_not_lt {p : Nat} (h : ¬ p < stackBasePtr) : atLoop p = .done none := if_neg h

theorem atMerge_of_lt {p q : Nat} (h : q < stackBasePtr) : atMerge p q = .merge p q := if_pos h

theorem atMerge_of_not_lt {p q : Nat} (h : ¬ q < stackBasePtr) : atMerge p q = .test p := if_neg h

section Tests

variable {h : Heap} {p q : Nat} {free : Bool}

theorem step_find (hfree : allocIsFree h.mem p = free) :
    callStep size ⟨h, .find p⟩ = ⟨h, if free then .concat p else .findSize p⟩ := by
  rw [← hfree]
  rfl

theorem step_concat (hfree : allocIsFree h.mem p = free) :
    callStep size ⟨h, .concat p⟩ = ⟨h, if free then .concatSize p else .test p⟩ := by
  rw [← hfree]
  rfl

theorem step_merge (hfree : allocIsFree h.mem q = free) :
    callStep size ⟨h, .merge p q⟩ = ⟨h, if free then .mergeSize p q else .test p⟩ := by
  rw [← hfree]
  rfl

theorem step_test (hfree : allocIsFree h.mem p = free) :
    callStep size ⟨h, .test p⟩ = ⟨h, if free then .fits p else atLoop p⟩ := by
  rw [← hfree]
  rfl

theorem step_fits (hfits : size < allocSize h.mem p) :
    callStep size ⟨h, .fits p⟩ = ⟨h, .rest p⟩ := congrArg (CallState.mk h) (if_pos hfits)

theorem step_fits_not (hfits : ¬ size < allocSize h.mem p) :
    callStep size ⟨h, .fits p⟩ = ⟨h, .skip p⟩ := congrArg (CallState.mk h) (if_neg hfits)

end Tests

/-- The machine in `__malloc_find_empty_space`. -/
theorem find_leads {h : Heap} {q : Nat} : ∀ {fuel p : Nat},
    mallocFindEmptySpace h.mem fuel p = some q →
      CallLeads size ⟨h, atLoop p⟩ ⟨h, if q < stackBasePtr then .concat q else .done none⟩ ∧
        (q < stackBasePtr → allocIsFree h.mem q = true) := by
  intro fuel
  induction fuel with
  | zero => exact fun hfind => nomatch hfind
  | succ fuel ih =>
      intro p hfind
      rw [mallocFindEmptySpace] at hfind
      by_cases hp : p < stackBasePtr
      · rw [atLoop_of_lt hp]
        cases hfree : allocIsFree h.mem p with
        | false =>
            rw [if_pos ⟨hp, hfree⟩] at hfind
            obtain ⟨hleads, hstop⟩ := ih hfind
            exact ⟨.head (step_find hfree) (.head rfl hleads), hstop⟩
        | true =>
            rw [if_neg fun hin => Bool.noConfusion (hfree.symm.trans hin.2)] at hfind
            obtain rfl := Option.some.inj hfind
            rw [if_pos hp]
            exact ⟨.one (step_find hfree), fun _ => hfree⟩
      · rw [if_neg fun hin => hp hin.1] at hfind
        obtain rfl := Option.some.inj hfind
        rw [atLoop_of_not_lt hp, if_neg hp]
        exact ⟨.refl _ _, fun hin => absurd hin hp⟩

/-- The machine in the loop of `__malloc_concat_free_chunks`. -/
theorem merge_leads {p used : Nat} {m' : Memory} : ∀ {fuel : Nat} {m : Memory} {q : Nat},
    mallocConcatLoop p fuel m q = some m' →
      CallLeads size ⟨⟨m, used⟩, atMerge p q⟩ ⟨⟨m', used⟩, .test p⟩ := by
  intro fuel
  induction fuel with
  | zero => exact fun hloop => nomatch hloop
  | succ fuel ih =>
      intro m q hloop
      rw [mallocConcatLoop] at hloop
      by_cases hq : q < stackBasePtr
      · rw [atMerge_of_lt hq]
        cases hfree : allocIsFree m q with
        | true =>
            rw [if_pos ⟨hq, hfree⟩] at hloop
            exact .head (step_merge hfree) (.head rfl (.head rfl (.head rfl (ih hloop))))
        | false =>
            rw [if_neg fun hin => Bool.noConfusion (hfree.symm.trans hin.2)] at hloop
            obtain rfl := Option.some.inj hloop
            exact .head (step_merge hfree) (.refl _ _)
      · rw [if_neg fun hin => hq hin.1] at hloop
        obtain rfl := Option.some.inj hloop
        rw [atMerge_of_not_lt hq]
        exact .refl _ _

theorem concat_leads {p used : Nat} {m m' : Memory} (hp : p < stackBasePtr)
    (hconcat : mallocConcatFreeChunks m p = some m') :
    CallLeads size ⟨⟨m, used⟩, .concat p⟩ ⟨⟨m', used⟩, .test p⟩ := by
  unfold mallocConcatFreeChunks at hconcat
  cases hfree : allocIsFree m p with
  | true =>
      rw [if_pos ⟨hp, hfree⟩] at hconcat
      exact .head (step_concat hfree) (.head rfl (merge_leads hconcat))
  | false =>
      rw [if_neg fun hin => Bool.noConfusion (hfree.symm.trans hin.2)] at hconcat
      obtain rfl := Option.some.inj hconcat
      exact .head (step_concat hfree) (.refl _ _)

/-- The machine in the branch that takes a chunk. -/
theorem take_leads {h : Heap} {p : Nat} (hfits : size < allocSize h.mem p) :
    CallLeads size ⟨h, .rest p⟩ ⟨mallocTake h p size, .done (some (p + sizeofAllocHeader))⟩ := by
  have hlt : allocSize h.mem p < 2 ^ 31 := by
    have hword := readWord_lt h.mem p
    unfold allocSize
    omega
  have hnext : (allocSize h.mem p + 2 ^ 32 - size) % 2 ^ 32 = allocSize h.mem p - size := by
    omega
  have hrest : callStep size ⟨h, .rest p⟩ = ⟨h, .take p (allocSize h.mem p - size)⟩ :=
    congrArg (fun n => (⟨h, .take p n⟩ : CallState)) hnext
  refine .head hrest (.head rfl (.head rfl (.head rfl (.head rfl (.head rfl (.head rfl ?_))))))
  simp only [mallocTake]
  by_cases hsplit : sizeofAllocHeader < allocSize h.mem p - size
  · rw [if_pos hsplit]
    exact .head (congrArg (CallState.mk _) (if_pos hsplit))
      (.head rfl (.head rfl (.head rfl (.one rfl))))
  · rw [if_neg hsplit]
    exact .head (congrArg (CallState.mk _) (if_neg hsplit)) (.head rfl (.one rfl))

/-- The machine in the loop of `malloc`. -/
theorem loop_leads {h' : Heap} {chunk : Option Nat} : ∀ {fuel : Nat} {h : Heap} {p : Nat},
    mallocLoop size fuel h p = some (h', chunk) →
      CallLeads size ⟨h, atLoop p⟩ ⟨h', .done (chunk.map (· + sizeofAllocHeader))⟩ := by
  intro fuel
  induction fuel with
  | zero =>
      intro h p hloop
      cases hloop
  | succ fuel ih =>
      intro h p hloop
      rw [mallocLoop] at hloop
      by_cases hp : p < stackBasePtr
      · rw [if_pos hp] at hloop
        cases hfind : mallocFindEmptySpace h.mem loopFuel p with
        | none =>
            rw [hfind] at hloop
            cases hloop
        | some q =>
            cases hconcat : mallocConcatFreeChunks h.mem q with
            | none =>
                simp only [hfind, hconcat] at hloop
                cases hloop
            | some m =>
                simp only [hfind, hconcat] at hloop
                refine (find_leads hfind).1.trans ?_
                by_cases hq : q < stackBasePtr
                · rw [if_pos hq]
                  refine (concat_leads hq hconcat).trans ?_
                  cases hfree : allocIsFree m q with
                  | false =>
                      rw [if_neg fun hin => Bool.noConfusion (hfree.symm.trans hin.2)] at hloop
                      exact .head (step_test hfree) (ih hloop)
                  | true =>
                      rw [if_pos ⟨hq, hfree⟩] at hloop
                      by_cases hfits : size < allocSize m q
                      · rw [if_pos hfits] at hloop
                        obtain ⟨rfl, rfl⟩ := Prod.mk.inj (Option.some.inj hloop)
                        exact .head (step_test hfree) (.head (step_fits hfits) (take_leads hfits))
                      · rw [if_neg hfits] at hloop
                        exact .head (step_test hfree)
                          (.head (step_fits_not hfits) (.head rfl (ih hloop)))
                · -- the search has come to the end of the heap
                  rw [mallocConcatFreeChunks, if_neg fun hin => hq hin.1] at hconcat
                  obtain rfl := Option.some.inj hconcat
                  rw [if_neg fun hin => hq hin.1] at hloop
                  have hrest := ih hloop
                  rw [atLoop_of_not_lt hq] at hrest
                  rw [if_neg hq]
                  exact hrest
      · rw [if_neg hp] at hloop
        obtain ⟨rfl, rfl⟩ := Prod.mk.inj (Option.some.inj hloop)
        rw [atLoop_of_not_lt hp]
        exact .refl _ _

/-- When `malloc` returns, the machine ends with the same heap and answer. -/
theorem malloc_leads {h h' : Heap} {n : Nat} {answer : Option Nat}
    (hcall : malloc h n = some (h', answer)) :
    CallLeads (HeapRequest.malloc n).need ⟨h, (HeapRequest.malloc n).start⟩ ⟨h', .done answer⟩ := by
  simp only [malloc] at hcall
  simp only [HeapRequest.start]
  split at hcall
  · next hrefused =>
      obtain ⟨rfl, rfl⟩ := Prod.mk.inj (Option.some.inj hcall)
      rw [if_pos hrefused]
      exact .refl _ _
  · next hmet =>
      rw [if_neg hmet]
      split at hcall
      · exact nomatch hcall
      · next hloop =>
          obtain ⟨rfl, rfl⟩ := Prod.mk.inj (Option.some.inj hcall)
          exact loop_leads hloop

/-- The machine on a call of `free`. -/
theorem free_leads (h : Heap) (ptr : Nat) :
    CallLeads (HeapRequest.free ptr).need ⟨h, (HeapRequest.free ptr).start⟩
      ⟨free h ptr, .done none⟩ :=
  .head rfl (.head rfl (.head rfl (.head rfl (.one rfl))))

end DonutOS.Libc
