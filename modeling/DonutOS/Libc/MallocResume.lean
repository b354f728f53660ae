import DonutOS.Foundation.ChainCut
import DonutOS.Libc.Calloc
import DonutOS.Libc.MallocSteps

set_option autoImplicit false

/-!
# Libc: a call of the allocator goes on in a changed heap

A call that has been interrupted stands at a position of a chain that is no longer
the one it has seen.  From the head of its loop it settles in every such heap, and
so it does from each point that it would reach there by itself.
-/

namespace DonutOS.Libc

open DonutOS.Foundation

/-! ## A position in the chain -/

/-- `p` is where `es` starts, in a heap that holds `ds` and then `es`. -/
structure Stands (m : Memory) (p : Nat) (ds es : List Chunk) : Prop where
  wellFormed : WellFormed m (ds ++ es)
  start : heapPtr + total ds = p

theorem stands_heapPtr {m : Memory} {cs : List Chunk} (h : WellFormed m cs) :
    Stands m heapPtr [] cs := ⟨h, rfl⟩

theorem Stands.tail {m : Memory} {p : Nat} {ds es : List Chunk} (h : Stands m p ds es) :
    Tail m p es where
  tiles := by
    rw [← h.start]
    exact (tiles_append.mp h.wellFormed.tiles).2
  size_ge c hc := h.wellFormed.size_ge c (List.mem_append_right _ hc)
  total_lt := by
    have htotal := h.wellFormed.tail.total_lt
    rw [total_append] at htotal
    omega

theorem Stands.heapPtr_le {m : Memory} {p : Nat} {ds es : List Chunk} (h : Stands m p ds es) :
    heapPtr ≤ p := h.start ▸ Nat.le_add_right _ _

theorem Stands.next {m : Memory} {p : Nat} {ds es : List Chunk} {c : Chunk}
    (h : Stands m p ds (c :: es)) : Stands m (p + c.size) (ds ++ [c]) es where
  wellFormed := by
    rw [List.append_assoc]
    exact h.wellFormed
  start := by
    rw [total_append, ← Nat.add_assoc, h.start]
    rfl

theorem Stands.chunk_mem {m : Memory} {p : Nat} {ds es : List Chunk} {c : Chunk}
    (h : Stands m p ds (c :: es)) : (p, c) ∈ spans heapPtr (ds ++ c :: es) := by
  rw [spans_append, h.start]
  exact List.mem_append_right _ List.mem_cons_self

/-- What is behind the position changes, and nothing before it. -/
theorem Stands.replace {m m' : Memory} {p : Nat} {ds es es' : List Chunk} (h : Stands m p ds es)
    (hbelow : ∀ b < p, m' b = m b) (htail : Tail m' p es') : Stands m' p ds es' where
  wellFormed := by
    have hfront := (tiles_append.mp h.wellFormed.tiles).1
    refine ⟨tiles_append.mpr ⟨hfront.congr fun x hx => header_congr fun b _ hhi => hbelow b ?_, ?_⟩,
      fun c hc => ?_⟩
    · have hend := (mem_spans_bounds hx).2
      have hsize := h.wellFormed.size_ge x.2 (List.mem_append_left _ (chunk_mem_of_mem_spans hx))
      have hstart := h.start
      simp only [sizeofAllocHeader] at hsize
      omega
    · rw [h.start]
      exact htail.tiles
    · rcases List.mem_append.mp hc with hc | hc
      · exact h.wellFormed.size_ge c (List.mem_append_left _ hc)
      · exact htail.size_ge c hc
  start := h.start

/-- The flag of the chunk at the position is written. -/
theorem Stands.withFlag {m : Memory} {p : Nat} {ds es : List Chunk} {c : Chunk}
    (h : Stands m p ds (c :: es)) (f : Bool) :
    Stands (setIsFree m p f) p ds (⟨f, c.size⟩ :: es) := by
  have htail := h.tail
  have hheader := header_setIsFree m p f
  rw [htail.allocSize_eq] at hheader
  have hsize := htail.size_ge c List.mem_cons_self
  have hbehind : Tail (setIsFree m p f) (p + c.size) es :=
    htail.tail.congr fun b hb =>
      setIsFree_of_outside (Or.inr (Nat.le_trans (Nat.add_le_add_left hsize p) hb))
  exact h.replace (fun b hb => setIsFree_of_outside (Or.inl hb))
    (Tail.cons hheader hsize hbehind htail.total_lt)

/-- The chunk at the position absorbs the free ones behind it. -/
theorem Stands.absorb {m m' : Memory} {p n : Nat} {ds es : List Chunk} {c : Chunk}
    (h : Stands m p ds (c :: es)) {es' : List Chunk}
    (htail : Tail m (p + (c.size + n)) es') (hheader : header m' p = ⟨c.free, c.size + n⟩)
    (hframe : ∀ b, b < p ∨ p + 4 ≤ b → m' b = m b) :
    Stands m' p ds (⟨c.free, c.size + n⟩ :: es') := by
  have hsize : sizeofAllocHeader ≤ c.size := h.tail.size_ge c List.mem_cons_self
  have htotal := h.tail.end_eq
  have hend := htail.end_eq
  have hlt := h.tail.total_lt
  rw [total_cons] at htotal hlt
  have hbehind : Tail m' (p + (c.size + n)) es' := htail.congr fun b hb => hframe b <| by
    simp only [sizeofAllocHeader] at hsize
    omega
  refine h.replace (fun b hb => hframe b (Or.inl hb))
    (Tail.cons hheader (Nat.le_trans hsize (Nat.le_add_right _ _)) hbehind ?_)
  simp only
  omega

/-! ## A block given out -/

/-- The answer, if there is one, is the payload of a used chunk of at least `n` bytes. -/
def Holds (cs : List Chunk) (answer : Option Nat) (n : Nat) : Prop :=
  ∀ q, answer = some q → ∃ x ∈ spans heapPtr cs, q = x.1 + sizeofAllocHeader ∧
    x.2.free = false ∧ n + sizeofAllocHeader ≤ x.2.size

theorem Holds.mono {cs cs' : List Chunk} {answer : Option Nat} {n : Nat} (h : Holds cs answer n)
    (hkept : ∀ x ∈ spans heapPtr cs, x.2.free = false → ∃ y ∈ spans heapPtr cs',
      y.1 = x.1 ∧ y.2.free = false ∧ x.2.size ≤ y.2.size) : Holds cs' answer n := by
  intro q hq
  obtain ⟨x, hx, hptr, hused, hlong⟩ := h q hq
  obtain ⟨y, hy, haddr, hyused, hsize⟩ := hkept x hx hused
  exact ⟨y, hy, haddr ▸ hptr, hyused, Nat.le_trans hlong hsize⟩

/-- The call ends with a heap that tiles, and with no byte of the block held. -/
def Settles (need size : Nat) (held : Option Nat) (heldSize : Nat) (s : CallState) : Prop :=
  ∃ h answer, CallLeads need s ⟨h, .done answer⟩ ∧ (∃ cs, WellFormed h.mem cs) ∧
    ∀ p q, answer = some p → held = some q → p + size ≤ q ∨ q + heldSize ≤ p

section Settles

variable {need size heldSize : Nat} {held : Option Nat} {s t : CallState}

theorem Settles.of_leads (h : Settles need size held heldSize t) (hleads : CallLeads need s t) :
    Settles need size held heldSize s := by
  obtain ⟨h', answer, hend, hrest⟩ := h
  exact ⟨h', answer, hleads.trans hend, hrest⟩

/-- The points on the way settle like the first one. -/
theorem Settles.of_middle (h : Settles need size held heldSize s) (hleads : CallLeads need s t) :
    Settles need size held heldSize t := by
  obtain ⟨h', answer, hend, hrest⟩ := h
  exact ⟨h', answer, hleads.of_middle hend (callStep_done h' answer), hrest⟩

end Settles

section Loop

variable {h : Heap} {p size heldSize : Nat} {held : Option Nat} {ds es : List Chunk}

/-- The search from the position on. -/
theorem Stands.loop_spec {need : Nat} (hstands : Stands h.mem p ds es)
    (hneed : sizeofAllocHeader ≤ need) :
    ∃ h', mallocLoop need loopFuel h p =
        some (h', (allocate sizeofAllocHeader need p es).1) ∧
      Stands h'.mem p ds (allocate sizeofAllocHeader need p es).2 := by
  have htail := hstands.tail
  obtain ⟨h', hloop, hleft⟩ := mallocLoop_spec hneed p es htail hstands.heapPtr_le
    (htail.length_lt_loopFuel hstands.heapPtr_le)
  refine ⟨h', hloop, hstands.replace (fun b hb => ?_)
    ⟨hleft.tiles, size_le_of_mem_allocate hneed p es htail.size_ge, ?_⟩⟩
  · by_contra hne
    have hlo := (hleft.headers b hne).ge
    omega
  · rw [total_allocate]
    exact htail.total_lt

/-- What the search takes is apart from every block that is out. -/
theorem Stands.apart {m : Memory} {need : Nat} {hole : Nat × Nat} {x : Nat × Chunk}
    (hstands : Stands m p ds es) (hfit : firstFit need p es = some hole)
    (hx : x ∈ spans heapPtr (ds ++ es)) (hused : x.2.free = false) :
    hole.1 + need ≤ x.1 ∨ x.1 + x.2.size ≤ hole.1 := by
  obtain ⟨hmem, hlong⟩ := mem_holes_of_firstFit hfit
  have hx' := hx
  rw [spans_append, hstands.start, List.mem_append] at hx'
  -- both are chunks of the chain that the search leaves
  have hkept : x ∈ spans heapPtr (ds ++ (allocate sizeofAllocHeader need p es).2) := by
    rw [spans_append, hstands.start, List.mem_append, mem_spans_allocate_iff _ _ _ _ hused]
    exact hx'.imp_right Or.inl
  have htaken : (hole.1, ⟨false, placedSize sizeofAllocHeader need hole.2⟩) ∈
      spans heapPtr (ds ++ (allocate sizeofAllocHeader need p es).2) := by
    rw [spans_append, hstands.start, List.mem_append, mem_spans_allocate_iff _ _ _ _ rfl]
    exact Or.inr (Or.inr ⟨hole, hfit, rfl⟩)
  have hroom := @le_placedSize sizeofAllocHeader _ _ hlong
  rcases eq_or_apart_of_mem_spans htaken hkept with heq | hapart | hapart
  · -- a hole does not start with a used chunk
    obtain ⟨d, hd, hfree⟩ := exists_free_of_mem_holes p es hole hmem
    have hd' : (hole.1, d) ∈ spans heapPtr (ds ++ es) := by
      rw [spans_append, hstands.start]
      exact List.mem_append_right _ hd
    have haddr : hole.1 = x.1 := congrArg Prod.fst heq
    have hsame := eq_of_mem_spans_of_fst_eq hstands.wellFormed.size_pos hd' hx haddr
    rw [congrArg (fun y : Nat × Chunk => y.2.free) hsame] at hfree
    exact Bool.noConfusion (hused.symm.trans hfree)
  · exact Or.inl (Nat.le_trans (Nat.add_le_add_left hroom _) hapart)
  · exact Or.inr hapart

/-- From the head of its loop `malloc` settles, wherever it stands in the chain. -/
theorem Stands.settles_loop (hstands : Stands h.mem p ds es)
    (hholds : Holds (ds ++ es) held heldSize) :
    Settles (size + sizeofAllocHeader) size held heldSize ⟨h, atLoop p⟩ := by
  obtain ⟨h', hloop, hstands'⟩ := hstands.loop_spec (Nat.le_add_left sizeofAllocHeader size)
  refine ⟨h', _, loop_leads hloop, ⟨_, hstands'.wellFormed⟩, ?_⟩
  intro a q ha hq
  obtain ⟨x, hx, rfl, hused, hlong⟩ := hholds q hq
  rw [allocate_fst, Option.map_map] at ha
  obtain ⟨hole, hfit, rfl⟩ := Option.map_eq_some_iff.mp ha
  simp only [Function.comp]
  rcases hstands.apart hfit hx hused with hapart | hapart
  · exact Or.inl (by omega)
  · exact Or.inr (by omega)

/-- And so it does behind a chunk that it steps over. -/
theorem Stands.settles_next {c : Chunk} (hstands : Stands h.mem p ds (c :: es))
    (hholds : Holds (ds ++ c :: es) held heldSize) :
    Settles (size + sizeofAllocHeader) size held heldSize
      ⟨h, atLoop (p + allocSize h.mem p)⟩ := by
  rw [hstands.tail.allocSize_eq]
  refine hstands.next.settles_loop ?_
  rw [List.append_assoc]
  exact hholds

/-- A used chunk that the call has begun to merge into grows over the free run behind it. -/
theorem Stands.settles_merge {c : Chunk} (hstands : Stands h.mem p ds (c :: es))
    (hused : c.free = false) (hholds : Holds (ds ++ c :: es) held heldSize) :
    Settles (size + sizeofAllocHeader) size held heldSize ⟨h, atMerge p (p + c.size)⟩ := by
  have htail := hstands.tail
  have hfuel : es.length < loopFuel := by
    have hlen := htail.length_lt_loopFuel hstands.heapPtr_le
    rw [List.length_cons] at hlen
    omega
  have hbehind : p + sizeofAllocHeader ≤ p + c.size :=
    Nat.add_le_add_left (htail.size_ge c List.mem_cons_self) p
  obtain ⟨m, hmerge, hheader, hframe⟩ :=
    mallocConcatLoop_spec htail.tail hfuel htail.header_eq hbehind htail.total_lt
  have hafter := htail.tail.afterRun
  rw [Nat.add_assoc] at hafter
  have hstands' := hstands.absorb hafter hheader hframe
  have htest : callStep (size + sizeofAllocHeader) ⟨⟨m, h.memoryUsed⟩, .test p⟩ =
      ⟨⟨m, h.memoryUsed⟩, atLoop p⟩ :=
    step_test (h := ⟨m, h.memoryUsed⟩) ((congrArg Chunk.free hheader).trans hused)
  refine Settles.of_leads ?_ ((merge_leads hmerge).trans (.head htest (.refl _ _)))
  refine hstands'.settles_loop (hholds.mono fun x hx hxused => ?_)
  rw [spans_append, hstands.start] at hx ⊢
  rcases List.mem_append.mp hx with hx | hx
  · exact ⟨x, List.mem_append_left _ hx, rfl, hxused, Nat.le_refl _⟩
  · rcases List.mem_cons.mp hx with rfl | hx
    · exact ⟨_, List.mem_append_right _ List.mem_cons_self, rfl, hused, Nat.le_add_right _ _⟩
    · rw [mem_spans_afterRun_iff hxused, Nat.add_assoc] at hx
      exact ⟨x, List.mem_append_right _ (List.mem_cons_of_mem _ hx), rfl, hxused, Nat.le_refl _⟩

end Loop

/-! ## The way from the head of the loop -/

section Way

variable {need p : Nat} {h : Heap} {c : Chunk} {es : List Chunk}

theorem Tail.leads_concat (htail : Tail h.mem p (c :: es)) (hfree : c.free = true) :
    CallLeads need ⟨h, atLoop p⟩ ⟨h, .concat p⟩ := by
  rw [atLoop_of_lt htail.lt_stackBasePtr]
  exact .head (step_find (htail.allocIsFree_eq.trans hfree)) (.refl _ _)

theorem Tail.leads_concatSize (htail : Tail h.mem p (c :: es)) (hfree : c.free = true) :
    CallLeads need ⟨h, atLoop p⟩ ⟨h, .concatSize p⟩ :=
  (htail.leads_concat hfree).trans
    (.head (step_concat (htail.allocIsFree_eq.trans hfree)) (.refl _ _))

theorem Tail.leads_merge (htail : Tail h.mem p (c :: es)) (hfree : c.free = true) :
    CallLeads need ⟨h, atLoop p⟩ ⟨h, atMerge p (p + c.size)⟩ := by
  rw [← htail.allocSize_eq]
  exact (htail.leads_concatSize hfree).trans (.head rfl (.refl _ _))

/-- The header of the chunk to be added is read. -/
theorem Tail.leads_grow {e : Chunk} (htail : Tail h.mem p (c :: e :: es))
    (hfree : e.free = true) :
    CallLeads need ⟨h, .merge p (p + c.size)⟩ ⟨h, .mergeSize p (p + c.size)⟩ ∧
      CallLeads need ⟨h, .merge p (p + c.size)⟩ ⟨h, .grow p (p + c.size) e.size⟩ := by
  have hmerge : callStep need ⟨h, .merge p (p + c.size)⟩ = ⟨h, .mergeSize p (p + c.size)⟩ :=
    step_merge (htail.tail.allocIsFree_eq.trans hfree)
  rw [← htail.tail.allocSize_eq]
  exact ⟨.head hmerge (.refl _ _), .head hmerge (.head rfl (.refl _ _))⟩

/-- And then that of the chunk it is added to. -/
theorem Tail.leads_grown {e : Chunk} (htail : Tail h.mem p (c :: e :: es)) (hfree : c.free = true)
    (hefree : e.free = true) : CallLeads need ⟨h, atLoop p⟩
      ⟨h, .grown p (p + c.size) e.size (readWord h.mem p)⟩ := by
  have hmerge : CallLeads need ⟨h, atLoop p⟩ ⟨h, atMerge p (p + c.size)⟩ :=
    htail.leads_merge hfree
  rw [atMerge_of_lt htail.tail.lt_stackBasePtr] at hmerge
  exact hmerge.trans ((htail.leads_grow hefree).2.trans (.one rfl))

/-- A chunk with no free one behind it is tested as it is. -/
theorem Tail.leads_test (htail : Tail h.mem p (c :: es)) (hfree : c.free = true)
    (hstart : StartsUsed es) : CallLeads need ⟨h, atLoop p⟩ ⟨h, .test p⟩ := by
  refine (htail.leads_merge hfree).trans ?_
  cases es with
  | nil =>
      rw [atMerge_of_not_lt htail.tail.not_lt_of_nil]
      exact .refl _ _
  | cons d es =>
      rw [atMerge_of_lt htail.tail.lt_stackBasePtr]
      exact .head (step_merge (htail.tail.allocIsFree_eq.trans (hstart d rfl))) (.refl _ _)

theorem Tail.leads_fits (htail : Tail h.mem p (c :: es)) (hfree : c.free = true)
    (hstart : StartsUsed es) : CallLeads need ⟨h, atLoop p⟩ ⟨h, .fits p⟩ :=
  (htail.leads_test hfree hstart).trans
    (.head (step_test (htail.allocIsFree_eq.trans hfree)) (.refl _ _))

theorem Tail.leads_rest (htail : Tail h.mem p (c :: es)) (hfree : c.free = true)
    (hstart : StartsUsed es) (hfits : need < c.size) :
    CallLeads need ⟨h, atLoop p⟩ ⟨h, .rest p⟩ :=
  (htail.leads_fits hfree hstart).trans
    (.head (step_fits (htail.allocSize_eq.symm ▸ hfits)) (.refl _ _))

theorem Tail.leads_take (htail : Tail h.mem p (c :: es)) (hfree : c.free = true)
    (hstart : StartsUsed es) (hfits : need < c.size) :
    CallLeads need ⟨h, atLoop p⟩ ⟨h, .take p (c.size - need)⟩ := by
  have hlt := htail.total_lt
  rw [total_cons] at hlt
  have hrest : callStep need ⟨h, .rest p⟩ = ⟨h, .take p (c.size - need)⟩ := by
    have hnext : (allocSize h.mem p + 2 ^ 32 - need) % 2 ^ 32 = c.size - need := by
      rw [htail.allocSize_eq]
      omega
    exact congrArg (fun n => (⟨h, .take p n⟩ : CallState)) hnext
  exact (htail.leads_rest hfree hstart hfits).trans (.head hrest (.refl _ _))

end Way

/-! ## Points that settle in every heap -/

section Points

variable {h : Heap} {p size heldSize : Nat} {held : Option Nat} {ds es : List Chunk} {c : Chunk}

theorem Stands.exists_cons {m : Memory} (hstands : Stands m p ds es) (hp : p < stackBasePtr) :
    ∃ c cs, es = c :: cs := by
  cases es with
  | nil => exact absurd hp hstands.tail.not_lt_of_nil
  | cons c cs => exact ⟨c, cs, rfl⟩

/-- The chunk that the merging loop is about to start at may have been taken. -/
theorem Stands.settles_concatSize (hstands : Stands h.mem p ds (c :: es))
    (hholds : Holds (ds ++ c :: es) held heldSize) :
    Settles (size + sizeofAllocHeader) size held heldSize ⟨h, .concatSize p⟩ := by
  cases hfree : c.free with
  | true => exact (hstands.settles_loop hholds).of_middle (hstands.tail.leads_concatSize hfree)
  | false =>
      refine (hstands.settles_merge hfree hholds).of_leads ?_
      rw [← hstands.tail.allocSize_eq]
      exact .head rfl (.refl _ _)

theorem Stands.settles_test (hstands : Stands h.mem p ds (c :: es))
    (hmerged : c.free = true → StartsUsed es) (hholds : Holds (ds ++ c :: es) held heldSize) :
    Settles (size + sizeofAllocHeader) size held heldSize ⟨h, .test p⟩ := by
  have hloop : Settles (size + sizeofAllocHeader) size held heldSize ⟨h, atLoop p⟩ :=
    hstands.settles_loop hholds
  cases hfree : c.free with
  | true => exact hloop.of_middle (hstands.tail.leads_test hfree (hmerged hfree))
  | false =>
      have hused : allocIsFree h.mem p = false := hstands.tail.allocIsFree_eq.trans hfree
      exact hloop.of_leads (.head (step_test hused) (.refl _ _))

theorem Stands.settles_concat (hstands : Stands h.mem p ds (c :: es))
    (hholds : Holds (ds ++ c :: es) held heldSize) :
    Settles (size + sizeofAllocHeader) size held heldSize ⟨h, .concat p⟩ := by
  have hflag := hstands.tail.allocIsFree_eq
  cases hfree : c.free with
  | true =>
      exact (hstands.settles_concatSize hholds).of_leads
        (.head (step_concat (hflag.trans hfree)) (.refl _ _))
  | false =>
      refine (hstands.settles_test (fun htrue => ?_) hholds).of_leads
        (.head (step_concat (hflag.trans hfree)) (.refl _ _))
      exact Bool.noConfusion (hfree.symm.trans htrue)

/-- The rest of a merged chunk is cut off, wherever the call stands in the split. -/
theorem Stands.settles_take (hstands : Stands h.mem p ds (c :: es)) (hfree : c.free = true)
    (hstart : StartsUsed es) (hfits : size + sizeofAllocHeader < c.size)
    (hholds : Holds (ds ++ c :: es) held heldSize) {t : CallState}
    (hleads : CallLeads (size + sizeofAllocHeader)
      ⟨h, .take p (c.size - (size + sizeofAllocHeader))⟩ t) :
    Settles (size + sizeofAllocHeader) size held heldSize t :=
  (hstands.settles_loop hholds).of_middle
    ((hstands.tail.leads_take hfree hstart hfits).trans hleads)

/-- The chunk has been taken already: the call goes on as from the heap in which its flag
was still set. -/
theorem Stands.settles_cut {n : Nat} (hstands : Stands h.mem p ds (⟨false, n⟩ :: es))
    (hstart : StartsUsed es) (hfits : size + sizeofAllocHeader < n)
    (hholds : Holds (ds ++ ⟨true, n⟩ :: es) held heldSize) {t : CallState}
    (hleads : CallLeads (size + sizeofAllocHeader)
      ⟨h, .cut p (n - (size + sizeofAllocHeader))⟩ t) :
    Settles (size + sizeofAllocHeader) size held heldSize t := by
  have hstands' : Stands (setIsFree h.mem p true) p ds (⟨true, n⟩ :: es) :=
    hstands.withFlag true
  -- clearing the flag again gives back the heap
  have hflag : (readWord h.mem p % 2 == 1) = false := hstands.tail.allocIsFree_eq
  have hword : readWord (setIsFree h.mem p true) p / 2 * 2 = readWord h.mem p := by
    have hlt := readWord_lt h.mem p
    rw [beq_eq_false_iff_ne] at hflag
    rw [setIsFree, readWord_writeWord_same, Bool.toNat_true]
    omega
  have hback : writeWord (setIsFree h.mem p true) p (readWord h.mem p) = h.mem := by
    rw [setIsFree, writeWord_writeWord, writeWord_readWord]
  generalize setIsFree h.mem p true = m at hstands' hword hback
  refine hstands'.settles_take (h := ⟨m, h.memoryUsed⟩) rfl hstart hfits hholds
    (.head rfl (.head ?_ hleads))
  simp only [callStep, CallState.goto, CallState.store, hword, hback]

end Points

end DonutOS.Libc
