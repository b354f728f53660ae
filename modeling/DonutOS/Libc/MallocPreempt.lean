import DonutOS.Libc.CallInvariant

set_option autoImplicit false

/-!
# Libc: a call of the allocator is interrupted, and the handler calls `malloc`

The foreground call stops between two accesses, the handler's `malloc` runs as a
whole, and the foreground goes on with what it held.  `Interrupted` says what the
handler does to the heap around the foreground's position.
-/

namespace DonutOS.Libc

open DonutOS.Foundation

/-! ## The property -/

/-- The size that a call asks for. -/
def HeapRequest.size : HeapRequest → Nat
  | .malloc size => size
  | .free _ => 0

/-- The size fits with its header into 32 bits, or the pointer is that of a used chunk. -/
def HeapRequest.Valid (cs : List Chunk) : HeapRequest → Prop
  | .malloc size => size + sizeofAllocHeader < 2 ^ 32
  | .free ptr => ∃ c, (ptr - sizeofAllocHeader, c) ∈ spans heapPtr cs ∧ c.free = false

/-- The handler finds a chain that tiles the heap and its `malloc` returns; the foreground
call for `size` bytes returns too, and leaves such a chain; the two blocks are disjoint. -/
def Survives (need size handlerSize : Nat) (s : CallState) : Prop :=
  (∃ cs, WellFormed s.heap.mem cs) ∧
    ∃ heap handlerAnswer, malloc s.heap handlerSize = some (heap, handlerAnswer) ∧
      Settles need size handlerAnswer handlerSize ⟨heap, s.pc⟩

/-! ## The condition -/

/-- The first free run that is longer than a request for `size` bytes with its header. -/
def FirstHole (m : Memory) (size : Nat) (hole : Nat × Nat) : Prop :=
  ∃ cs, WellFormed m cs ∧ firstFit (size + sizeofAllocHeader) heapPtr cs = some hole

/-- A search for `size` bytes ends below `p`, or is not made at all. -/
def EndsBelow (m : Memory) (size p : Nat) : Prop :=
  heapMaxSize ≤ size + sizeofAllocHeader ∨ ∃ hole, FirstHole m size hole ∧ hole.1 < p

/-- A search for `size` bytes does not end at `p`. -/
def Spares (m : Memory) (size p : Nat) : Prop := ∀ hole, FirstHole m size hole → hole.1 ≠ p

/-- Where an interrupt does no harm.  While the free run at `p` is being merged, the
handler must not come to it, or, before the write that ends a round, not take it.  Between
the test of the merged chunk and the store that takes it, the handler must not take it,
unless what it takes is too short for the foreground.  And between the store of the new
size and the last store to the header behind it, there must be no handler. -/
def MayInterrupt (need handlerSize : Nat) (s : CallState) : Prop :=
  let m := s.heap.mem
  match s.pc with
  | .merge p q => allocIsFree m q = false ∨ EndsBelow m handlerSize p
  | .mergeSize p _ => EndsBelow m handlerSize p
  | .grow p _ _ => EndsBelow m handlerSize p
  | .grown p _ _ _ => Spares m handlerSize p
  | .fits p =>
      Spares m handlerSize p ∨
        placedSize sizeofAllocHeader (handlerSize + sizeofAllocHeader) (allocSize m p) ≤ need
  | .rest p => Spares m handlerSize p
  | .take p _ => Spares m handlerSize p
  | .taken p _ _ => Spares m handlerSize p
  | .count _ _ => False
  | .counted _ _ _ => False
  | .counting _ _ _ => False
  | .next _ _ => False
  | .nextFree _ _ _ => False
  | .nextCut _ _ => False
  | .nextSized _ _ _ => False
  | .pad _ _ => False
  | .padded _ _ _ => False
  | _ => True

/-! ## The handler at a position -/

/-- What the handler's `malloc` for `size` bytes does to a heap in which the foreground
stands at `p`. -/
structure Interrupted (size p : Nat) (m : Memory) (ds es : List Chunk) (m' : Memory)
    (answer : Option Nat) (ds' es' : List Chunk) : Prop where
  stands : Stands m' p ds' es'
  kept : ∀ x ∈ spans heapPtr (ds ++ es), x.2.free = false → x ∈ spans heapPtr (ds' ++ es')
  taken : ∀ q, answer = some q → ∃ x ∈ spans heapPtr (ds' ++ es'), x ∉ spans heapPtr (ds ++ es) ∧
    q = x.1 + sizeofAllocHeader ∧ x.2.free = false ∧ size + sizeofAllocHeader ≤ x.2.size
  frame : ∀ b, m' b ≠ m b → InHeader heapPtr (ds' ++ es') b
  /-- The search ends in front of `p` or goes on from there. -/
  here : es' = es ∨ ¬ EndsBelow m size p ∧
    es' = (allocate sizeofAllocHeader (size + sizeofAllocHeader) p es).2 ∧
    ∀ hole, firstFit (size + sizeofAllocHeader) p es = some hole → FirstHole m size hole

section Handler

variable {size p : Nat} {h : Heap} {ds es : List Chunk}

theorem Stands.interrupted (hstands : Stands h.mem p ds es) (hcut : Cut ds es)
    (hsize : size + sizeofAllocHeader < 2 ^ 32) :
    ∃ h' answer ds' es', malloc h size = some (h', answer) ∧
      Interrupted size p h.mem ds es h'.mem answer ds' es' := by
  have hwf := hstands.wellFormed
  obtain ⟨h', hcall, hwf', -, hframe⟩ := malloc_spec hwf hsize
  -- the chain that is left, cut at the same address
  have hparts : ∃ ds' es', mallocChain size (ds ++ es) = ds' ++ es' ∧ total ds' = total ds ∧
      (es' = es ∨ ¬ EndsBelow h.mem size p ∧
        es' = (allocate sizeofAllocHeader (size + sizeofAllocHeader) p es).2 ∧
        ∀ hole, firstFit (size + sizeofAllocHeader) p es = some hole →
          FirstHole h.mem size hole) := by
    unfold mallocChain
    by_cases hbig : heapMaxSize ≤ size + sizeofAllocHeader
    · rw [if_pos hbig]
      exact ⟨ds, es, rfl, rfl, Or.inl rfl⟩
    · rw [if_neg hbig]
      rcases allocate_append sizeofAllocHeader (size + sizeofAllocHeader) heapPtr hcut with
        ⟨hole, -, -, happend⟩ | ⟨hpast, happend⟩
      · exact ⟨_, _, happend, total_allocate _ _ _ _, Or.inl rfl⟩
      · rw [hstands.start] at hpast happend
        refine ⟨_, _, happend, total_allocate _ _ _ _, Or.inr ⟨?_, rfl, fun hole hhole => ?_⟩⟩
        · rintro (hrefused | ⟨hole, ⟨cs, hcs, hfit⟩, hlt⟩)
          · exact hbig hrefused
          · rw [hcs.unique hwf, hpast] at hfit
            have hge := (mem_holes_bounds p es hole (mem_holes_of_firstFit hfit).1).1
            omega
        · exact ⟨_, hwf, hpast.trans hhole⟩
  obtain ⟨ds', es', hchain, htotal, hhere⟩ := hparts
  refine ⟨h', _, ds', es', hcall, ?_, ?_, ?_, ?_, hhere⟩
  · exact ⟨hchain ▸ hwf', by rw [htotal, hstands.start]⟩
  · intro x hx hused
    rw [← hchain]
    exact mem_spans_mallocChain size hwf hx hused
  · intro q hq
    obtain ⟨hole, hfit, hptr, -, hmem, hlong⟩ := malloc_some hwf hsize (hq ▸ hcall)
    rw [hchain] at hmem
    exact ⟨_, hmem, takenChunk_not_mem hwf hfit, hptr, rfl, hlong⟩
  · rw [← hchain]
    exact hframe

end Handler

namespace Interrupted

variable {size p : Nat} {m m' : Memory} {ds es ds' es' : List Chunk} {c : Chunk}
  {answer : Option Nat}

theorem holds (hi : Interrupted size p m ds es m' answer ds' es') :
    Holds (ds' ++ es') answer size := by
  intro q hq
  obtain ⟨x, hx, -, hrest⟩ := hi.taken q hq
  exact ⟨x, hx, hrest⟩

theorem below (hi : Interrupted size p m ds es m' answer ds' es') (h : EndsBelow m size p) :
    es' = es := by
  rcases hi.here with hsame | ⟨hnot, -⟩
  · exact hsame
  · exact absurd h hnot

/-- A used chunk at the position stays there. -/
theorem used (hi : Interrupted size p m ds (c :: es) m' answer ds' es') (hused : c.free = false)
    (hstart : StartsUsed es) : ∃ es₁, es' = c :: es₁ ∧ StartsUsed es₁ := by
  rcases hi.here with hsame | ⟨-, hlater, -⟩
  · exact ⟨es, hsame, hstart⟩
  · rw [allocate_cons_used _ _ _ _ hused] at hlater
    exact ⟨_, hlater, hstart.allocate _ _ _⟩

/-- A merged chunk at the position is taken, or it stays there. -/
theorem merged (hi : Interrupted size p m ds (c :: es) m' answer ds' es') (hfree : c.free = true)
    (hstart : StartsUsed es) :
    (∃ es₁, es' = c :: es₁ ∧ StartsUsed es₁) ∨
      FirstHole m size (p, c.size) ∧ ∃ es₁, es' =
        ⟨false, placedSize sizeofAllocHeader (size + sizeofAllocHeader) c.size⟩ :: es₁ := by
  rcases hi.here with hsame | ⟨-, hlater, hhole⟩
  · exact Or.inl ⟨es, hsame, hstart⟩
  · rcases allocate_single sizeofAllocHeader (size + sizeofAllocHeader) p hfree hstart with
      ⟨hfit, es₁, htaken⟩ | hkept
    · exact Or.inr ⟨hhole _ hfit, es₁, hlater.trans htaken⟩
    · exact Or.inl ⟨_, hlater.trans hkept, hstart.allocate _ _ _⟩

end Interrupted

/-! ## The foreground goes on -/

section Resume

variable {n k p : Nat} {h : Heap} {pc : HeapPc} {ds es : List Chunk} {c : Chunk}

theorem Stands.survives (hstands : Stands h.mem p ds es) (hcut : Cut ds es)
    (hn : n + sizeofAllocHeader < 2 ^ 32)
    (hsettles : ∀ {h' : Heap} {answer : Option Nat} {ds' es' : List Chunk},
      Interrupted n p h.mem ds es h'.mem answer ds' es' →
        Settles (k + sizeofAllocHeader) k answer n ⟨h', pc⟩) :
    Survives (k + sizeofAllocHeader) k n ⟨h, pc⟩ := by
  obtain ⟨h', answer, ds', es', hcall, hi⟩ := hstands.interrupted hcut hn
  exact ⟨⟨_, hstands.wellFormed⟩, h', answer, hcall, hsettles hi⟩

section Settle

variable {h' : Heap} {answer : Option Nat} {ds' es' : List Chunk}

/-- The step to the next chunk is made from any chunk. -/
theorem Interrupted.settles_step (hi : Interrupted n p h.mem ds es h'.mem answer ds' es')
    (hp : p < stackBasePtr)
    (hstep : callStep (k + sizeofAllocHeader) ⟨h', pc⟩ =
      ⟨h', atLoop (p + allocSize h'.mem p)⟩) :
    Settles (k + sizeofAllocHeader) k answer n ⟨h', pc⟩ := by
  obtain ⟨c', es₁, rfl⟩ := hi.stands.exists_cons hp
  exact (hi.stands.settles_next hi.holds).of_leads (.head hstep (.refl _ _))

theorem Interrupted.settles_test (hi : Interrupted n p h.mem ds (c :: es) h'.mem answer ds' es')
    (hfree : c.free = true) (hstart : StartsUsed es) :
    Settles (k + sizeofAllocHeader) k answer n ⟨h', .test p⟩ := by
  rcases hi.merged hfree hstart with ⟨es₁, rfl, hstart₁⟩ | ⟨-, es₁, rfl⟩
  · exact hi.stands.settles_test (fun _ => hstart₁) hi.holds
  · exact hi.stands.settles_test (fun hfalse => nomatch hfalse) hi.holds

/-- A used chunk behind the position stops the merging as before. -/
theorem Interrupted.settles_merge_used {e : Chunk}
    (hi : Interrupted n p h.mem ds (c :: e :: es) h'.mem answer ds' es')
    (hat : AtFree h.mem p ds c (e :: es)) (hused : e.free = false) :
    Settles (k + sizeofAllocHeader) k answer n ⟨h', .merge p (p + c.size)⟩ := by
  have hmem : (p + c.size, e) ∈ spans heapPtr (ds ++ c :: e :: es) := by
    rw [spans_append, hat.stands.start]
    exact List.mem_append_right _ (List.mem_cons_of_mem _ List.mem_cons_self)
  have hheader := hi.stands.wellFormed.tiles.header_eq (hi.kept _ hmem hused)
  have hflag : allocIsFree h'.mem (p + c.size) = false :=
    (congrArg Chunk.free hheader).trans hused
  exact (hi.settles_test hat.free (startsUsed_cons es hused)).of_leads
    (.head (step_merge hflag) (.refl _ _))

/-- The handler did not come to the free run that is being merged. -/
theorem Interrupted.settles_merge {e : Chunk}
    (hi : Interrupted n p h.mem ds (c :: e :: es) h'.mem answer ds' es')
    (hfree : c.free = true) (hbelow : EndsBelow h.mem n p) {t : CallState}
    (hleads : CallLeads (k + sizeofAllocHeader) ⟨h', .merge p (p + c.size)⟩ t) :
    Settles (k + sizeofAllocHeader) k answer n t := by
  obtain rfl := hi.below hbelow
  have hmerge : CallLeads (k + sizeofAllocHeader) ⟨h', atLoop p⟩
      ⟨h', atMerge p (p + c.size)⟩ := hi.stands.tail.leads_merge hfree
  rw [atMerge_of_lt hi.stands.next.tail.lt_stackBasePtr] at hmerge
  exact (hi.stands.settles_loop hi.holds).of_middle (hmerge.trans hleads)

/-- A chunk that is still where it was has the word that was read. -/
theorem Interrupted.readWord_eq (hi : Interrupted n p h.mem ds (c :: es) h'.mem answer ds' es')
    (hstands : Stands h.mem p ds (c :: es)) {es₁ : List Chunk} (hkept : es' = c :: es₁) :
    readWord h'.mem p = readWord h.mem p := by
  have hstands' := hi.stands
  rw [hkept] at hstands'
  exact readWord_eq_of_header (hstands'.tail.header_eq.trans hstands.tail.header_eq.symm)

/-- The handler has merged the free run at the position and gone on: the headers inside the
run are still there. -/
theorem Interrupted.stands_unmerge {es₁ : List Chunk}
    (hi : Interrupted n p h.mem ds (c :: es) h'.mem answer ds'
      (⟨true, c.size + total (freeRun es)⟩ :: es₁))
    (hstands : Stands h.mem p ds (c :: es)) :
    Stands (writeWord h'.mem p (readWord h.mem p)) p ds' (c :: (freeRun es ++ es₁)) := by
  have htail := hstands.tail
  have htail' := hi.stands.tail
  have hsize := htail.size_ge c List.mem_cons_self
  have hlt := htail'.total_lt
  have hsize₄ : 4 ≤ c.size := hsize
  simp only [total_cons] at hlt
  have hword : readWord (writeWord h'.mem p (readWord h.mem p)) p = readWord h.mem p := by
    rw [readWord_writeWord_same]
    exact Nat.mod_eq_of_lt (readWord_lt h.mem p)
  have hheader : header (writeWord h'.mem p (readWord h.mem p)) p = c := by
    rw [← htail.header_eq]
    unfold header allocIsFree allocSize
    rw [hword]
  have hrun := htail.tail.tiles
  rw [← List.takeWhile_append_dropWhile (p := (·.free)) (l := es), tiles_append] at hrun
  have hbehind : Tail (writeWord h'.mem p (readWord h.mem p))
      (p + c.size + total (freeRun es)) es₁ := by
    rw [Nat.add_assoc]
    refine htail'.tail.congr fun b hb => writeWord_of_outside (Or.inr ?_)
    simp only at hb
    omega
  refine hi.stands.replace (fun b hb => writeWord_of_outside (Or.inl hb))
    (Tail.cons hheader hsize ⟨tiles_append.mpr ⟨?_, hbehind.tiles⟩, ?_, ?_⟩ ?_)
  · refine hrun.1.congr fun x hx => header_congr fun b hlo hhi => ?_
    have hstart : p + c.size ≤ x.1 := (mem_spans_bounds hx).1
    have hend : x.1 + x.2.size ≤ p + c.size + total (freeRun es) := (mem_spans_bounds hx).2
    have hxsize : 4 ≤ x.2.size := htail.size_ge x.2 (List.mem_cons_of_mem _
      (List.takeWhile_subset _ (chunk_mem_of_mem_spans hx)))
    rw [writeWord_of_outside (Or.inr (by omega))]
    -- a byte that the handler wrote is in a header of the new chain
    by_contra hne
    obtain ⟨y, hy, hylo, hyhi⟩ := hi.frame b hne
    have hysize := hi.stands.wellFormed.size_ge y.2 (chunk_mem_of_mem_spans hy)
    simp only [sizeofAllocHeader] at hyhi hysize
    rcases eq_or_apart_of_mem_spans hi.stands.chunk_mem hy with rfl | hapart | hapart
    · simp only at hylo hyhi
      omega
    · simp only at hapart
      omega
    · simp only at hapart
      omega
  · intro d hd
    rcases List.mem_append.mp hd with hd | hd
    · exact htail.size_ge d (List.mem_cons_of_mem _ (List.takeWhile_subset _ hd))
    · exact hbehind.size_ge d hd
  · rw [total_append]
    omega
  · rw [total_append]
    omega

/-- The handler may have merged the free run at the position, but not taken it.  With the
old word written back, the chunks of the run are as they were. -/
theorem Interrupted.unmerge (hi : Interrupted n p h.mem ds (c :: es) h'.mem answer ds' es')
    (hstands : Stands h.mem p ds (c :: es)) (hfree : c.free = true)
    (hspares : Spares h.mem n p) :
    ∃ es₁, Stands (writeWord h'.mem p (readWord h.mem p)) p ds' (c :: (freeRun es ++ es₁)) ∧
      Holds (ds' ++ c :: (freeRun es ++ es₁)) answer n := by
  rcases hi.here with hsame | ⟨-, hlater, hhole⟩
  · refine ⟨afterRun es, ?_⟩
    rw [List.takeWhile_append_dropWhile, ← hi.readWord_eq hstands hsame, writeWord_readWord,
      ← hsame]
    exact ⟨hi.stands, hi.holds⟩
  · by_cases hfit : n + sizeofAllocHeader < c.size + total (freeRun es)
    · exact absurd rfl (hspares _ (hhole _ (firstFit_cons_fit p hfree hfit)))
    · rw [allocate_cons_small p hfree hfit] at hlater
      generalize (allocate sizeofAllocHeader (n + sizeofAllocHeader)
        (p + (c.size + total (freeRun es))) (afterRun es)).2 = es₁ at hlater
      subst hlater
      refine ⟨es₁, hi.stands_unmerge hstands, hi.holds.mono fun x hx hused => ?_⟩
      refine ⟨x, ?_, rfl, hused, Nat.le_refl _⟩
      rw [spans_append, hi.stands.start, List.mem_append] at hx ⊢
      refine hx.imp_right fun hx => ?_
      rcases List.mem_cons.mp hx with rfl | hx
      · exact nomatch hused
      · refine List.mem_cons_of_mem _ ?_
        rw [spans_append, Nat.add_assoc]
        exact List.mem_append_right _ hx

/-- The sum that is written last is that of the two sizes that were read. -/
theorem Interrupted.settles_grown {e : Chunk}
    (hi : Interrupted n p h.mem ds (c :: e :: es) h'.mem answer ds' es')
    (hat : AtFree h.mem p ds c (e :: es)) (hfree : e.free = true) (hspares : Spares h.mem n p) :
    Settles (k + sizeofAllocHeader) k answer n
      ⟨h', .grown p (p + c.size) e.size (readWord h.mem p)⟩ := by
  obtain ⟨es₁, hstands, hholds⟩ := hi.unmerge hat.stands hat.free hspares
  have hrun : freeRun (e :: es) = e :: freeRun es := List.takeWhile_cons_of_pos hfree
  rw [hrun, List.cons_append] at hstands hholds
  have hread : readWord (writeWord h'.mem p (readWord h.mem p)) p = readWord h.mem p := by
    rw [readWord_writeWord_same]
    exact Nat.mod_eq_of_lt (readWord_lt h.mem p)
  have hwrite : ∀ v, writeWord (writeWord h'.mem p (readWord h.mem p)) p v =
      writeWord h'.mem p v := writeWord_writeWord h'.mem p (readWord h.mem p)
  generalize writeWord h'.mem p (readWord h.mem p) = m at hstands hread hwrite
  have hgrown : CallLeads (k + sizeofAllocHeader) ⟨⟨m, h'.memoryUsed⟩, atLoop p⟩
      ⟨⟨m, h'.memoryUsed⟩, .grown p (p + c.size) e.size (readWord m p)⟩ :=
    hstands.tail.leads_grown hat.free hfree
  rw [hread] at hgrown
  -- the write that follows is the same in both heaps
  have hsame : callStep (k + sizeofAllocHeader)
      ⟨⟨m, h'.memoryUsed⟩, .grown p (p + c.size) e.size (readWord h.mem p)⟩ =
      callStep (k + sizeofAllocHeader)
        ⟨h', .grown p (p + c.size) e.size (readWord h.mem p)⟩ := by
    simp only [callStep, CallState.store, hwrite]
  exact ((hstands.settles_loop (h := ⟨m, h'.memoryUsed⟩) hholds).of_middle
    (hgrown.trans (.one hsame))).of_leads (.one rfl)

/-- A merged chunk that the handler spares is what it was. -/
theorem Interrupted.spared (hi : Interrupted n p h.mem ds (c :: es) h'.mem answer ds' es')
    (hfree : c.free = true) (hstart : StartsUsed es) (hspares : Spares h.mem n p) :
    ∃ es₁, es' = c :: es₁ ∧ StartsUsed es₁ := by
  rcases hi.merged hfree hstart with hkept | ⟨hhole, -⟩
  · exact hkept
  · exact absurd rfl (hspares _ hhole)

theorem Interrupted.settles_fits (hi : Interrupted n p h.mem ds (c :: es) h'.mem answer ds' es')
    (hat : AtMerged h.mem p ds c es)
    (hmay : Spares h.mem n p ∨ placedSize sizeofAllocHeader (n + sizeofAllocHeader)
      (allocSize h.mem p) ≤ k + sizeofAllocHeader) :
    Settles (k + sizeofAllocHeader) k answer n ⟨h', .fits p⟩ := by
  rcases hi.merged hat.1.free hat.2 with ⟨es₁, rfl, hstart⟩ | ⟨hhole, es₁, rfl⟩
  · exact (hi.stands.settles_loop hi.holds).of_middle
      (hi.stands.tail.leads_fits hat.1.free hstart)
  · -- what the handler took is too short for the foreground, which steps over it
    rw [hat.1.stands.tail.allocSize_eq] at hmay
    have hshort := hmay.resolve_left fun hspares => hspares _ hhole rfl
    have hskip : callStep (k + sizeofAllocHeader) ⟨h', .fits p⟩ = ⟨h', .skip p⟩ := by
      refine step_fits_not ?_
      rw [hi.stands.tail.allocSize_eq]
      exact Nat.not_lt.mpr hshort
    exact (hi.settles_step hat.1.stands.tail.lt_stackBasePtr rfl).of_leads
      (.head hskip (.refl _ _))

theorem Interrupted.settles_rest (hi : Interrupted n p h.mem ds (c :: es) h'.mem answer ds' es')
    (hat : AtMerged h.mem p ds c es) (hfits : k + sizeofAllocHeader < c.size)
    (hspares : Spares h.mem n p) :
    Settles (k + sizeofAllocHeader) k answer n ⟨h', .rest p⟩ := by
  obtain ⟨es₁, rfl, hstart⟩ := hi.spared hat.1.free hat.2 hspares
  exact (hi.stands.settles_loop hi.holds).of_middle
    (hi.stands.tail.leads_rest hat.1.free hstart hfits)

theorem Interrupted.settles_take (hi : Interrupted n p h.mem ds (c :: es) h'.mem answer ds' es')
    (hat : AtMerged h.mem p ds c es) (hfits : k + sizeofAllocHeader < c.size)
    (hspares : Spares h.mem n p) {t : CallState}
    (hleads : CallLeads (k + sizeofAllocHeader)
      ⟨h', .take p (c.size - (k + sizeofAllocHeader))⟩ t) :
    Settles (k + sizeofAllocHeader) k answer n t := by
  obtain ⟨es₁, rfl, hstart⟩ := hi.spared hat.1.free hat.2 hspares
  exact hi.stands.settles_take hat.1.free hstart hfits hi.holds hleads

/-- A chunk that the foreground has taken is out of the handler's reach. -/
theorem Interrupted.settles_cut {r : Nat}
    (hi : Interrupted n p h.mem ds (⟨false, r⟩ :: es) h'.mem answer ds' es')
    (hstands : Stands h.mem p ds (⟨false, r⟩ :: es)) (hstart : StartsUsed es)
    (hfits : k + sizeofAllocHeader < r) {t : CallState}
    (hleads : CallLeads (k + sizeofAllocHeader)
      ⟨h', .cut p (r - (k + sizeofAllocHeader))⟩ t) :
    Settles (k + sizeofAllocHeader) k answer n t := by
  obtain ⟨es₁, rfl, hstart₁⟩ := hi.used rfl hstart
  refine hi.stands.settles_cut hstart₁ hfits (fun q hq => ?_) hleads
  obtain ⟨x, hx, hnew, hrest⟩ := hi.taken q hq
  refine ⟨x, ?_, hrest⟩
  have hne : x ≠ (p, ⟨false, r⟩) := by
    rintro rfl
    exact hnew hstands.chunk_mem
  rw [spans_append, hi.stands.start, List.mem_append] at hx ⊢
  refine hx.imp_right fun hx => ?_
  rcases List.mem_cons.mp hx with heq | hx
  · exact absurd heq hne
  · exact List.mem_cons_of_mem _ hx

end Settle

/-- A handler that runs after the call gets another block. -/
theorem survives_done {need : Nat} {cs : List Chunk} {answer : Option Nat}
    (hwf : WellFormed h.mem cs) (hholds : Holds cs answer k)
    (hn : n + sizeofAllocHeader < 2 ^ 32) : Survives need k n ⟨h, .done answer⟩ := by
  obtain ⟨h', hcall, hwf', -, -⟩ := malloc_spec hwf hn
  refine ⟨⟨cs, hwf⟩, h', _, hcall, h', answer, .refl _ _, ⟨_, hwf'⟩, fun a q ha hq => ?_⟩
  obtain ⟨hole, hfit, rfl⟩ := Option.map_eq_some_iff.mp hq
  obtain ⟨x, hx, rfl, hused, hlong⟩ := hholds a ha
  rcases (stands_heapPtr hwf).apart hfit hx hused with hapart | hapart
  · exact Or.inr (by omega)
  · exact Or.inl (by omega)

/-- What the call knows is enough for it to go on after a handler. -/
theorem survives_of_mallocInv {s : CallState} (hinv : MallocInv (k + sizeofAllocHeader) s)
    (hn : n + sizeofAllocHeader < 2 ^ 32) (hmay : MayInterrupt (k + sizeofAllocHeader) n s)
    (hdone : ∀ answer, s.pc ≠ .done answer) : Survives (k + sizeofAllocHeader) k n s := by
  obtain ⟨h, pc⟩ := s
  cases pc with
  | find p =>
      obtain ⟨hp, ds, es, hstands, hcut⟩ := hinv
      refine hstands.survives hcut hn fun hi => ?_
      rw [← atLoop_of_lt hp]
      exact hi.stands.settles_loop hi.holds
  | findSize p =>
      obtain ⟨ds, c, es, hstands, hused⟩ := hinv
      refine hstands.survives (Or.inr (startsUsed_cons es hused)) hn fun hi => ?_
      exact hi.settles_step hstands.tail.lt_stackBasePtr rfl
  | concat p =>
      obtain ⟨ds, c, es, hat⟩ := hinv
      refine hat.stands.survives hat.cut hn fun hi => ?_
      obtain ⟨c', es₁, rfl⟩ := hi.stands.exists_cons hat.stands.tail.lt_stackBasePtr
      exact hi.stands.settles_concat hi.holds
  | concatSize p =>
      obtain ⟨ds, c, es, hat⟩ := hinv
      refine hat.stands.survives hat.cut hn fun hi => ?_
      obtain ⟨c', es₁, rfl⟩ := hi.stands.exists_cons hat.stands.tail.lt_stackBasePtr
      exact hi.stands.settles_concatSize hi.holds
  | merge p q =>
      obtain ⟨ds, c, e, es, hat, rfl⟩ := hinv
      refine hat.stands.survives hat.cut hn fun hi => ?_
      rcases hmay with hused | hbelow
      · exact hi.settles_merge_used hat (hat.stands.tail.tail.allocIsFree_eq.symm.trans hused)
      · exact hi.settles_merge hat.free hbelow (.refl _ _)
  | mergeSize p q =>
      obtain ⟨ds, c, e, es, hat, rfl, hfree⟩ := hinv
      refine hat.stands.survives hat.cut hn fun hi => ?_
      obtain rfl := hi.below hmay
      exact hi.settles_merge hat.free hmay (hi.stands.tail.leads_grow hfree).1
  | grow p q n' =>
      obtain ⟨ds, c, e, es, hat, rfl, hfree, rfl⟩ := hinv
      refine hat.stands.survives hat.cut hn fun hi => ?_
      obtain rfl := hi.below hmay
      exact hi.settles_merge hat.free hmay (hi.stands.tail.leads_grow hfree).2
  | grown p q n' w =>
      obtain ⟨⟨ds, c, e, es, hat, rfl, hfree, rfl⟩, hword⟩ := hinv
      simp only at hword hat
      subst hword
      exact hat.stands.survives hat.cut hn fun hi => hi.settles_grown hat hfree hmay
  | test p =>
      obtain ⟨ds, c, es, hat⟩ := hinv
      exact hat.1.stands.survives hat.1.cut hn fun hi => hi.settles_test hat.1.free hat.2
  | fits p =>
      obtain ⟨ds, c, es, hat⟩ := hinv
      exact hat.1.stands.survives hat.1.cut hn fun hi => hi.settles_fits hat hmay
  | skip p =>
      obtain ⟨ds, c, es, hat⟩ := hinv
      refine hat.1.stands.survives hat.1.cut hn fun hi => ?_
      exact hi.settles_step hat.1.stands.tail.lt_stackBasePtr rfl
  | rest p =>
      obtain ⟨ds, c, es, hat, hfits⟩ := hinv
      exact hat.1.stands.survives hat.1.cut hn fun hi => hi.settles_rest hat hfits hmay
  | take p n' =>
      obtain ⟨ds, c, es, hat, hfits, rfl⟩ := hinv
      refine hat.1.stands.survives hat.1.cut hn fun hi => ?_
      exact hi.settles_take hat hfits hmay (.refl _ _)
  | taken p n' w =>
      obtain ⟨⟨ds, c, es, hat, hfits, rfl⟩, hword⟩ := hinv
      simp only at hword hat
      refine hat.1.stands.survives hat.1.cut hn fun hi => ?_
      obtain ⟨es₁, hkept, -⟩ := hi.spared hat.1.free hat.2 hmay
      rw [hword, ← hi.readWord_eq hat.1.stands hkept]
      exact hi.settles_take hat hfits hmay (.one rfl)
  | cut p n' =>
      obtain ⟨ds, r, es, hstands, hstart, hfits, rfl⟩ := hinv
      refine hstands.survives (Or.inr (startsUsed_cons es rfl)) hn fun hi => ?_
      exact hi.settles_cut hstands hstart hfits (.refl _ _)
  | cutting p n' w =>
      obtain ⟨⟨ds, r, es, hstands, hstart, hfits, rfl⟩, hword⟩ := hinv
      simp only at hword
      refine hstands.survives (Or.inr (startsUsed_cons es rfl)) hn fun hi => ?_
      obtain ⟨es₁, hkept, -⟩ := hi.used rfl hstart
      rw [hword, ← hi.readWord_eq hstands hkept]
      exact hi.settles_cut hstands hstart hfits (.one rfl)
  | clear p => exact hinv.elim
  | cleared p w => exact hinv.elim
  | uncount p => exact hinv.elim
  | uncounted size => exact hinv.elim
  | uncounting used => exact hinv.elim
  | done answer => exact absurd rfl (hdone answer)
  | _ => exact hmay.elim

end Resume

/-! ## A call of `free` goes on -/

section Free

variable {k n : Nat} {h : Heap}

/-- The rest of a call that only counts from here on. -/
theorem survives_uncount {cs : List Chunk} {pc : HeapPc} (hwf : WellFormed h.mem cs)
    (hn : n + sizeofAllocHeader < 2 ^ 32)
    (hleads : ∀ h' : Heap, ∃ used, CallLeads 0 ⟨h', pc⟩ ⟨⟨h'.mem, used⟩, .done none⟩) :
    Survives 0 k n ⟨h, pc⟩ := by
  obtain ⟨h', hcall, hwf', -, -⟩ := malloc_spec hwf hn
  obtain ⟨used, hend⟩ := hleads h'
  exact ⟨⟨cs, hwf⟩, h', _, hcall, ⟨h'.mem, used⟩, none, hend, ⟨_, hwf'⟩, fun _ _ ha => nomatch ha⟩

/-- The handler does not touch the header of the chunk that is freed. -/
theorem survives_clear {cs : List Chunk} {c : Chunk} {p : Nat} {pc : HeapPc}
    (hwf : WellFormed h.mem cs) (hmem : (p, c) ∈ spans heapPtr cs) (hused : c.free = false)
    (hn : n + sizeofAllocHeader < 2 ^ 32)
    (hleads : ∀ h' : Heap, readWord h'.mem p = readWord h.mem p →
      CallLeads 0 ⟨h', .clear p⟩ ⟨h', pc⟩) : Survives 0 k n ⟨h, pc⟩ := by
  obtain ⟨h', hcall, hwf', -, -⟩ := malloc_spec hwf hn
  have hkept := mem_spans_mallocChain n hwf hmem hused
  have hword := readWord_eq_of_header
    ((hwf'.tiles.header_eq hkept).trans (hwf.tiles.header_eq hmem).symm)
  have hchunk : (p + sizeofAllocHeader - sizeofAllocHeader, c) ∈
      spans heapPtr (mallocChain n cs) := hkept
  have hfreed := (free_spec (h := h') hwf' hchunk).1
  have hend : CallLeads 0 ⟨h', .clear p⟩ ⟨free h' (p + sizeofAllocHeader), .done none⟩ :=
    free_leads h' (p + sizeofAllocHeader)
  exact ⟨⟨cs, hwf⟩, h', _, hcall, _, none,
    (hleads h' hword).of_middle hend (callStep_done _ none), ⟨_, hfreed⟩,
    fun _ _ ha => nomatch ha⟩

theorem survives_of_freeInv {s : CallState} (hinv : FreeInv s)
    (hn : n + sizeofAllocHeader < 2 ^ 32) : Survives 0 k n s := by
  obtain ⟨h, pc⟩ := s
  cases pc with
  | clear p =>
      obtain ⟨cs, c, hwf, hmem, hused⟩ := hinv
      exact survives_clear hwf hmem hused hn fun _ _ => .refl _ _
  | cleared p w =>
      obtain ⟨⟨cs, c, hwf, hmem, hused⟩, hword⟩ := hinv
      simp only at hword
      subst hword
      exact survives_clear hwf hmem hused hn fun h' heq => heq ▸ .one rfl
  | uncount p =>
      obtain ⟨cs, hwf⟩ := hinv
      exact survives_uncount hwf hn fun h' => ⟨_, .head rfl (.head rfl (.one rfl))⟩
  | uncounted size =>
      obtain ⟨cs, hwf⟩ := hinv
      exact survives_uncount hwf hn fun h' => ⟨_, .head rfl (.one rfl)⟩
  | uncounting used =>
      obtain ⟨cs, hwf⟩ := hinv
      exact survives_uncount hwf hn fun h' => ⟨_, .one rfl⟩
  | done answer =>
      obtain ⟨rfl, cs, hwf⟩ := hinv
      exact survives_done hwf (fun _ ha => nomatch ha) hn
  | _ => exact hinv.elim

end Free

/-! ## Every point of every call -/

/-- A call of `malloc` that has returned, in the heap that it has left. -/
theorem survives_of_returned {h : Heap} {cs : List Chunk} {k n : Nat} {s : CallState}
    (hwf : WellFormed h.mem cs) (hk : k + sizeofAllocHeader < 2 ^ 32)
    (hn : n + sizeofAllocHeader < 2 ^ 32) {answer : Option Nat} (hpc : s.pc = .done answer)
    (hleads : CallLeads (HeapRequest.malloc k).need ⟨h, (HeapRequest.malloc k).start⟩ s) :
    Survives (HeapRequest.malloc k).need k n s := by
  obtain ⟨h', hcall, hwf', -, -⟩ := malloc_spec hwf hk
  obtain ⟨heap, pc⟩ := s
  obtain rfl : pc = .done answer := hpc
  have hend := hleads.unique (malloc_leads hcall) rfl rfl
  obtain ⟨rfl, hanswer⟩ := CallState.mk.inj hend
  obtain rfl := HeapPc.done.inj hanswer
  refine survives_done hwf' (fun q hq => ?_) hn
  obtain ⟨hole, -, hptr, -, hmem, hlong⟩ := malloc_some hwf hk (hq ▸ hcall)
  exact ⟨_, hmem, hptr, rfl, hlong⟩

/-- At every point of every call, in every heap, an interrupt that meets the condition is
survived. -/
theorem survives_of_mayInterrupt {h : Heap} {cs : List Chunk} {request : HeapRequest}
    {handlerSize : Nat} (accesses : Nat) (hwf : WellFormed h.mem cs) (hvalid : request.Valid cs)
    (hn : handlerSize + sizeofAllocHeader < 2 ^ 32)
    (hmay : MayInterrupt request.need handlerSize (request.after h accesses)) :
    Survives request.need request.size handlerSize (request.after h accesses) := by
  cases request with
  | free ptr =>
      obtain ⟨c, hmem, hused⟩ := hvalid
      have hstart : FreeInv ⟨h, (HeapRequest.free ptr).start⟩ := ⟨cs, c, hwf, hmem, hused⟩
      exact survives_of_freeInv (iterate_invariant freeInv_step hstart accesses) hn
  | malloc k =>
      have hneed : (HeapRequest.malloc k).need = k + sizeofAllocHeader := Nat.mod_eq_of_lt hvalid
      by_cases hdone : ∃ answer, ((HeapRequest.malloc k).after h accesses).pc = .done answer
      · obtain ⟨answer, hpc⟩ := hdone
        exact survives_of_returned hwf hvalid hn hpc ⟨accesses, rfl⟩
      · have hstart : MallocInv (HeapRequest.malloc k).need ⟨h, (HeapRequest.malloc k).start⟩ := by
          simp only [HeapRequest.start]
          split
          · trivial
          · exact mallocInv_atLoop _ (stands_heapPtr hwf) (cut_nil cs)
        have hinv : MallocInv (HeapRequest.malloc k).need
            ((HeapRequest.malloc k).after h accesses) :=
          iterate_invariant mallocInv_step hstart accesses
        rw [hneed] at hinv hmay ⊢
        exact survives_of_mallocInv hinv hn hmay fun answer hpc => hdone ⟨answer, hpc⟩

/-! ### A heap of one free chunk -/

/-- The heap as `heap_init` leaves it. -/
def emptyHeap : Heap := heapInit ⟨fun _ => 0, 0⟩

theorem wellFormed_emptyHeap : WellFormed emptyHeap.mem [⟨true, heapMaxSize⟩] :=
  wellFormed_heapInit _

/-- The first `malloc`, when it has tested the chunk. -/
theorem emptyHeap_tested :
    (HeapRequest.malloc 16).after emptyHeap 5 = ⟨emptyHeap, .rest heapPtr⟩ := by
  have hfree := wellFormed_emptyHeap.tail.allocIsFree_eq
  have hsize := wellFormed_emptyHeap.tail.allocSize_eq
  have hmerge : callStep 20 ⟨emptyHeap, .concatSize heapPtr⟩ = ⟨emptyHeap, .test heapPtr⟩ := by
    have hnext : atMerge heapPtr (heapPtr + allocSize emptyHeap.mem heapPtr) = .test heapPtr := by
      rw [hsize]
      rfl
    exact congrArg (CallState.mk emptyHeap) hnext
  have hfits : 20 < allocSize emptyHeap.mem heapPtr := by
    rw [hsize]
    decide
  change (callStep 20)^[5] ⟨emptyHeap, .find heapPtr⟩ = _
  simp only [Function.iterate_succ_apply, step_find hfree, step_concat hfree, if_true, hmerge,
    step_test hfree, step_fits hfits, Function.iterate_zero, id]

/-- And some accesses later. -/
theorem emptyHeap_later (n : Nat) : (HeapRequest.malloc 16).after emptyHeap (n + 5) =
    (callStep 20)^[n] ⟨emptyHeap, .rest heapPtr⟩ := by
  rw [← emptyHeap_tested]
  exact Function.iterate_add_apply (callStep 20) n 5 _

/-! ### A heap with a short and a long hole -/

/-- A short hole between used chunks, and a long one behind them. -/
def twoHoles : List Chunk := [⟨false, 100⟩, ⟨true, 24⟩, ⟨false, 60⟩, ⟨true, heapMaxSize - 184⟩]

def twoHolesHeap : Heap := ⟨layChunks heapPtr twoHoles fun _ => 0, 160⟩

theorem wellFormed_twoHoles : WellFormed twoHolesHeap.mem twoHoles :=
  wellFormed_layChunks (by decide) (by decide) _

/-- A `malloc` has taken the short hole and has read the header that it is about to write.
The handler gets a block in the long hole, and the call goes on to its own. -/
theorem survives_cut :
    let s := (HeapRequest.malloc 16).after twoHolesHeap 12
    Survives 20 16 32 s ∧ ∃ heap h, malloc s.heap 32 = some (heap, some (heapPtr + 188)) ∧
      CallLeads 20 ⟨heap, s.pc⟩ ⟨h, .done (some (heapPtr + 104))⟩ := by
  have hpc : ((HeapRequest.malloc 16).after twoHolesHeap 12).pc =
      .cutting (heapPtr + 100) 4 48 := rfl
  have hmay : MayInterrupt 20 32 ((HeapRequest.malloc 16).after twoHolesHeap 12) := by
    unfold MayInterrupt
    rw [hpc]
    trivial
  have hvalid : (HeapRequest.malloc 16).Valid twoHoles := by
    change 16 + sizeofAllocHeader < 2 ^ 32
    decide
  have hsurvives := survives_of_mayInterrupt 12 wellFormed_twoHoles hvalid (by decide) hmay
  have hanswers : (malloc ((HeapRequest.malloc 16).after twoHolesHeap 12).heap 32).map
      (fun r => (r.2, ((callStep 20)^[6] ⟨r.1, .cutting (heapPtr + 100) 4 48⟩).pc)) =
        some (some (heapPtr + 188), .done (some (heapPtr + 104))) := rfl
  obtain ⟨⟨heap, answer⟩, hcall, hboth⟩ := Option.map_eq_some_iff.mp hanswers
  obtain ⟨rfl, hend⟩ := Prod.mk.inj hboth
  refine ⟨hsurvives, heap, ((callStep 20)^[6] ⟨heap, .cutting (heapPtr + 100) 4 48⟩).heap, hcall,
    6, ?_⟩
  rw [hpc]
  exact congrArg (CallState.mk _) hend

/-- A used header of length 0 keeps the search for ever. -/
theorem mallocFindEmptySpace_stuck {m : Memory} {p : Nat} (hp : p < stackBasePtr)
    (hstuck : header m p = ⟨false, 0⟩) (fuel : Nat) : mallocFindEmptySpace m fuel p = none := by
  have hused : allocIsFree m p = false := congrArg Chunk.free hstuck
  have hsize : allocSize m p = 0 := congrArg Chunk.size hstuck
  induction fuel with
  | zero => rfl
  | succ fuel ih =>
      rw [mallocFindEmptySpace, if_pos ⟨hp, hused⟩, hsize]
      exact ih

/-- And so does one behind the first chunk. -/
theorem malloc_stuck {h : Heap} {n size : Nat} (hfirst : header h.mem heapPtr = ⟨false, n⟩)
    (hstuck : header h.mem (heapPtr + n) = ⟨false, 0⟩) (hin : heapPtr + n < stackBasePtr)
    (hsize : size + sizeofAllocHeader < heapMaxSize) : malloc h size = none := by
  have hneed : (size + sizeofAllocHeader) % 2 ^ 32 = size + sizeofAllocHeader :=
    Nat.mod_eq_of_lt (Nat.lt_trans hsize (by decide))
  have hmet : ¬ (heapMaxSize ≤ size + sizeofAllocHeader ∨ size + sizeofAllocHeader = 0) := by
    simp only [sizeofAllocHeader] at hsize ⊢
    omega
  obtain ⟨fuel, hfuel⟩ : ∃ k, loopFuel = k + 1 := ⟨loopFuel - 1, rfl⟩
  have hfind : mallocFindEmptySpace h.mem loopFuel heapPtr = none := by
    have hlen : allocSize h.mem heapPtr = n := congrArg Chunk.size hfirst
    rw [hfuel, mallocFindEmptySpace, if_pos ⟨by decide, congrArg Chunk.free hfirst⟩, hlen]
    exact mallocFindEmptySpace_stuck hin hstuck fuel
  have hloop : mallocLoop (size + sizeofAllocHeader) loopFuel h heapPtr = none := by
    rw [hfuel, mallocLoop, if_pos (by decide)]
    simp only [hfind]
  unfold malloc
  simp only [hneed]
  rw [if_neg hmet, hloop]

/-- The heap when the chunk has its new size, and no header is behind it yet. -/
theorem emptyHeap_cut : ((HeapRequest.malloc 16).after emptyHeap 10).heap =
    ⟨setSize (setIsFree emptyHeap.mem heapPtr false) heapPtr 20, emptyHeap.memoryUsed⟩ := by
  rw [emptyHeap_later 5]
  simp only [Function.iterate_succ_apply, Function.iterate_zero, id, callStep, CallState.goto,
    CallState.store, setSize, setIsFree, Bool.toNat_false, Nat.add_zero]

theorem malloc_emptyHeap_cut :
    malloc ((HeapRequest.malloc 16).after emptyHeap 10).heap 32 = none := by
  rw [emptyHeap_cut]
  have hfirst : header (setSize (setIsFree emptyHeap.mem heapPtr false) heapPtr 20) heapPtr =
      ⟨false, 20⟩ := by
    rw [header_setSize (by decide)]
    exact congrArg (fun c : Chunk => (⟨c.free, 20⟩ : Chunk)) (header_setIsFree _ _ _)
  have hzero : header (setSize (setIsFree emptyHeap.mem heapPtr false) heapPtr 20)
      (heapPtr + 20) = header (fun _ => 0) (heapPtr + 20) := by
    refine header_congr fun b hlo _ => ?_
    have hout : b < heapPtr ∨ heapPtr + 4 ≤ b := Or.inr (by omega)
    rw [setSize_of_outside hout, setIsFree_of_outside hout]
    change setSize (setIsFree (fun _ => 0) heapPtr true) heapPtr heapMaxSize b = 0
    rw [setSize_of_outside hout, setIsFree_of_outside hout]
  exact malloc_stuck hfirst (hzero.trans rfl) (by decide) (by decide)

/-- The handler takes the chunk that the foreground has tested, and the foreground takes it
again.  Or the handler comes before the header behind the chunk is written. -/
theorem not_survives_everywhere :
    ¬ Survives 20 16 32 ((HeapRequest.malloc 16).after emptyHeap 5) ∧
      ¬ Survives 20 16 32 ((HeapRequest.malloc 16).after emptyHeap 10) := by
  constructor
  swap
  · rintro ⟨-, h, held, hcall, -⟩
    exact nomatch malloc_emptyHeap_cut.symm.trans hcall
  rw [emptyHeap_tested]
  rintro ⟨-, h, held, hcall, h', answer, hleads, -, hapart⟩
  have hsized : 32 + sizeofAllocHeader < 2 ^ 32 := by decide
  obtain ⟨h₁, hcall₁, hwf, -, -⟩ := malloc_spec wellFormed_emptyHeap hsized
  rw [hcall, Option.some.injEq, Prod.mk.injEq] at hcall₁
  obtain ⟨rfl, hheld⟩ := hcall₁
  have hused : ∀ c ∈ ([] : List Chunk), c.free = false := fun _ hc => nomatch hc
  have hchain : mallocChain 32 [⟨true, heapMaxSize⟩] =
      [⟨false, 36⟩, ⟨true, heapMaxSize - 36⟩] := by
    unfold mallocChain
    rw [if_neg (by decide)]
    exact allocate_append_free hused (by decide)
  rw [hchain] at hwf
  have hfits : 20 < allocSize h.mem heapPtr := by
    rw [hwf.tail.allocSize_eq]
    decide
  have hend := hleads.unique (take_leads hfits) rfl rfl
  have hanswer : answer = some (heapPtr + sizeofAllocHeader) :=
    HeapPc.done.inj (congrArg CallState.pc hend)
  have hsame : held = some (heapPtr + sizeofAllocHeader) := by
    have hfit : firstFit 36 heapPtr [⟨true, heapMaxSize⟩] = some (heapPtr, heapMaxSize) :=
      firstFit_append_free hused (by decide)
    rw [hheld]
    exact congrArg (Option.map _) hfit
  have hout := hapart _ _ hanswer hsame
  omega

end DonutOS.Libc
