import DonutOS.Libc.MallocResume

set_option autoImplicit false

/-!
# Libc: what a call of the allocator knows between two accesses

At each program point the values that a call holds are those of the chain it stands
in.  Every access keeps that, so it holds at every point of a call that nobody
interrupts.
-/

namespace DonutOS.Libc

open DonutOS.Foundation

/-! ## What a call of `malloc` knows -/

/-- The call stands at a free chunk, and at the start of a free run. -/
structure AtFree (m : Memory) (p : Nat) (ds : List Chunk) (c : Chunk) (es : List Chunk) :
    Prop where
  stands : Stands m p ds (c :: es)
  free : c.free = true
  front : ∀ d, ds.getLast? = some d → d.free = false

/-- The chunk has no free one behind it. -/
def AtMerged (m : Memory) (p : Nat) (ds : List Chunk) (c : Chunk) (es : List Chunk) : Prop :=
  AtFree m p ds c es ∧ StartsUsed es

/-- What a call of `malloc` knows of the heap at each point, until it begins to split. -/
def MallocInv (need : Nat) (s : CallState) : Prop :=
  let m := s.heap.mem
  match s.pc with
  | .find p => p < stackBasePtr ∧ ∃ ds es, Stands m p ds es ∧ Cut ds es
  | .findSize p => ∃ ds c es, Stands m p ds (c :: es) ∧ c.free = false
  | .concat p => ∃ ds c es, AtFree m p ds c es
  | .concatSize p => ∃ ds c es, AtFree m p ds c es
  | .merge p q => ∃ ds c e es, AtFree m p ds c (e :: es) ∧ q = p + c.size
  | .mergeSize p q => ∃ ds c e es, AtFree m p ds c (e :: es) ∧ q = p + c.size ∧ e.free = true
  | .grow p q n =>
      ∃ ds c e es, AtFree m p ds c (e :: es) ∧ q = p + c.size ∧ e.free = true ∧ n = e.size
  | .grown p q n w =>
      (∃ ds c e es, AtFree m p ds c (e :: es) ∧ q = p + c.size ∧ e.free = true ∧ n = e.size) ∧
        w = readWord m p
  | .test p => ∃ ds c es, AtMerged m p ds c es
  | .fits p => ∃ ds c es, AtMerged m p ds c es
  | .skip p => ∃ ds c es, AtMerged m p ds c es
  | .rest p => ∃ ds c es, AtMerged m p ds c es ∧ need < c.size
  | .take p n => ∃ ds c es, AtMerged m p ds c es ∧ need < c.size ∧ n = c.size - need
  | .taken p n w =>
      (∃ ds c es, AtMerged m p ds c es ∧ need < c.size ∧ n = c.size - need) ∧ w = readWord m p
  | .cut p n =>
      ∃ ds k es, Stands m p ds (⟨false, k⟩ :: es) ∧ StartsUsed es ∧ need < k ∧ n = k - need
  | .cutting p n w =>
      (∃ ds k es, Stands m p ds (⟨false, k⟩ :: es) ∧ StartsUsed es ∧ need < k ∧ n = k - need) ∧
        w = readWord m p
  | .clear _ => False
  | .cleared _ _ => False
  | .uncount _ => False
  | .uncounted _ => False
  | .uncounting _ => False
  | _ => True

section Steps

variable (need : Nat) {p : Nat} {h : Heap} {ds es : List Chunk} {c : Chunk}

theorem AtFree.cut (hat : AtFree h.mem p ds c es) : Cut ds (c :: es) := Or.inl hat.front

theorem mallocInv_atLoop (hstands : Stands h.mem p ds es) (hcut : Cut ds es) :
    MallocInv need ⟨h, atLoop p⟩ := by
  unfold atLoop
  split
  · next hp => exact ⟨hp, ds, es, hstands, hcut⟩
  · trivial

/-- The merging loop looks at the chunk behind the one it has. -/
theorem AtFree.mallocInv_atMerge (hat : AtFree h.mem p ds c es) :
    MallocInv need ⟨h, atMerge p (p + c.size)⟩ := by
  cases es with
  | nil =>
      rw [atMerge_of_not_lt hat.stands.next.tail.not_lt_of_nil]
      exact ⟨ds, c, [], hat, startsUsed_nil⟩
  | cons e es =>
      rw [atMerge_of_lt hat.stands.next.tail.lt_stackBasePtr]
      exact ⟨ds, c, e, es, hat, rfl⟩

/-- The write that adds the chunk behind. -/
theorem AtFree.grow {e : Chunk} {v : Nat} (hat : AtFree h.mem p ds c (e :: es))
    (hv : v = readWord h.mem p % 2 + 2 * ((readWord h.mem p / 2 + e.size) % 2 ^ 31)) :
    AtFree (writeWord h.mem p v) p ds ⟨true, c.size + e.size⟩ es := by
  have htail := hat.stands.tail
  have hlt := htail.total_lt
  rw [total_cons, total_cons] at hlt
  have hset : writeWord h.mem p v = setSize h.mem p (allocSize h.mem p + e.size) := by
    rw [hv]
    rfl
  have hheader : header (writeWord h.mem p v) p = ⟨c.free, c.size + e.size⟩ := by
    rw [hset, header_setSize (by rw [htail.allocSize_eq]; omega), htail.allocSize_eq,
      htail.allocIsFree_eq]
  have hafter := htail.tail.tail
  rw [Nat.add_assoc] at hafter
  have hstands := hat.stands.absorb hafter hheader fun b hb => writeWord_of_outside hb
  rw [hat.free] at hstands
  exact ⟨hstands, rfl, hat.front⟩

theorem mallocInv_find (hp : p < stackBasePtr) (hstands : Stands h.mem p ds es)
    (hcut : Cut ds es) : MallocInv need (callStep need ⟨h, .find p⟩) := by
  obtain ⟨c, cs, rfl⟩ := hstands.exists_cons hp
  have hflag := hstands.tail.allocIsFree_eq
  cases hfree : c.free with
  | true =>
      rw [step_find (hflag.trans hfree)]
      refine ⟨ds, c, cs, hstands, hfree, ?_⟩
      rcases hcut with hfront | hstart
      · exact hfront
      · rw [hstart c rfl] at hfree
        exact Bool.noConfusion hfree
  | false =>
      rw [step_find (hflag.trans hfree)]
      exact ⟨ds, c, cs, hstands, hfree⟩

theorem AtFree.mallocInv_merge {e : Chunk} (hat : AtFree h.mem p ds c (e :: es)) :
    MallocInv need (callStep need ⟨h, .merge p (p + c.size)⟩) := by
  have hflag := hat.stands.tail.tail.allocIsFree_eq
  cases hfree : e.free with
  | true =>
      rw [step_merge (hflag.trans hfree)]
      exact ⟨ds, c, e, es, hat, rfl, hfree⟩
  | false =>
      rw [step_merge (hflag.trans hfree)]
      exact ⟨ds, c, e :: es, hat, startsUsed_cons es hfree⟩

theorem AtFree.mallocInv_grown {e : Chunk} (hat : AtFree h.mem p ds c (e :: es)) :
    MallocInv need
      (callStep need ⟨h, .grown p (p + c.size) e.size (readWord h.mem p)⟩) := by
  have hmerge := (hat.grow rfl).mallocInv_atMerge need (h := ⟨_, h.memoryUsed⟩)
  rw [← Nat.add_assoc] at hmerge
  exact hmerge

theorem mallocInv_fits (hat : AtMerged h.mem p ds c es) :
    MallocInv need (callStep need ⟨h, .fits p⟩) := by
  have hsize := hat.1.stands.tail.allocSize_eq
  by_cases hfits : need < c.size
  · rw [step_fits (hsize.symm ▸ hfits)]
    exact ⟨ds, c, es, hat, hfits⟩
  · rw [step_fits_not (hsize.symm ▸ hfits)]
    exact ⟨ds, c, es, hat⟩

theorem mallocInv_rest (hat : AtMerged h.mem p ds c es) (hfits : need < c.size) :
    MallocInv need (callStep need ⟨h, .rest p⟩) := by
  refine ⟨ds, c, es, hat, hfits, ?_⟩
  have hlt := hat.1.stands.tail.total_lt
  rw [total_cons] at hlt
  rw [hat.1.stands.tail.allocSize_eq]
  omega

end Steps

/-- One access keeps what the call knows. -/
theorem mallocInv_step {need : Nat} (s : CallState) (hinv : MallocInv need s) :
    MallocInv need (callStep need s) := by
  obtain ⟨h, pc⟩ := s
  cases pc with
  | find p =>
      obtain ⟨hp, ds, es, hstands, hcut⟩ := hinv
      exact mallocInv_find need hp hstands hcut
  | findSize p =>
      obtain ⟨ds, c, es, hstands, hused⟩ := hinv
      have hnext := mallocInv_atLoop need hstands.next (cut_append_used ds es hused)
      rw [← hstands.tail.allocSize_eq] at hnext
      exact hnext
  | concat p =>
      obtain ⟨ds, c, es, hat⟩ := hinv
      rw [step_concat (hat.stands.tail.allocIsFree_eq.trans hat.free)]
      exact ⟨ds, c, es, hat⟩
  | concatSize p =>
      obtain ⟨ds, c, es, hat⟩ := hinv
      have hmerge := hat.mallocInv_atMerge need
      rw [← hat.stands.tail.allocSize_eq] at hmerge
      exact hmerge
  | merge p q =>
      obtain ⟨ds, c, e, es, hat, rfl⟩ := hinv
      exact hat.mallocInv_merge need
  | mergeSize p q =>
      obtain ⟨ds, c, e, es, hat, rfl, hfree⟩ := hinv
      exact ⟨ds, c, e, es, hat, rfl, hfree, hat.stands.tail.tail.allocSize_eq⟩
  | grow p q n => exact ⟨hinv, rfl⟩
  | grown p q n w =>
      obtain ⟨⟨ds, c, e, es, hat, rfl, -, rfl⟩, hword⟩ := hinv
      simp only at hword hat
      subst hword
      exact hat.mallocInv_grown need
  | test p =>
      obtain ⟨ds, c, es, hat⟩ := hinv
      rw [step_test (hat.1.stands.tail.allocIsFree_eq.trans hat.1.free)]
      exact ⟨ds, c, es, hat⟩
  | fits p =>
      obtain ⟨ds, c, es, hat⟩ := hinv
      exact mallocInv_fits need hat
  | skip p =>
      obtain ⟨ds, c, es, hat⟩ := hinv
      have hnext := mallocInv_atLoop need hat.1.stands.next (Or.inr hat.2)
      rw [← hat.1.stands.tail.allocSize_eq] at hnext
      exact hnext
  | rest p =>
      obtain ⟨ds, c, es, hat, hfits⟩ := hinv
      exact mallocInv_rest need hat hfits
  | take p n => exact ⟨hinv, rfl⟩
  | taken p n w =>
      obtain ⟨⟨ds, c, es, hat, hfits, rfl⟩, hword⟩ := hinv
      simp only at hword hat
      subst hword
      exact ⟨ds, c.size, es, hat.1.stands.withFlag false, hat.2, hfits, rfl⟩
  | cut p n => exact ⟨hinv, rfl⟩
  | counting p n used =>
      unfold callStep
      simp only
      split <;> trivial
  | clear p => exact hinv.elim
  | cleared p w => exact hinv.elim
  | uncount p => exact hinv.elim
  | uncounted k => exact hinv.elim
  | uncounting used => exact hinv.elim
  | _ => trivial

/-! ## What a call of `free` knows -/

/-- What a call of `free` knows of the heap at each point. -/
def FreeInv (s : CallState) : Prop :=
  let m := s.heap.mem
  match s.pc with
  | .clear p => ∃ cs c, WellFormed m cs ∧ (p, c) ∈ spans heapPtr cs ∧ c.free = false
  | .cleared p w =>
      (∃ cs c, WellFormed m cs ∧ (p, c) ∈ spans heapPtr cs ∧ c.free = false) ∧ w = readWord m p
  | .uncount _ => ∃ cs, WellFormed m cs
  | .uncounted _ => ∃ cs, WellFormed m cs
  | .uncounting _ => ∃ cs, WellFormed m cs
  | .done answer => answer = none ∧ ∃ cs, WellFormed m cs
  | _ => False

theorem freeInv_step {need : Nat} (s : CallState) (hinv : FreeInv s) :
    FreeInv (callStep need s) := by
  obtain ⟨h, pc⟩ := s
  cases pc with
  | clear p => exact ⟨hinv, rfl⟩
  | cleared p w =>
      obtain ⟨⟨cs, c, hwf, hmem, -⟩, hword⟩ := hinv
      simp only at hword
      subst hword
      have hmem' : (p + sizeofAllocHeader - sizeofAllocHeader, c) ∈ spans heapPtr cs := hmem
      exact ⟨_, (free_spec (h := h) hwf hmem').1⟩
  | uncount p => exact hinv
  | uncounted size => exact hinv
  | uncounting used => exact ⟨rfl, hinv⟩
  | done answer => exact hinv
  | _ => exact hinv.elim

end DonutOS.Libc
