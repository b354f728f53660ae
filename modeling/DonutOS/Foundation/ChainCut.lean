import DonutOS.Foundation.FirstFit

set_option autoImplicit false

/-!
# Foundation: first fit on a chain that is cut in two

A search that stands inside a chain has the chain cut at its position.  Where no
free run crosses the cut, an allocation works on the two parts one after the other,
and the position stays the first address of a chunk.
-/

namespace DonutOS.Foundation

/-- The chain does not start with a free chunk. -/
def StartsUsed (cs : List Chunk) : Prop := ∀ c, cs.head? = some c → c.free = false

/-- No free run crosses from `ds` to `es`. -/
def Cut (ds es : List Chunk) : Prop :=
  (∀ c, ds.getLast? = some c → c.free = false) ∨ StartsUsed es

theorem startsUsed_nil : StartsUsed [] := fun _ h => nomatch h

theorem startsUsed_cons {c : Chunk} (cs : List Chunk) (h : c.free = false) :
    StartsUsed (c :: cs) := by
  rintro d hd
  obtain rfl := Option.some.inj hd
  exact h

theorem cut_nil (es : List Chunk) : Cut [] es := Or.inl fun _ h => nomatch h

theorem cut_append_used {c : Chunk} (ds es : List Chunk) (h : c.free = false) :
    Cut (ds ++ [c]) es := by
  refine Or.inl fun d hd => ?_
  rw [List.getLast?_append_of_ne_nil _ (List.cons_ne_nil c [])] at hd
  obtain rfl := Option.some.inj hd
  exact h

theorem Cut.tail {c : Chunk} {ds es : List Chunk} (h : Cut (c :: ds) es) : Cut ds es := by
  rcases h with hlast | hstart
  · refine Or.inl fun d hd => hlast d ?_
    rw [List.getLast?_cons, hd]
    rfl
  · exact Or.inr hstart

theorem StartsUsed.freeRun_eq {cs : List Chunk} (h : StartsUsed cs) :
    freeRun cs = [] ∧ afterRun cs = cs := by
  have hnone : ∀ c ∈ ([] : List Chunk), c.free = true := fun _ hc => nomatch hc
  exact freeRun_append hnone h

/-- A free run in front of a cut ends there. -/
theorem freeRun_append_of_cut {c : Chunk} {ds es : List Chunk} (hfree : c.free = true)
    (h : Cut (c :: ds) es) : freeRun (ds ++ es) = freeRun ds ∧
      afterRun (ds ++ es) = afterRun ds ++ es ∧ Cut (afterRun ds) es := by
  induction ds generalizing c with
  | nil =>
      rcases h with hlast | hstart
      · rw [hlast c rfl] at hfree
        exact Bool.noConfusion hfree
      · obtain ⟨hrun, hafter⟩ := hstart.freeRun_eq
        exact ⟨hrun, hafter, cut_nil es⟩
  | cons d ds ih =>
      cases hd : d.free with
      | true =>
          obtain ⟨hrun, hafter, hcut⟩ := ih hd h.tail
          simp only [List.cons_append, freeRun, afterRun, List.takeWhile_cons_of_pos hd,
            List.dropWhile_cons_of_pos hd]
          exact ⟨congrArg (d :: ·) hrun, hafter, hcut⟩
      | false =>
          have hneg : ¬ d.free = true := by simp [hd]
          simp only [List.cons_append, freeRun, afterRun, List.takeWhile_cons_of_neg hneg,
            List.dropWhile_cons_of_neg hneg]
          exact ⟨trivial, trivial, h.tail⟩

theorem total_place {hdr need run : Nat} {rest : List Chunk} (hfit : need < run) :
    total (place hdr need run rest) = run + total rest := by
  unfold place placedSize
  by_cases hsplit : hdr < run - need
  · simp only [if_pos hsplit, total_cons]
    omega
  · simp only [if_neg hsplit, total_cons]

/-- Allocation keeps the length of the chain. -/
theorem total_allocate (hdr need p : Nat) (cs : List Chunk) :
    total (allocate hdr need p cs).2 = total cs := by
  induction p, cs using runInduction with
  | nil p => rw [allocate_nil]
  | used p c cs hused ih => rw [allocate_cons_used _ _ _ _ hused, total_cons, total_cons, ih]
  | free p c cs hfree ih =>
      have hrun := total_freeRun_add_afterRun cs
      by_cases hfit : need < c.size + total (freeRun cs)
      · rw [allocate_cons_fit p hfree hfit, total_place hfit, total_cons]
        omega
      · rw [allocate_cons_small p hfree hfit, total_cons, total_cons, ih]
        simp only
        omega

/-- An allocation finds its hole in the first part, and leaves the second one alone, or
merges the free runs of the first part and goes on. -/
theorem allocate_append (hdr need p : Nat) {ds es : List Chunk} (h : Cut ds es) :
    (∃ hole, firstFit need p ds = some hole ∧ firstFit need p (ds ++ es) = some hole ∧
      (allocate hdr need p (ds ++ es)).2 = (allocate hdr need p ds).2 ++ es) ∨
    (firstFit need p (ds ++ es) = firstFit need (p + total ds) es ∧
      (allocate hdr need p (ds ++ es)).2 =
        (allocate hdr need p ds).2 ++ (allocate hdr need (p + total ds) es).2) := by
  induction p, ds using runInduction with
  | nil p => exact Or.inr ⟨rfl, by rw [allocate_nil]; rfl⟩
  | used p c ds hused ih =>
      rw [List.cons_append, allocate_cons_used _ _ _ _ hused, allocate_cons_used _ _ _ _ hused,
        firstFit_cons_used _ _ _ hused, firstFit_cons_used _ _ _ hused, total_cons,
        ← Nat.add_assoc]
      rcases ih h.tail with ⟨hole, hfound, hsame, happend⟩ | ⟨hpast, happend⟩
      · exact Or.inl ⟨hole, hfound, hsame, congrArg (c :: ·) happend⟩
      · exact Or.inr ⟨hpast, congrArg (c :: ·) happend⟩
  | free p c ds hfree ih =>
      obtain ⟨hrun, hafter, hcut⟩ := freeRun_append_of_cut hfree h
      rw [List.cons_append]
      by_cases hfit : need < c.size + total (freeRun ds)
      · rw [allocate_cons_fit p hfree hfit, allocate_cons_fit p hfree (hrun ▸ hfit),
          firstFit_cons_fit p hfree hfit, firstFit_cons_fit p hfree (hrun ▸ hfit), hrun, hafter]
        refine Or.inl ⟨_, rfl, rfl, ?_⟩
        unfold place
        split <;> rfl
      · have htotal : p + total (c :: ds) =
            p + (c.size + total (freeRun ds)) + total (afterRun ds) := by
          have hparts := total_freeRun_add_afterRun ds
          rw [total_cons]
          omega
        rw [allocate_cons_small p hfree hfit, allocate_cons_small p hfree (hrun ▸ hfit),
          firstFit_cons_small p hfree hfit, firstFit_cons_small p hfree (hrun ▸ hfit), hrun,
          hafter, htotal]
        rcases ih hcut with ⟨hole, hfound, hsame, happend⟩ | ⟨hpast, happend⟩
        · exact Or.inl ⟨hole, hfound, hsame, congrArg (_ :: ·) happend⟩
        · exact Or.inr ⟨hpast, congrArg (_ :: ·) happend⟩

/-- A chain that starts with a used chunk still does after an allocation. -/
theorem StartsUsed.allocate {cs : List Chunk} (h : StartsUsed cs) (hdr need p : Nat) :
    StartsUsed (allocate hdr need p cs).2 := by
  cases cs with
  | nil =>
      rw [allocate_nil]
      exact startsUsed_nil
  | cons c cs =>
      have hused := h c rfl
      rw [allocate_cons_used _ _ _ _ hused]
      exact startsUsed_cons _ hused

/-- A free chunk with no free one behind it is taken, or stays as it is. -/
theorem allocate_single (hdr need p : Nat) {c : Chunk} {cs : List Chunk} (hfree : c.free = true)
    (h : StartsUsed cs) :
    (firstFit need p (c :: cs) = some (p, c.size) ∧ ∃ ds, (allocate hdr need p (c :: cs)).2 =
      ⟨false, placedSize hdr need c.size⟩ :: ds) ∨
    (allocate hdr need p (c :: cs)).2 = c :: (allocate hdr need (p + c.size) cs).2 := by
  obtain ⟨hnone, hafter⟩ := h.freeRun_eq
  have hrun : c.size + total (freeRun cs) = c.size := by
    rw [hnone]
    rfl
  by_cases hfit : need < c.size
  · refine Or.inl ?_
    rw [firstFit_cons_fit p hfree (hrun.symm ▸ hfit), allocate_cons_fit p hfree (hrun.symm ▸ hfit),
      hrun]
    exact ⟨rfl, _, rfl⟩
  · refine Or.inr ?_
    rw [allocate_cons_small p hfree (by rwa [hrun]), hrun, hafter, ← hfree]

end DonutOS.Foundation
