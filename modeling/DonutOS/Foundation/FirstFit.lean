import DonutOS.Foundation.Chunks
import Mathlib.Data.List.TakeWhile

set_option autoImplicit false

/-!
# Foundation: first-fit allocation on a chain of chunks

The abstract allocator.  `allocate hdr need p cs` walks the chain `cs` that
starts at `p`, merges each maximal run of free neighbours it meets, and takes
the first run longer than `need`; the rest of that run becomes a free chunk of
its own unless it is no longer than a header (`hdr`).  `release a` frees the
chunk at address `a`.  `holes` lists the maximal free runs, which is what an
allocation request sees of a chain.
-/

namespace DonutOS.Foundation

/-- The free chunks at the front of a chain. -/
abbrev freeRun (cs : List Chunk) : List Chunk := cs.takeWhile (·.free)

/-- What follows the free chunks at the front of a chain. -/
abbrev afterRun (cs : List Chunk) : List Chunk := cs.dropWhile (·.free)

theorem length_afterRun_le (cs : List Chunk) : (afterRun cs).length ≤ cs.length :=
  (List.dropWhile_sublist _).length_le

/-- The length of the used chunk made for `need` bytes in a free run of `run`:
the whole run when what would be left is no longer than a header. -/
def placedSize (hdr need run : Nat) : Nat :=
  if hdr < run - need then need else run

theorem le_placedSize {hdr need run : Nat} (h : need < run) :
    need ≤ placedSize hdr need run := by
  unfold placedSize
  split <;> omega

/-- Carve a used chunk for `need` bytes out of a free run of `run` bytes. -/
def place (hdr need run : Nat) (rest : List Chunk) : List Chunk :=
  ⟨false, placedSize hdr need run⟩ ::
    if hdr < run - need then ⟨true, run - need⟩ :: rest else rest

/-- First fit with lazy merging: the address found, and the chain left. -/
def allocate (hdr need : Nat) : Nat → List Chunk → Option Nat × List Chunk
  | _, [] => (none, [])
  | p, c :: cs =>
      if c.free then
        let run := c.size + total (freeRun cs)
        if need < run then (some p, place hdr need run (afterRun cs))
        else
          let r := allocate hdr need (p + run) (afterRun cs)
          (r.1, ⟨true, run⟩ :: r.2)
      else
        let r := allocate hdr need (p + c.size) cs
        (r.1, c :: r.2)
  termination_by _ cs => cs.length
  decreasing_by
    · exact Nat.lt_succ_of_le (length_afterRun_le cs)
    · simp

/-- The maximal runs of free neighbours, as (first address, length). -/
def holes : Nat → List Chunk → List (Nat × Nat)
  | _, [] => []
  | p, c :: cs =>
      if c.free then
        let run := c.size + total (freeRun cs)
        (p, run) :: holes (p + run) (afterRun cs)
      else holes (p + c.size) cs
  termination_by _ cs => cs.length
  decreasing_by
    · exact Nat.lt_succ_of_le (length_afterRun_le cs)
    · simp

/-- Mark the chunk at address `a` free. -/
def release (a : Nat) : Nat → List Chunk → List Chunk
  | _, [] => []
  | p, c :: cs =>
      (if p = a then { c with free := true } else c) :: release a (p + c.size) cs

/-! ## The recursion equations -/

@[simp] theorem allocate_nil (hdr need p : Nat) :
    allocate hdr need p [] = (none, []) := by rw [allocate]

theorem allocate_cons_used {c : Chunk} (hdr need p : Nat) (cs : List Chunk)
    (h : c.free = false) :
    allocate hdr need p (c :: cs) =
      ((allocate hdr need (p + c.size) cs).1,
        c :: (allocate hdr need (p + c.size) cs).2) := by
  rw [allocate, h]
  rfl

theorem allocate_cons_fit {c : Chunk} {hdr need : Nat} (p : Nat) {cs : List Chunk}
    (h : c.free = true) (hfit : need < c.size + total (freeRun cs)) :
    allocate hdr need p (c :: cs) =
      (some p, place hdr need (c.size + total (freeRun cs)) (afterRun cs)) := by
  rw [allocate, if_pos h, if_pos hfit]

theorem allocate_cons_small {c : Chunk} {hdr need : Nat} (p : Nat) {cs : List Chunk}
    (h : c.free = true) (hsmall : ¬ need < c.size + total (freeRun cs)) :
    allocate hdr need p (c :: cs) =
      ((allocate hdr need (p + (c.size + total (freeRun cs))) (afterRun cs)).1,
        ⟨true, c.size + total (freeRun cs)⟩ ::
          (allocate hdr need (p + (c.size + total (freeRun cs)))
            (afterRun cs)).2) := by
  rw [allocate, if_pos h, if_neg hsmall]

@[simp] theorem holes_nil (p : Nat) : holes p [] = [] := by rw [holes]

theorem holes_cons_used {c : Chunk} (p : Nat) (cs : List Chunk)
    (h : c.free = false) : holes p (c :: cs) = holes (p + c.size) cs := by
  rw [holes, h]
  rfl

theorem holes_cons_free {c : Chunk} (p : Nat) (cs : List Chunk)
    (h : c.free = true) :
    holes p (c :: cs) = (p, c.size + total (freeRun cs)) ::
      holes (p + (c.size + total (freeRun cs))) (afterRun cs) := by
  rw [holes, if_pos h]

theorem total_freeRun_add_afterRun (cs : List Chunk) :
    total (freeRun cs) + total (afterRun cs) = total cs := by
  rw [← total_append, List.takeWhile_append_dropWhile]

/-- A chain is its leading free run and what is behind it. -/
theorem spans_freeRun_append_afterRun (p : Nat) (cs : List Chunk) :
    spans p cs = spans p (freeRun cs) ++ spans (p + total (freeRun cs)) (afterRun cs) := by
  rw [← spans_append, List.takeWhile_append_dropWhile]

theorem spans_afterRun_subset {p : Nat} {cs : List Chunk} {x : Nat × Chunk}
    (hx : x ∈ spans (p + total (freeRun cs)) (afterRun cs)) : x ∈ spans p cs := by
  rw [spans_freeRun_append_afterRun]
  exact List.mem_append_right _ hx

theorem spans_cons_afterRun_subset {p : Nat} {c : Chunk} {cs : List Chunk}
    {x : Nat × Chunk} (hx : x ∈ spans (p + (c.size + total (freeRun cs))) (afterRun cs)) :
    x ∈ spans p (c :: cs) := by
  rw [← Nat.add_assoc] at hx
  exact List.mem_cons_of_mem _ (spans_afterRun_subset hx)

/-- Walking a chain by its free runs: the induction that follows `allocate` and
`holes`. -/
theorem runInduction {motive : Nat → List Chunk → Prop}
    (nil : ∀ p, motive p [])
    (used : ∀ p c cs, c.free = false → motive (p + c.size) cs → motive p (c :: cs))
    (free : ∀ p c cs, c.free = true →
      motive (p + (c.size + total (freeRun cs))) (afterRun cs) → motive p (c :: cs)) :
    ∀ p cs, motive p cs := by
  intro p cs
  induction p, cs using holes.induct with
  | case1 p => exact nil p
  | case2 p c cs hfree run ih => exact free p c cs hfree ih
  | case3 p c cs hused ih => exact used p c cs (by simpa using hused) ih

/-! ## What allocation keeps -/

theorem size_le_of_mem_afterRun {hdr : Nat} {c : Chunk} {cs : List Chunk}
    (hmin : ∀ d ∈ c :: cs, hdr ≤ d.size) : ∀ d ∈ afterRun cs, hdr ≤ d.size :=
  fun d hd => hmin d (List.mem_cons_of_mem _ (List.dropWhile_subset _ hd))

/-- No chunk of the new chain is shorter than a header. -/
theorem size_le_of_mem_allocate {hdr need : Nat} (hneed : hdr ≤ need) (p : Nat)
    (cs : List Chunk) (hmin : ∀ c ∈ cs, hdr ≤ c.size) :
    ∀ c ∈ (allocate hdr need p cs).2, hdr ≤ c.size := by
  induction p, cs using runInduction with
  | nil p => simp
  | used p c cs hused ih =>
      rw [allocate_cons_used _ _ _ _ hused]
      intro d hd
      rcases List.mem_cons.mp hd with rfl | hd
      · exact hmin d List.mem_cons_self
      · exact ih (fun e he => hmin e (List.mem_cons_of_mem _ he)) d hd
  | free p c cs hfree ih =>
      have hc := hmin c List.mem_cons_self
      by_cases hfit : need < c.size + total (freeRun cs)
      · rw [allocate_cons_fit p hfree hfit]
        intro d hd
        unfold place placedSize at hd
        split at hd
        · simp only [List.mem_cons] at hd
          rcases hd with rfl | rfl | hd
          · exact hneed
          · simp only; omega
          · exact size_le_of_mem_afterRun hmin d hd
        · simp only [List.mem_cons] at hd
          rcases hd with rfl | hd
          · simp only; omega
          · exact size_le_of_mem_afterRun hmin d hd
      · rw [allocate_cons_small p hfree hfit]
        intro d hd
        rcases List.mem_cons.mp hd with rfl | hd
        · simp only; omega
        · exact ih (size_le_of_mem_afterRun hmin) d hd

/-- The used chunks of a chain are those after its leading free run. -/
theorem mem_spans_afterRun_iff {p : Nat} {cs : List Chunk} {x : Nat × Chunk}
    (hx : x.2.free = false) :
    x ∈ spans p cs ↔ x ∈ spans (p + total (freeRun cs)) (afterRun cs) := by
  have hnot : x ∉ spans p (freeRun cs) := by
    intro hmem
    have hfree := List.mem_takeWhile_imp (chunk_mem_of_mem_spans hmem)
    simp [hx] at hfree
  rw [spans_freeRun_append_afterRun, List.mem_append]
  exact ⟨fun h => h.resolve_left hnot, Or.inr⟩

theorem mem_spans_cons_free_iff {p : Nat} {c : Chunk} {cs : List Chunk}
    {x : Nat × Chunk} (hfree : c.free = true) (hx : x.2.free = false) :
    x ∈ spans p (c :: cs) ↔
      x ∈ spans (p + (c.size + total (freeRun cs))) (afterRun cs) := by
  have hne : x ≠ (p, c) := by
    rintro rfl
    simp [hfree] at hx
  rw [spans_cons, List.mem_cons, mem_spans_afterRun_iff hx, Nat.add_assoc]
  exact ⟨fun h => h.resolve_left hne, Or.inr⟩

/-! ## Holes -/

/-- A hole lies inside the chain. -/
theorem mem_holes_bounds (p : Nat) (cs : List Chunk) :
    ∀ h ∈ holes p cs, p ≤ h.1 ∧ h.1 + h.2 ≤ p + total cs := by
  induction p, cs using runInduction with
  | nil p => simp
  | used p c cs hused ih =>
      rw [holes_cons_used p cs hused]
      intro h hh
      have := ih h hh
      simp only [total_cons]
      omega
  | free p c cs hfree ih =>
      rw [holes_cons_free p cs hfree]
      have hrun := total_freeRun_add_afterRun cs
      intro h hh
      simp only [total_cons]
      rcases List.mem_cons.mp hh with rfl | hh
      · simp only; omega
      · have := ih h hh
        omega

/-- A hole starts at a free chunk. -/
theorem exists_free_of_mem_holes (p : Nat) (cs : List Chunk) :
    ∀ h ∈ holes p cs, ∃ c, (h.1, c) ∈ spans p cs ∧ c.free = true := by
  induction p, cs using runInduction with
  | nil p => simp
  | used p c cs hused ih =>
      rw [holes_cons_used p cs hused]
      intro h hh
      obtain ⟨d, hd, hdfree⟩ := ih h hh
      exact ⟨d, List.mem_cons_of_mem _ hd, hdfree⟩
  | free p c cs hfree ih =>
      rw [holes_cons_free p cs hfree]
      intro h hh
      rcases List.mem_cons.mp hh with rfl | hh
      · exact ⟨c, List.mem_cons_self, hfree⟩
      · obtain ⟨d, hd, hdfree⟩ := ih h hh
        exact ⟨d, spans_cons_afterRun_subset hd, hdfree⟩

/-- A maximal run of free neighbours, told without walking the chain: free chunks
with no free chunk right before or right behind them. -/
def MaximalRun (p : Nat) (cs : List Chunk) (run : Nat × Nat) : Prop :=
  ∃ before chunks after, cs = before ++ (chunks ++ after) ∧ chunks ≠ [] ∧
    (∀ c ∈ chunks, c.free = true) ∧
    (∀ c, before.getLast? = some c → c.free = false) ∧
    (∀ c, after.head? = some c → c.free = false) ∧
    run = (p + total before, total chunks)

theorem free_of_head?_afterRun {cs : List Chunk} {c : Chunk}
    (h : (afterRun cs).head? = some c) : c.free = false := by
  have hnot := List.head?_dropWhile_not (fun c : Chunk => c.free) cs
  rw [h] at hnot
  exact hnot

/-- A run of free chunks that ends at a used chunk, or with the chain, is the
leading free run. -/
theorem freeRun_append {chunks after : List Chunk}
    (hfree : ∀ c ∈ chunks, c.free = true)
    (hafter : ∀ c, after.head? = some c → c.free = false) :
    freeRun (chunks ++ after) = chunks ∧ afterRun (chunks ++ after) = after := by
  rw [freeRun, afterRun, List.takeWhile_append_of_pos hfree,
    List.dropWhile_append_of_pos hfree]
  cases after with
  | nil => simp
  | cons d after =>
      have hd := hafter d rfl
      simp [hd]

theorem maximalRun_cons_used {p : Nat} {c : Chunk} {cs : List Chunk} {run : Nat × Nat}
    (hused : c.free = false) :
    MaximalRun p (c :: cs) run ↔ MaximalRun (p + c.size) cs run := by
  constructor
  · rintro ⟨before, chunks, after, hcs, hne, hfree, hbefore, hafter, rfl⟩
    cases before with
    | nil =>
        -- the run would start at the used chunk
        obtain ⟨d, chunks, rfl⟩ := List.exists_cons_of_ne_nil hne
        rw [List.nil_append, List.cons_append, List.cons.injEq] at hcs
        have hd := hfree d List.mem_cons_self
        rw [← hcs.1, hused] at hd
        exact Bool.noConfusion hd
    | cons d before =>
        rw [List.cons_append, List.cons.injEq] at hcs
        obtain ⟨rfl, rfl⟩ := hcs
        refine ⟨before, chunks, after, rfl, hne, hfree, ?_, hafter, ?_⟩
        · intro e he
          refine hbefore e ?_
          rw [List.getLast?_cons, he]
          rfl
        · rw [total_cons, Nat.add_assoc]
  · rintro ⟨before, chunks, after, rfl, hne, hfree, hbefore, hafter, rfl⟩
    refine ⟨c :: before, chunks, after, rfl, hne, hfree, ?_, hafter, ?_⟩
    · intro e he
      rw [List.getLast?_cons, Option.some.injEq] at he
      cases hlast : before.getLast? with
      | none =>
          rw [hlast] at he
          rw [← he]
          exact hused
      | some d =>
          rw [hlast] at he
          rw [← he]
          exact hbefore d hlast
    · rw [total_cons, Nat.add_assoc]

section ConsFree

variable {p : Nat} {c : Chunk} {cs : List Chunk} {run : Nat × Nat}

/-- Of chunks that start with a free one and end with a used one, some are left behind
the leading free run. -/
theorem afterRun_ne_nil (hfree : c.free = true)
    (hlast : ∀ e, (c :: cs).getLast? = some e → e.free = false) : afterRun cs ≠ [] := by
  intro hall
  have hmem : ∀ e ∈ c :: cs, e.free = true := by
    intro e he
    rcases List.mem_cons.mp he with rfl | he
    · exact hfree
    · exact List.dropWhile_eq_nil_iff.mp hall e he
  have he := List.getLast?_eq_some_getLast (List.cons_ne_nil c cs)
  have hused := hlast _ he
  rw [hmem _ (List.mem_of_getLast? he)] at hused
  exact Bool.noConfusion hused

/-- The leading free run is maximal. -/
theorem maximalRun_head (hfree : c.free = true) :
    MaximalRun p (c :: cs) (p, c.size + total (freeRun cs)) := by
  refine ⟨[], c :: freeRun cs, afterRun cs, ?_, List.cons_ne_nil _ _, ?_, ?_, ?_, rfl⟩
  · rw [List.nil_append, List.cons_append, List.takeWhile_append_dropWhile]
  · intro e he
    rcases List.mem_cons.mp he with rfl | he
    · exact hfree
    · exact List.mem_takeWhile_imp he
  · intro e he
    cases he
  · exact fun e he => free_of_head?_afterRun he

theorem MaximalRun.of_afterRun
    (h : MaximalRun (p + (c.size + total (freeRun cs))) (afterRun cs) run) :
    MaximalRun p (c :: cs) run := by
  obtain ⟨before, chunks, after, hcs, hne, hrun, hbefore, hafter, rfl⟩ := h
  have hbne : before ≠ [] := by
    rintro rfl
    -- the chunk behind a free run is used, so it starts no run
    obtain ⟨d, chunks, rfl⟩ := List.exists_cons_of_ne_nil hne
    have hused : d.free = false := free_of_head?_afterRun (by rw [hcs]; rfl)
    rw [hrun d List.mem_cons_self] at hused
    exact Bool.noConfusion hused
  refine ⟨c :: freeRun cs ++ before, chunks, after, ?_, hne, hrun, ?_, hafter, ?_⟩
  · rw [List.append_assoc, ← hcs, List.cons_append, List.takeWhile_append_dropWhile]
  · intro e he
    rw [List.getLast?_append_of_ne_nil _ hbne] at he
    exact hbefore e he
  · simp only [total_append, total_cons, Nat.add_assoc]

theorem MaximalRun.head_or_afterRun (h : MaximalRun p (c :: cs) run)
    (hfree : c.free = true) :
    run = (p, c.size + total (freeRun cs)) ∨
      MaximalRun (p + (c.size + total (freeRun cs))) (afterRun cs) run := by
  obtain ⟨before, chunks, after, hcs, hne, hrun, hbefore, hafter, rfl⟩ := h
  cases before with
  | nil =>
      obtain ⟨d, chunks, rfl⟩ := List.exists_cons_of_ne_nil hne
      rw [List.nil_append, List.cons_append, List.cons.injEq] at hcs
      obtain ⟨rfl, rfl⟩ := hcs
      have hlead := freeRun_append
        (fun e he => hrun e (List.mem_cons_of_mem _ he)) hafter
      exact Or.inl (by rw [hlead.1, total_cons, total_nil, Nat.add_zero])
  | cons d before =>
      rw [List.cons_append, List.cons.injEq] at hcs
      obtain ⟨rfl, rfl⟩ := hcs
      -- `before` ends with a used chunk, so the leading free run ends inside it
      have hsplit := afterRun_ne_nil hfree hbefore
      have hparts : before = freeRun before ++ afterRun before :=
        List.takeWhile_append_dropWhile.symm
      have hends : ∀ e, (afterRun before ++ (chunks ++ after)).head? = some e →
          e.free = false := by
        intro e he
        rw [List.head?_append_of_ne_nil _ hsplit] at he
        exact free_of_head?_afterRun he
      have hfrees : ∀ e ∈ freeRun before, e.free = true :=
        fun e he => List.mem_takeWhile_imp he
      have hlead := freeRun_append hfrees hends
      rw [← List.append_assoc, ← hparts] at hlead
      rw [hlead.1, hlead.2]
      refine Or.inr ⟨afterRun before, chunks, after, rfl, hne, hrun, ?_, hafter, ?_⟩
      · intro e he
        refine hbefore e ?_
        rw [List.getLast?_cons, hparts, List.getLast?_append_of_ne_nil _ hsplit, he]
        rfl
      · have htotal := total_freeRun_add_afterRun before
        simp only [total_cons, Prod.mk.injEq, and_true]
        omega

theorem maximalRun_cons_free (hfree : c.free = true) :
    MaximalRun p (c :: cs) run ↔ run = (p, c.size + total (freeRun cs)) ∨
      MaximalRun (p + (c.size + total (freeRun cs))) (afterRun cs) run := by
  constructor
  · exact fun h => h.head_or_afterRun hfree
  · rintro (rfl | h)
    · exact maximalRun_head hfree
    · exact h.of_afterRun

end ConsFree

/-- `holes` lists the maximal free runs. -/
theorem mem_holes_iff {p : Nat} {cs : List Chunk} {run : Nat × Nat} :
    run ∈ holes p cs ↔ MaximalRun p cs run := by
  induction p, cs using runInduction with
  | nil p =>
      constructor
      · simp
      · rintro ⟨before, chunks, after, hcs, hne, -⟩
        have hnil := List.append_eq_nil_iff.mp hcs.symm
        exact absurd (List.append_eq_nil_iff.mp hnil.2).1 hne
  | used p c cs hused ih =>
      rw [holes_cons_used p cs hused, maximalRun_cons_used hused]
      exact ih
  | free p c cs hfree ih =>
      rw [holes_cons_free p cs hfree, maximalRun_cons_free hfree, List.mem_cons, ih]

/-! ## What allocation returns, and the used chunks it leaves -/

/-- The hole a request of `need` bytes is served from: the first one longer
than `need`. -/
def firstFit (need p : Nat) (cs : List Chunk) : Option (Nat × Nat) :=
  (holes p cs).find? fun h => decide (need < h.2)

theorem firstFit_cons_used {c : Chunk} (need p : Nat) (cs : List Chunk)
    (h : c.free = false) :
    firstFit need p (c :: cs) = firstFit need (p + c.size) cs := by
  rw [firstFit, holes_cons_used p cs h, firstFit]

theorem firstFit_cons_fit {c : Chunk} {need : Nat} (p : Nat) {cs : List Chunk}
    (h : c.free = true) (hfit : need < c.size + total (freeRun cs)) :
    firstFit need p (c :: cs) = some (p, c.size + total (freeRun cs)) := by
  rw [firstFit, holes_cons_free p cs h]
  exact List.find?_cons_of_pos (by simpa using hfit)

theorem firstFit_cons_small {c : Chunk} {need : Nat} (p : Nat) {cs : List Chunk}
    (h : c.free = true) (hsmall : ¬ need < c.size + total (freeRun cs)) :
    firstFit need p (c :: cs) =
      firstFit need (p + (c.size + total (freeRun cs))) (afterRun cs) := by
  rw [firstFit, holes_cons_free p cs h]
  exact List.find?_cons_of_neg (by simpa using hsmall)

theorem mem_holes_of_firstFit {need p : Nat} {cs : List Chunk} {h : Nat × Nat}
    (hfit : firstFit need p cs = some h) : h ∈ holes p cs ∧ need < h.2 :=
  ⟨List.mem_of_find?_eq_some hfit, by simpa using List.find?_some hfit⟩

/-- Allocation returns the start of the first hole that is long enough. -/
theorem allocate_fst (hdr need p : Nat) (cs : List Chunk) :
    (allocate hdr need p cs).1 = (firstFit need p cs).map Prod.fst := by
  induction p, cs using runInduction with
  | nil p => simp [firstFit]
  | used p c cs hused ih =>
      rw [allocate_cons_used _ _ _ _ hused, firstFit_cons_used _ _ _ hused]
      exact ih
  | free p c cs hfree ih =>
      by_cases hfit : need < c.size + total (freeRun cs)
      · rw [allocate_cons_fit p hfree hfit, firstFit_cons_fit p hfree hfit]
        rfl
      · rw [allocate_cons_small p hfree hfit, firstFit_cons_small p hfree hfit]
        exact ih

theorem mem_spans_place_iff {hdr need run p : Nat} {rest : List Chunk}
    {x : Nat × Chunk} (hneed : need < run) (hx : x.2.free = false) :
    x ∈ spans p (place hdr need run rest) ↔
      x ∈ spans (p + run) rest ∨ x = (p, ⟨false, placedSize hdr need run⟩) := by
  unfold place placedSize
  by_cases hsplit : hdr < run - need
  · have hne : x ≠ (p + need, ⟨true, run - need⟩) := by
      rintro rfl
      simp at hx
    simp only [if_pos hsplit, spans_cons, List.mem_cons, hne, false_or,
      show p + need + (run - need) = p + run by omega]
    exact or_comm
  · simp only [if_neg hsplit, spans_cons, List.mem_cons]
    exact or_comm

/-- The used chunks after an allocation are those before it, at the same
addresses with the same lengths, and the one just made. -/
theorem mem_spans_allocate_iff (hdr need p : Nat) (cs : List Chunk)
    {x : Nat × Chunk} (hx : x.2.free = false) :
    x ∈ spans p (allocate hdr need p cs).2 ↔
      x ∈ spans p cs ∨ ∃ h, firstFit need p cs = some h ∧
        x = (h.1, ⟨false, placedSize hdr need h.2⟩) := by
  induction p, cs using runInduction with
  | nil p => simp [firstFit]
  | used p c cs hused ih =>
      rw [allocate_cons_used _ _ _ _ hused, firstFit_cons_used _ _ _ hused,
        spans_cons, spans_cons, List.mem_cons, List.mem_cons, ih, or_assoc]
  | free p c cs hfree ih =>
      rw [mem_spans_cons_free_iff hfree hx]
      by_cases hfit : need < c.size + total (freeRun cs)
      · rw [allocate_cons_fit p hfree hfit, firstFit_cons_fit p hfree hfit,
          mem_spans_place_iff hfit hx]
        simp
      · have hne : x ≠ (p, ⟨true, c.size + total (freeRun cs)⟩) := by
          rintro rfl
          simp at hx
        rw [allocate_cons_small p hfree hfit, firstFit_cons_small p hfree hfit,
          spans_cons, List.mem_cons, ← ih]
        exact ⟨fun h => h.resolve_left hne, Or.inr⟩

/-- No hole before the one found is long enough, so none that is long enough
starts below it. -/
theorem firstFit_fst_le {need p : Nat} {cs : List Chunk} {h h' : Nat × Nat}
    (hfit : firstFit need p cs = some h) (hmem : h' ∈ holes p cs)
    (hlong : need < h'.2) : h.1 ≤ h'.1 := by
  induction p, cs using runInduction with
  | nil p => simp at hmem
  | used p c cs hused ih =>
      rw [firstFit_cons_used _ _ _ hused] at hfit
      rw [holes_cons_used _ _ hused] at hmem
      exact ih hfit hmem
  | free p c cs hfree ih =>
      have hbounds := mem_holes_bounds p (c :: cs) h' hmem
      by_cases hrun : need < c.size + total (freeRun cs)
      · rw [firstFit_cons_fit p hfree hrun, Option.some.injEq] at hfit
        subst hfit
        exact hbounds.1
      · rw [firstFit_cons_small p hfree hrun] at hfit
        rw [holes_cons_free p cs hfree, List.mem_cons] at hmem
        rcases hmem with rfl | hmem
        · exact absurd hlong hrun
        · exact ih hfit hmem

/-- Allocation makes at most one new boundary, behind the chunk it places. -/
theorem fst_of_mem_spans_allocate (hdr need p : Nat) (cs : List Chunk)
    {x : Nat × Chunk} (hx : x ∈ spans p (allocate hdr need p cs).2) :
    (∃ y ∈ spans p cs, y.1 = x.1) ∨
      ∃ h, firstFit need p cs = some h ∧ x.1 = h.1 + need := by
  induction p, cs using runInduction with
  | nil p => simp at hx
  | used p c cs hused ih =>
      rw [allocate_cons_used _ _ _ _ hused, spans_cons, List.mem_cons] at hx
      rw [firstFit_cons_used _ _ _ hused]
      rcases hx with rfl | hx
      · exact Or.inl ⟨_, List.mem_cons_self, rfl⟩
      · rcases ih hx with ⟨y, hy, hyx⟩ | hnew
        · exact Or.inl ⟨y, List.mem_cons_of_mem _ hy, hyx⟩
        · exact Or.inr hnew
  | free p c cs hfree ih =>
      by_cases hfit : need < c.size + total (freeRun cs)
      · rw [allocate_cons_fit p hfree hfit] at hx
        rw [firstFit_cons_fit p hfree hfit]
        unfold place placedSize at hx
        split at hx
        · rw [spans_cons, spans_cons, List.mem_cons, List.mem_cons] at hx
          rcases hx with rfl | rfl | hx
          · exact Or.inl ⟨_, List.mem_cons_self, rfl⟩
          · exact Or.inr ⟨_, rfl, rfl⟩
          · rw [show p + need + (c.size + total (freeRun cs) - need) =
              p + (c.size + total (freeRun cs)) by omega] at hx
            exact Or.inl ⟨x, spans_cons_afterRun_subset hx, rfl⟩
        · rw [spans_cons, List.mem_cons] at hx
          rcases hx with rfl | hx
          · exact Or.inl ⟨_, List.mem_cons_self, rfl⟩
          · exact Or.inl ⟨x, spans_cons_afterRun_subset hx, rfl⟩
      · rw [allocate_cons_small p hfree hfit, spans_cons, List.mem_cons] at hx
        rw [firstFit_cons_small p hfree hfit]
        rcases hx with rfl | hx
        · exact Or.inl ⟨_, List.mem_cons_self, rfl⟩
        · rcases ih hx with ⟨y, hy, hyx⟩ | hnew
          · exact Or.inl ⟨y, spans_cons_afterRun_subset hy, hyx⟩
          · exact Or.inr hnew

/-! ## A chain that starts with used chunks -/

theorem firstFit_append_used {need p : Nat} {us : List Chunk} (cs : List Chunk)
    (hused : ∀ c ∈ us, c.free = false) :
    firstFit need p (us ++ cs) = firstFit need (p + total us) cs := by
  induction us generalizing p with
  | nil => rfl
  | cons c us ih =>
      have htail := ih (p := p + c.size) fun d hd => hused d (List.mem_cons_of_mem _ hd)
      rw [List.cons_append, firstFit_cons_used _ _ _ (hused c List.mem_cons_self), htail,
        total_cons, Nat.add_assoc]

theorem allocate_append_used {hdr need p : Nat} {us : List Chunk} (cs : List Chunk)
    (hused : ∀ c ∈ us, c.free = false) :
    (allocate hdr need p (us ++ cs)).2 = us ++ (allocate hdr need (p + total us) cs).2 := by
  induction us generalizing p with
  | nil => rfl
  | cons c us ih =>
      have htail := ih (p := p + c.size) fun d hd => hused d (List.mem_cons_of_mem _ hd)
      rw [List.cons_append, allocate_cons_used _ _ _ _ (hused c List.mem_cons_self), htail,
        total_cons, Nat.add_assoc]
      rfl

/-! ## A chain that was only allocated from

Such a chain is a list of used chunks and one free chunk behind them. -/

theorem firstFit_append_free {need n p : Nat} {us : List Chunk}
    (hused : ∀ c ∈ us, c.free = false) (hfit : need < n) :
    firstFit need p (us ++ [⟨true, n⟩]) = some (p + total us, n) := by
  rw [firstFit_append_used _ hused]
  exact firstFit_cons_fit _ rfl hfit

theorem allocate_append_free {hdr need n p : Nat} {us : List Chunk}
    (hused : ∀ c ∈ us, c.free = false) (hfit : need + hdr < n) :
    (allocate hdr need p (us ++ [⟨true, n⟩])).2 =
      us ++ [⟨false, need⟩] ++ [⟨true, n - need⟩] := by
  have hlong : need < (⟨true, n⟩ : Chunk).size + total (freeRun []) := by
    simp only [List.takeWhile_nil, total_nil]
    omega
  have hsplit : hdr < n - need := by omega
  rw [allocate_append_used _ hused, allocate_cons_fit _ rfl hlong]
  simp [place, placedSize, hsplit]

/-! ## Releasing a chunk -/

@[simp] theorem release_nil (a p : Nat) : release a p [] = [] := rfl

@[simp] theorem total_release (a p : Nat) (cs : List Chunk) :
    total (release a p cs) = total cs := by
  induction cs generalizing p with
  | nil => rfl
  | cons c cs ih =>
      rw [release, total_cons, total_cons, ih]
      split <;> rfl

/-- Nothing to release in a chain that starts behind `a`. -/
theorem release_of_lt {a p : Nat} {cs : List Chunk} (h : a < p) : release a p cs = cs := by
  induction cs generalizing p with
  | nil => rfl
  | cons c cs ih =>
      rw [release, if_neg (Nat.ne_of_gt h), ih (Nat.lt_add_right _ h)]

/-- The released chunk between its neighbours. -/
theorem release_of_mem {a p : Nat} {cs : List Chunk} {c : Chunk}
    (hpos : ∀ d ∈ cs, 0 < d.size) (hmem : (a, c) ∈ spans p cs) :
    ∃ us ds, cs = us ++ c :: ds ∧ p + total us = a ∧
      release a p cs = us ++ { c with free := true } :: ds := by
  induction cs generalizing p with
  | nil => cases hmem
  | cons d cs ih =>
      have hdpos := hpos d List.mem_cons_self
      rw [release]
      rcases List.mem_cons.mp hmem with heq | hmem
      · obtain ⟨rfl, rfl⟩ := Prod.mk.inj heq
        refine ⟨[], cs, rfl, rfl, ?_⟩
        rw [if_pos rfl, release_of_lt (Nat.lt_add_of_pos_right hdpos)]
        rfl
      · have hlater := (mem_spans_bounds hmem).1
        obtain ⟨us, ds, rfl, hstart, hreleased⟩ :=
          ih (fun e he => hpos e (List.mem_cons_of_mem d he)) hmem
        refine ⟨d :: us, ds, rfl, ?_, ?_⟩
        · rw [total_cons, ← Nat.add_assoc]
          exact hstart
        · rw [if_neg (by simp only at hlater; omega), hreleased]
          rfl

/-- Releasing changes one free flag and no boundary. -/
theorem spans_release (a p : Nat) (cs : List Chunk) :
    spans p (release a p cs) =
      (spans p cs).map fun x =>
        if x.1 = a then (x.1, { x.2 with free := true }) else x := by
  induction cs generalizing p with
  | nil => rfl
  | cons c cs ih =>
      rw [release]
      by_cases hp : p = a
      · simp only [if_pos hp, spans_cons, List.map_cons, ih]
      · simp only [if_neg hp, spans_cons, List.map_cons, ih]

theorem size_le_of_mem_release {hdr a : Nat} (p : Nat) (cs : List Chunk)
    (hmin : ∀ c ∈ cs, hdr ≤ c.size) : ∀ c ∈ release a p cs, hdr ≤ c.size := by
  induction cs generalizing p with
  | nil => simp
  | cons c cs ih =>
      intro d hd
      rw [release] at hd
      rcases List.mem_cons.mp hd with rfl | hd
      · have := hmin c List.mem_cons_self
        split <;> exact this
      · exact ih (p + c.size) (fun e he => hmin e (List.mem_cons_of_mem _ he)) d hd

/-- The used chunks after a release are those before it, the one at `a`
excepted. -/
theorem mem_spans_release_iff {a p : Nat} {cs : List Chunk} {x : Nat × Chunk}
    (hx : x.2.free = false) :
    x ∈ spans p (release a p cs) ↔ x ∈ spans p cs ∧ x.1 ≠ a := by
  rw [spans_release, List.mem_map]
  constructor
  · rintro ⟨y, hy, rfl⟩
    by_cases hya : y.1 = a
    · simp [hya] at hx
    · simp only [if_neg hya] at hx ⊢
      exact ⟨hy, hya⟩
  · rintro ⟨hmem, hne⟩
    exact ⟨x, hmem, if_neg hne⟩

/-- The headers of the released chain: the old ones, with the flag of the chunk
at `a` set. -/
theorem Tiles.release {hdr hdr' : Nat → Chunk} {a p q : Nat} {cs : List Chunk}
    (h : Tiles hdr p cs q)
    (hset : hdr' a = { hdr a with free := true })
    (hsame : ∀ x ∈ spans p cs, x.1 ≠ a → hdr' x.1 = hdr x.1) :
    Tiles hdr' p (release a p cs) q := by
  induction cs generalizing p with
  | nil => exact h
  | cons c cs ih =>
      have hrest := ih h.2 fun x hx => hsame x (List.mem_cons_of_mem _ hx)
      by_cases hp : p = a
      · refine ⟨?_, ?_⟩
        · rw [if_pos hp, hp, hset, ← hp, h.1]
        · rw [if_pos hp]
          exact hrest
      · refine ⟨?_, ?_⟩
        · rw [if_neg hp]
          exact (hsame (p, c) List.mem_cons_self hp).trans h.1
        · rw [if_neg hp]
          exact hrest

/-! ## The length of the used chunks -/

/-- The summed length of the used chunks. -/
def usedTotal : List Chunk → Nat
  | [] => 0
  | c :: cs => (if c.free then 0 else c.size) + usedTotal cs

@[simp] theorem usedTotal_nil : usedTotal [] = 0 := rfl

theorem usedTotal_cons_used {c : Chunk} (cs : List Chunk) (h : c.free = false) :
    usedTotal (c :: cs) = c.size + usedTotal cs := by
  rw [usedTotal, h]
  rfl

theorem usedTotal_cons_free {c : Chunk} (cs : List Chunk) (h : c.free = true) :
    usedTotal (c :: cs) = usedTotal cs := by
  rw [usedTotal, h]
  exact Nat.zero_add _

theorem usedTotal_le_total (cs : List Chunk) : usedTotal cs ≤ total cs := by
  induction cs with
  | nil => exact Nat.le_refl 0
  | cons c cs ih =>
      rw [usedTotal, total_cons]
      split <;> omega

theorem usedTotal_append (cs ds : List Chunk) :
    usedTotal (cs ++ ds) = usedTotal cs + usedTotal ds := by
  induction cs with
  | nil => exact (Nat.zero_add _).symm
  | cons c cs ih => rw [List.cons_append, usedTotal, usedTotal, ih, Nat.add_assoc]

theorem usedTotal_append_free {us : List Chunk} (hused : ∀ c ∈ us, c.free = false) (n : Nat) :
    usedTotal (us ++ [⟨true, n⟩]) = total us := by
  induction us with
  | nil => rfl
  | cons c us ih =>
      rw [List.cons_append, usedTotal_cons_used _ (hused c List.mem_cons_self), total_cons,
        ih fun d hd => hused d (List.mem_cons_of_mem _ hd)]

theorem usedTotal_afterRun (cs : List Chunk) : usedTotal (afterRun cs) = usedTotal cs := by
  induction cs with
  | nil => rfl
  | cons c cs ih =>
      cases hfree : c.free with
      | true => rw [afterRun, List.dropWhile_cons_of_pos hfree, usedTotal_cons_free _ hfree, ih]
      | false => rw [afterRun, List.dropWhile_cons_of_neg (by simp [hfree])]

/-- A chunk in use counts. -/
theorem size_le_usedTotal {p : Nat} {cs : List Chunk} {x : Nat × Chunk}
    (hx : x ∈ spans p cs) (hused : x.2.free = false) : x.2.size ≤ usedTotal cs := by
  induction cs generalizing p with
  | nil => cases hx
  | cons c cs ih =>
      rcases List.mem_cons.mp hx with rfl | hx
      · rw [usedTotal_cons_used _ hused]
        exact Nat.le_add_right _ _
      · exact Nat.le_trans (ih hx) (by rw [usedTotal]; exact Nat.le_add_left _ _)

theorem usedTotal_eq_zero {p : Nat} {cs : List Chunk}
    (h : ∀ x ∈ spans p cs, x.2.free = true) : usedTotal cs = 0 := by
  induction cs generalizing p with
  | nil => rfl
  | cons c cs ih =>
      rw [usedTotal_cons_free _ (h (p, c) List.mem_cons_self)]
      exact ih fun x hx => h x (List.mem_cons_of_mem _ hx)

theorem usedTotal_place {hdr need run : Nat} (rest : List Chunk) :
    usedTotal (place hdr need run rest) = placedSize hdr need run + usedTotal rest := by
  unfold place
  rw [usedTotal_cons_used _ rfl]
  split
  · rw [usedTotal_cons_free _ rfl]
  · rfl

/-- Allocation adds the length of the chunk it places. -/
theorem usedTotal_allocate (hdr need p : Nat) (cs : List Chunk) :
    usedTotal (allocate hdr need p cs).2 = usedTotal cs +
      ((firstFit need p cs).map fun h => placedSize hdr need h.2).getD 0 := by
  induction p, cs using runInduction with
  | nil p => simp [firstFit]
  | used p c cs hused ih =>
      rw [allocate_cons_used _ _ _ _ hused, firstFit_cons_used _ _ _ hused,
        usedTotal_cons_used _ hused, usedTotal_cons_used _ hused, ih, Nat.add_assoc]
  | free p c cs hfree ih =>
      rw [usedTotal_cons_free _ hfree, ← usedTotal_afterRun cs]
      by_cases hfit : need < c.size + total (freeRun cs)
      · rw [allocate_cons_fit p hfree hfit, firstFit_cons_fit p hfree hfit, usedTotal_place]
        exact Nat.add_comm _ _
      · rw [allocate_cons_small p hfree hfit, firstFit_cons_small p hfree hfit,
          usedTotal_cons_free _ rfl, ih]

/-- Releasing a used chunk takes its length off. -/
theorem usedTotal_release {a p : Nat} {cs : List Chunk} {c : Chunk}
    (hpos : ∀ d ∈ cs, 0 < d.size) (hmem : (a, c) ∈ spans p cs) (hused : c.free = false) :
    usedTotal (release a p cs) + c.size = usedTotal cs := by
  obtain ⟨us, ds, rfl, -, hreleased⟩ := release_of_mem hpos hmem
  rw [hreleased, usedTotal_append, usedTotal_append, usedTotal_cons_free ds rfl,
    usedTotal_cons_used ds hused]
  omega

end DonutOS.Foundation
