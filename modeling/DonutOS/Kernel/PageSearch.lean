import DonutOS.Kernel.PagingRuns

set_option autoImplicit false

/-!
# Kernel: the search of `alloc_pages` (`kernel/src/paging.c`)

Where memory has `n` free pages in a row, `alloc_pages` answers with the lowest such
run.  It tests the last page of a candidate before it knows that the candidate ends
inside memory, so where there is no such run it may look behind the bitmap.
-/

namespace DonutOS.Kernel

open DonutOS.Foundation

/-! ## Free runs -/

/-- The `n` pages from `i` on belong to the allocator, and none is marked. -/
structure FreeRun (bm : PageBitmap) (n i : Nat) : Prop where
  ge : initIdx ≤ i
  le : i + n ≤ totalPages
  free : ∀ k, i ≤ k → k < i + n → marked bm k = false

theorem totalPages_lt : totalPages < 2 ^ 32 := by decide

variable {bm : PageBitmap} {n i : Nat}

/-- Where a candidate ends inside memory, the test is exact. -/
theorem acceptsRun_iff_freeRun (hn : 1 ≤ n) (hge : initIdx ≤ i) (hle : i + n ≤ totalPages) :
    acceptsRun n bm i = true ↔ FreeRun bm n i := by
  have hwrap : i + n < 2 ^ 32 := Nat.lt_of_le_of_lt hle totalPages_lt
  rw [acceptsRun_iff hn (by omega) hwrap]
  constructor
  · rintro ⟨-, hall⟩
    exact ⟨hge, hle, fun k hlo hhi => hall k hlo hhi (Nat.lt_of_lt_of_le hhi hle)⟩
  · intro hrun
    exact ⟨hrun.free _ (by omega) (by omega), fun k hlo hhi _ => hrun.free k hlo hhi⟩

theorem FreeRun.accepted (h : FreeRun bm n i) (hn : 1 ≤ n) : acceptsRun n bm i = true :=
  (acceptsRun_iff_freeRun hn h.ge h.le).mpr h

/-- The lowest free run is the first index that passes the test. -/
theorem exists_lowest_run (hn : 1 ≤ n) (hrun : ∃ r, FreeRun bm n r) :
    ∃ i, IsFirst (acceptsRun n bm) initIdx totalPages i ∧ FreeRun bm n i ∧
      ∀ r, FreeRun bm n r → i ≤ r := by
  obtain ⟨r, hr⟩ := hrun
  have hlt : r < totalPages := Nat.lt_of_lt_of_le (Nat.lt_add_of_pos_right hn) hr.le
  cases hfind : findUp (acceptsRun n bm) (totalPages - initIdx) initIdx with
  | none =>
      rw [findUp_eq_none_iff, initIdx_le_totalPages] at hfind
      have hnot := hfind r hr.ge hlt
      rw [hr.accepted hn] at hnot
      exact Bool.noConfusion hnot
  | some i =>
      rw [findUp_eq_some_iff, initIdx_le_totalPages] at hfind
      have hlowest : ∀ r, FreeRun bm n r → i ≤ r := by
        intro r hr
        by_contra hlt
        have hnot := hfind.fail_below r hr.ge (Nat.lt_of_not_le hlt)
        rw [hr.accepted hn] at hnot
        exact Bool.noConfusion hnot
      have hend : i + n ≤ totalPages := Nat.le_trans (Nat.add_le_add_right (hlowest r hr) n) hr.le
      exact ⟨i, hfind, (acceptsRun_iff_freeRun hn hfind.ge hend).mp hfind.pass, hlowest⟩

theorem allocPages_of_isFirst (h : IsFirst (acceptsRun n bm) initIdx totalPages i) :
    allocPages n bm = (some (i * pageSize), allocRange bm i ((i + n) % 2 ^ 32)) := by
  rw [← initIdx_le_totalPages, ← findUp_eq_some_iff] at h
  rw [allocPages, allocPagesLoop_eq, h]
  simp only [Nat.shiftLeft_eq]
  rfl

/-- With `n` free pages in a row, `alloc_pages` takes the lowest such run and marks
its pages. -/
theorem allocPages_of_freeRun (hn : 1 ≤ n) (hrun : ∃ r, FreeRun bm n r) :
    ∃ i bm', allocPages n bm = (some (i * pageSize), bm') ∧ FreeRun bm n i ∧
      (∀ r, FreeRun bm n r → i ≤ r) ∧
      ∀ k, marked bm' k = (marked bm k || decide (i ≤ k ∧ k < i + n)) := by
  obtain ⟨i, hfirst, hi, hlowest⟩ := exists_lowest_run hn hrun
  refine ⟨i, _, allocPages_of_isFirst hfirst, hi, hlowest, fun k => ?_⟩
  rw [Nat.mod_eq_of_lt (Nat.lt_of_le_of_lt hi.le totalPages_lt)]
  exact marked_allocRange bm k (Nat.le_add_right i n)

/-! ## One page -/

/-- For one page the test looks at that page only. -/
theorem acceptsRun_one (hi : i < totalPages) : acceptsRun 1 bm i = isPageFree bm i := by
  rw [Bool.eq_iff_iff,
    acceptsRun_iff (Nat.le_refl 1) hi (Nat.lt_of_le_of_lt hi totalPages_lt), isPageFree_iff]
  constructor
  · exact And.left
  · intro hfree
    refine ⟨hfree, fun k hlo hhi _ => ?_⟩
    rw [Nat.le_antisymm (Nat.le_of_lt_succ hhi) hlo]
    exact hfree

theorem allocRange_one (bm : PageBitmap) (i : Nat) :
    allocRange bm i (i + 1) = rawAllocPage bm i := by
  rw [allocRange, Nat.add_sub_cancel_left]
  rfl

/-- `alloc_pages(1)` searches as `alloc_page` does. -/
theorem allocPagesLoop_one (bm : PageBitmap) (count i : Nat) (hend : i + count ≤ totalPages) :
    allocPagesLoop 1 bm count i = allocPageLoop bm count i := by
  induction count generalizing i with
  | zero => rfl
  | succ count ih =>
      have hi : i < totalPages := by omega
      rw [allocPagesLoop, allocPageLoop, acceptsRun_one hi,
        Nat.mod_eq_of_lt (Nat.lt_of_le_of_lt hi totalPages_lt), allocRange_one]
      split
      · rfl
      · exact ih (i + 1) (by omega)

theorem allocPages_one (bm : PageBitmap) : allocPages 1 bm = allocPage bm :=
  allocPagesLoop_one bm _ initIdx (Nat.le_of_eq initIdx_le_totalPages)

/-- `alloc_pages` answers with the lowest run of free pages there is and marks
exactly that run, and `alloc_pages(1)` is `alloc_page`. -/
theorem allocPages_lowest :
    (∀ (bm : PageBitmap) (n : Nat), 1 ≤ n → (∃ r, FreeRun bm n r) →
      ∃ i bm', allocPages n bm = (some (i * pageSize), bm') ∧ FreeRun bm n i ∧
        (∀ r, FreeRun bm n r → i ≤ r) ∧
        ∀ k, marked bm' k = (marked bm k || decide (i ≤ k ∧ k < i + n))) ∧
      ∀ bm : PageBitmap, allocPages 1 bm = allocPage bm :=
  ⟨fun _ _ hn hrun => allocPages_of_freeRun hn hrun, allocPages_one⟩

/-- The third page above `init_idx` is taken. -/
def takenThird : PageBitmap := rawAllocPage (fun _ => 0#32) (initIdx + 2)

theorem marked_takenThird (k : Nat) : marked takenThird k = decide (k = initIdx + 2) := by
  have hzero : marked (fun _ => 0#32) k = false := BitVec.getLsbD_zero
  rw [takenThird, marked_rawAllocPage, hzero, Bool.false_or]

/-- The two pages in front of it are too few for three, so the run behind it is taken. -/
theorem allocPages_lowest_three : ∃ bm',
    allocPages 3 takenThird = (some ((initIdx + 3) * pageSize), bm') ∧
      ∀ k, marked bm' k =
        (marked takenThird k || decide (initIdx + 3 ≤ k ∧ k < initIdx + 3 + 3)) := by
  have hbehind : FreeRun takenThird 3 (initIdx + 3) := by
    refine ⟨Nat.le_add_right _ _, by decide, fun k hlo _ => ?_⟩
    rw [marked_takenThird, decide_eq_false_iff_not]
    omega
  obtain ⟨i, bm', hcall, hrun, hlowest, hbits⟩ :=
    allocPages_lowest.1 takenThird 3 (by decide) ⟨_, hbehind⟩
  have hi : i = initIdx + 3 := by
    have hle := hlowest _ hbehind
    obtain ⟨hge, -, hfree⟩ := hrun
    by_contra hne
    have htaken := hfree (initIdx + 2) (by omega) (by omega)
    rw [marked_takenThird, decide_eq_false_iff_not] at htaken
    exact htaken rfl
  rw [hi] at hcall hbits
  exact ⟨bm', hcall, hbits⟩

/-! ## The bits that the search touches

Copies of the loops of `alloc_pages` that also list the pages whose bits they read
or write, in order. -/

/-- `restIsFree`, and the pages it reads. -/
def restIsFreeBits (bm : PageBitmap) (stop : Nat) : Nat → Nat → Bool × List Nat
  | 0, _ => (true, [])
  | count + 1, j =>
      if j < totalPages ∧ j < stop then
        if isPageFree bm j then
          let r := restIsFreeBits bm stop count (j + 1)
          (r.1, j :: r.2)
        else (false, [j])
      else (true, [])

/-- The last page of the candidate at `i`, in 32 bits. -/
def lastPage (n i : Nat) : Nat := (i + n + (2 ^ 32 - 1)) % 2 ^ 32

/-- `acceptsRun`, and the pages it reads: `&&` does not read the last page when the
first is taken. -/
def acceptsRunBits (n : Nat) (bm : PageBitmap) (i : Nat) : Bool × List Nat :=
  if isPageFree bm i then
    if isPageFree bm (lastPage n i) then
      let r := restIsFreeBits bm ((i + n) % 2 ^ 32) totalPages (i + 1)
      (r.1, i :: lastPage n i :: r.2)
    else (false, [i, lastPage n i])
  else (false, [i])

/-- `allocPagesLoop`, and the pages it reads or marks. -/
def allocPagesLoopBits (n : Nat) (bm : PageBitmap) :
    Nat → Nat → (Option Nat × PageBitmap) × List Nat
  | 0, _ => ((none, bm), [])
  | count + 1, i =>
      let test := acceptsRunBits n bm i
      let stop := (i + n) % 2 ^ 32
      if test.1 then
        ((some (i <<< 12), allocRange bm i stop), test.2 ++ List.range' i (stop - i))
      else
        let r := allocPagesLoopBits n bm count (i + 1)
        (r.1, test.2 ++ r.2)

/-- `allocPages`, and the pages whose bits it touches. -/
def allocPagesBits (n : Nat) (bm : PageBitmap) : (Option Nat × PageBitmap) × List Nat :=
  allocPagesLoopBits n bm (totalPages - initIdx) initIdx

theorem restIsFreeBits_fst (bm : PageBitmap) (stop count j : Nat) :
    (restIsFreeBits bm stop count j).1 = restIsFree bm stop count j := by
  induction count generalizing j with
  | zero => rfl
  | succ count ih =>
      rw [restIsFreeBits, restIsFree]
      split
      · split
        · exact ih (j + 1)
        · rfl
      · rfl

theorem acceptsRunBits_fst (n : Nat) (bm : PageBitmap) (i : Nat) :
    (acceptsRunBits n bm i).1 = acceptsRun n bm i := by
  rw [acceptsRunBits, acceptsRun, ← lastPage]
  cases isPageFree bm i with
  | false => rfl
  | true =>
      cases isPageFree bm (lastPage n i) with
      | false => rfl
      | true => exact restIsFreeBits_fst bm _ totalPages (i + 1)

theorem allocPagesLoopBits_fst (n : Nat) (bm : PageBitmap) (count i : Nat) :
    (allocPagesLoopBits n bm count i).1 = allocPagesLoop n bm count i := by
  induction count generalizing i with
  | zero => rfl
  | succ count ih =>
      rw [allocPagesLoopBits, allocPagesLoop]
      simp only [acceptsRunBits_fst]
      split
      · rfl
      · exact ih (i + 1)

/-- The copy computes what `alloc_pages` does. -/
theorem allocPagesBits_fst (n : Nat) (bm : PageBitmap) :
    (allocPagesBits n bm).1 = allocPages n bm :=
  allocPagesLoopBits_fst n bm _ initIdx

theorem lt_of_mem_restIsFreeBits {stop count j b : Nat}
    (hb : b ∈ (restIsFreeBits bm stop count j).2) : b < totalPages := by
  induction count generalizing j with
  | zero => exact absurd hb List.not_mem_nil
  | succ count ih =>
      rw [restIsFreeBits] at hb
      split at hb
      · next hin =>
          split at hb
          · rcases List.mem_cons.mp hb with rfl | hb
            · exact hin.1
            · exact ih hb
          · rw [List.mem_singleton.mp hb]
            exact hin.1
      · exact absurd hb List.not_mem_nil

theorem acceptsRunBits_of_marked (hfree : isPageFree bm i = false) :
    acceptsRunBits n bm i = (false, [i]) :=
  if_neg fun htrue => Bool.noConfusion (hfree.symm.trans htrue)

theorem acceptsRunBits_of_free (hfree : isPageFree bm i = true) :
    acceptsRunBits n bm i =
      if isPageFree bm (lastPage n i) then
        ((restIsFreeBits bm ((i + n) % 2 ^ 32) totalPages (i + 1)).1,
          i :: lastPage n i :: (restIsFreeBits bm ((i + n) % 2 ^ 32) totalPages (i + 1)).2)
      else (false, [i, lastPage n i]) :=
  if_pos hfree

/-- The test reads pages of memory, and the last page of the candidate. -/
theorem mem_acceptsRunBits {b : Nat} (hi : i < totalPages)
    (hb : b ∈ (acceptsRunBits n bm i).2) :
    b < totalPages ∨ (marked bm i = false ∧ b = lastPage n i) := by
  cases hfree : isPageFree bm i with
  | false =>
      rw [acceptsRunBits_of_marked hfree] at hb
      exact Or.inl (List.mem_singleton.mp hb ▸ hi)
  | true =>
      rw [acceptsRunBits_of_free hfree] at hb
      have hmark := isPageFree_iff.mp hfree
      split at hb
      · rcases List.mem_cons.mp hb with rfl | hb
        · exact Or.inl hi
        · rcases List.mem_cons.mp hb with hb | hb
          · exact Or.inr ⟨hmark, hb⟩
          · exact Or.inl (lt_of_mem_restIsFreeBits hb)
      · rcases List.mem_cons.mp hb with rfl | hb
        · exact Or.inl hi
        · exact Or.inr ⟨hmark, List.mem_singleton.mp hb⟩

/-- The last page of a candidate whose first page is free is read. -/
theorem last_mem_acceptsRunBits (hfree : marked bm i = false) :
    lastPage n i ∈ (acceptsRunBits n bm i).2 := by
  rw [acceptsRunBits_of_free (isPageFree_iff.mpr hfree)]
  split
  · exact List.mem_cons_of_mem _ List.mem_cons_self
  · exact List.mem_cons_of_mem _ List.mem_cons_self

/-- A search that fails tests every index. -/
theorem mem_allocPagesLoopBits_of_none {count b : Nat}
    (hnone : findUp (acceptsRun n bm) count i = none) :
    b ∈ (allocPagesLoopBits n bm count i).2 ↔
      ∃ j, i ≤ j ∧ j < i + count ∧ b ∈ (acceptsRunBits n bm j).2 := by
  induction count generalizing i with
  | zero =>
      constructor
      · exact fun hb => absurd hb List.not_mem_nil
      · rintro ⟨j, hlo, hhi, -⟩
        omega
  | succ count ih =>
      rw [findUp] at hnone
      cases htest : acceptsRun n bm i with
      | true => simp [htest] at hnone
      | false =>
          simp only [htest, Bool.false_eq_true, if_false] at hnone
          rw [allocPagesLoopBits]
          simp only [acceptsRunBits_fst, htest, Bool.false_eq_true, if_false]
          rw [List.mem_append, ih hnone]
          constructor
          · rintro (hb | ⟨j, hlo, hhi, hb⟩)
            · exact ⟨i, Nat.le_refl i, by omega, hb⟩
            · exact ⟨j, by omega, by omega, hb⟩
          · rintro ⟨j, hlo, hhi, hb⟩
            rcases Nat.eq_or_lt_of_le hlo with rfl | hlo
            · exact Or.inl hb
            · exact Or.inr ⟨j, hlo, by omega, hb⟩

/-- A search that succeeds tests the indices up to the one it takes, and marks that
run. -/
theorem mem_allocPagesLoopBits_of_some {count p b : Nat}
    (hsome : findUp (acceptsRun n bm) count i = some p)
    (hb : b ∈ (allocPagesLoopBits n bm count i).2) :
    (∃ j, i ≤ j ∧ j ≤ p ∧ b ∈ (acceptsRunBits n bm j).2) ∨
      (p ≤ b ∧ b < (p + n) % 2 ^ 32) := by
  induction count generalizing i with
  | zero => simp [findUp] at hsome
  | succ count ih =>
      rw [findUp] at hsome
      rw [allocPagesLoopBits] at hb
      cases htest : acceptsRun n bm i with
      | true =>
          simp only [htest, if_true] at hsome
          obtain rfl := Option.some.inj hsome
          simp only [acceptsRunBits_fst, htest, if_true] at hb
          rcases List.mem_append.mp hb with hb | hb
          · exact Or.inl ⟨i, Nat.le_refl i, Nat.le_refl i, hb⟩
          · rw [List.mem_range'_1] at hb
            exact Or.inr ⟨hb.1, by omega⟩
      | false =>
          simp only [htest, Bool.false_eq_true, if_false] at hsome
          simp only [acceptsRunBits_fst, htest, Bool.false_eq_true, if_false] at hb
          have hp := (findUp_eq_some_iff.mp hsome).ge
          rcases List.mem_append.mp hb with hb | hb
          · exact Or.inl ⟨i, Nat.le_refl i, by omega, hb⟩
          · rcases ih hsome hb with ⟨j, hlo, hhi, hb⟩ | hmark
            · exact Or.inl ⟨j, by omega, hhi, hb⟩
            · exact Or.inr hmark

/-! ## When the search stays inside the bitmap -/

/-- What a caller of `alloc_pages(n)` may expect: the call touches words of the array
only, answers `NULL` and changes nothing when no `n` free pages are in a row, and
hands out pages of memory only. -/
structure AllocPagesKeeps (n : Nat) (bm : PageBitmap) : Prop where
  inArray : ∀ b ∈ (allocPagesBits n bm).2, b >>> 5 < totalPages / 32
  null : (¬ ∃ i, FreeRun bm n i) → allocPages n bm = (none, bm)
  below : ∀ page bm', allocPages n bm = (some page, bm') →
    page + n * pageSize ≤ totalMemorySize

/-- The candidate at `i` ends inside memory, or its end wraps round to a page that is
marked. -/
def EndsInside (n : Nat) (bm : PageBitmap) (i : Nat) : Prop :=
  i + n ≤ totalPages ∨ (2 ^ 32 < i + n ∧ marked bm (i + n - 1 - 2 ^ 32) = true)

theorem totalPages_eq : totalPages = 32768 := by decide

theorem totalMemorySize_eq : totalMemorySize = totalPages * pageSize := by decide

theorem shiftRight_lt_iff {b : Nat} : b >>> 5 < totalPages / 32 ↔ b < totalPages := by
  rw [shiftRight_five, totalPages_eq]
  omega

theorem lastPage_of_le (hn : 1 ≤ n) (hle : i + n ≤ 2 ^ 32) : lastPage n i = i + n - 1 := by
  unfold lastPage
  omega

theorem lastPage_of_wrap (hlt : n < 2 ^ 32) (hi : i < totalPages) (hwrap : 2 ^ 32 < i + n) :
    lastPage n i = i + n - 1 - 2 ^ 32 := by
  rw [totalPages_eq] at hi
  unfold lastPage
  omega

/-- A candidate whose end wraps round is accepted for its two end pages. -/
theorem acceptsRun_of_wrap (hlt : n < 2 ^ 32) (hi : i < totalPages) (hwrap : 2 ^ 32 < i + n)
    (hfree : marked bm i = false) (hlast : marked bm (i + n - 1 - 2 ^ 32) = false) :
    acceptsRun n bm i = true := by
  rw [acceptsRun, ← lastPage, lastPage_of_wrap hlt hi hwrap, isPageFree_iff.mpr hfree,
    isPageFree_iff.mpr hlast, Bool.true_and, Bool.true_and, restIsFree_iff]
  intro k hlo _ _ hstop
  rw [totalPages_eq] at hi
  omega

/-- Without a free run, the test accepts no candidate that ends inside. -/
theorem acceptsRun_of_endsInside (hn : 1 ≤ n) (hlt : n < 2 ^ 32)
    (hnone : ¬ ∃ r, FreeRun bm n r) (hge : initIdx ≤ i) (hi : i < totalPages)
    (hends : marked bm i = false → EndsInside n bm i) : acceptsRun n bm i = false := by
  rw [← Bool.not_eq_true]
  intro haccept
  rcases hends (marked_of_acceptsRun haccept) with hle | ⟨hwrap, hmarked⟩
  · exact hnone ⟨i, (acceptsRun_iff_freeRun hn hge hle).mp haccept⟩
  · rw [acceptsRun, ← lastPage, lastPage_of_wrap hlt hi hwrap, Bool.and_eq_true,
      Bool.and_eq_true, isPageFree_iff (i := i + n - 1 - 2 ^ 32), hmarked] at haccept
    exact Bool.noConfusion haccept.1.2

theorem EndsInside.lastPage_lt (h : EndsInside n bm i) (hn : 1 ≤ n) (hlt : n < 2 ^ 32)
    (hi : i < totalPages) : lastPage n i < totalPages := by
  rcases h with hle | ⟨hwrap, -⟩
  · rw [lastPage_of_le hn (Nat.le_trans hle (Nat.le_of_lt totalPages_lt))]
    omega
  · rw [lastPage_of_wrap hlt hi hwrap]
    omega

/-- A call that keeps to its contract without finding a run saw no candidate that
ends outside. -/
theorem AllocPagesKeeps.endsInside (h : AllocPagesKeeps n bm) (hn : 1 ≤ n) (hlt : n < 2 ^ 32)
    (hnone : ¬ ∃ r, FreeRun bm n r) (hge : initIdx ≤ i) (hi : i < totalPages)
    (hfree : marked bm i = false) : EndsInside n bm i := by
  have hfind : findUp (acceptsRun n bm) (totalPages - initIdx) initIdx = none := by
    have hcall := h.null hnone
    rw [allocPages, allocPagesLoop_eq] at hcall
    cases hfind : findUp (acceptsRun n bm) (totalPages - initIdx) initIdx with
    | none => rfl
    | some p => simp [hfind] at hcall
  have hrange : i < initIdx + (totalPages - initIdx) := initIdx_le_totalPages.symm ▸ hi
  have hread : lastPage n i ∈ (allocPagesBits n bm).2 :=
    (mem_allocPagesLoopBits_of_none hfind).mpr ⟨i, hge, hrange, last_mem_acceptsRunBits hfree⟩
  have hlast := shiftRight_lt_iff.mp (h.inArray _ hread)
  by_contra hout
  unfold EndsInside at hout
  rw [not_or, not_and] at hout
  rcases Nat.lt_or_ge (2 ^ 32) (i + n) with hwrap | hle
  · have hunmarked := Bool.eq_false_iff.mpr (hout.2 hwrap)
    have htest := findUp_eq_none_iff.mp hfind i hge hrange
    rw [acceptsRun_of_wrap hlt hi hwrap hfree hunmarked] at htest
    exact Bool.noConfusion htest
  · rw [lastPage_of_le hn hle] at hlast
    omega

/-- A call that finds a run keeps to its contract. -/
theorem allocPagesKeeps_of_freeRun (hn : 1 ≤ n) (hrun : ∃ r, FreeRun bm n r) :
    AllocPagesKeeps n bm := by
  obtain ⟨p, hfirst, hp, -⟩ := exists_lowest_run hn hrun
  have hcall := allocPages_of_isFirst hfirst
  have hend := hp.le
  rw [← initIdx_le_totalPages, ← findUp_eq_some_iff] at hfirst
  refine ⟨fun b hb => ?_, fun hnone => absurd hrun hnone, fun page bm' heq => ?_⟩
  · rw [allocPagesBits] at hb
    rw [shiftRight_lt_iff]
    rcases mem_allocPagesLoopBits_of_some hfirst hb with ⟨j, -, hj, hb⟩ | ⟨-, hb⟩
    · rcases mem_acceptsRunBits (by omega) hb with hb | ⟨-, hb⟩
      · exact hb
      · have hlt := totalPages_lt
        rw [hb, lastPage_of_le hn (by omega)]
        omega
    · rw [Nat.mod_eq_of_lt (Nat.lt_of_le_of_lt hend totalPages_lt)] at hb
      exact Nat.lt_of_lt_of_le hb hend
  · rw [hcall, Prod.mk.injEq, Option.some.injEq] at heq
    rw [← heq.1, ← Nat.add_mul, totalMemorySize_eq]
    exact Nat.mul_le_mul_right pageSize hend

/-- A call that finds none keeps to its contract when no candidate ends outside. -/
theorem allocPagesKeeps_of_endsInside (hn : 1 ≤ n) (hlt : n < 2 ^ 32)
    (hnone : ¬ ∃ r, FreeRun bm n r)
    (hends : ∀ i, initIdx ≤ i → i < totalPages → marked bm i = false → EndsInside n bm i) :
    AllocPagesKeeps n bm := by
  have hfind : findUp (acceptsRun n bm) (totalPages - initIdx) initIdx = none := by
    rw [findUp_eq_none_iff, initIdx_le_totalPages]
    intro i hge hi
    exact acceptsRun_of_endsInside hn hlt hnone hge hi (hends i hge hi)
  have hcall : allocPages n bm = (none, bm) := by
    rw [allocPages, allocPagesLoop_eq, hfind]
  refine ⟨fun b hb => ?_, fun _ => hcall, fun page bm' heq => ?_⟩
  · rw [allocPagesBits] at hb
    obtain ⟨j, hge, hj, hb⟩ := (mem_allocPagesLoopBits_of_none hfind).mp hb
    rw [initIdx_le_totalPages] at hj
    rw [shiftRight_lt_iff]
    rcases mem_acceptsRunBits hj hb with hb | ⟨hfree, hb⟩
    · exact hb
    · rw [hb]
      exact (hends j hge hj hfree).lastPage_lt hn hlt hj
  · rw [hcall] at heq
    cases heq

/-- `alloc_pages(n)` keeps to its contract just when there is a free run, or every
free page has its candidate end inside memory or wrap round to a marked page. -/
theorem allocPagesKeeps_iff (hn : 1 ≤ n) (hlt : n < 2 ^ 32) :
    AllocPagesKeeps n bm ↔ (∃ r, FreeRun bm n r) ∨
      ∀ i, initIdx ≤ i → i < totalPages → marked bm i = false → EndsInside n bm i := by
  by_cases hrun : ∃ r, FreeRun bm n r
  · exact ⟨fun _ => Or.inl hrun, fun _ => allocPagesKeeps_of_freeRun hn hrun⟩
  · constructor
    · intro h
      exact Or.inr fun i hge hi hfree => h.endsInside hn hlt hrun hge hi hfree
    · intro h
      exact allocPagesKeeps_of_endsInside hn hlt hrun (h.resolve_left hrun)

theorem allocPagesKeeps_iff_one :
    AllocPagesKeeps 1 (fun _ => 0#32) ↔ (∃ r, FreeRun (fun _ => 0#32) 1 r) ∨
      ∀ i, initIdx ≤ i → i < totalPages → marked (fun _ => 0#32) i = false →
        EndsInside 1 (fun _ => 0#32) i :=
  allocPagesKeeps_iff (by decide) (by decide)

/-- Right after `paging_init` on cleared memory, a request for one page more than there
are reads behind the bitmap. -/
theorem not_allocPagesKeeps_fresh :
    ¬ ∀ (s : PageState) (path : List (PagerCall × PagerState)),
      IsPath PagerStep (pagerStart s) path → ∀ n, 1 ≤ n → n < 2 ^ 32 →
        AllocPagesKeeps n (endState (pagerStart s) path).pages.pageBitmap := by
  intro hall
  let s : PageState := ⟨fun _ => 0, fun _ => 0#32, 0, 0⟩
  have hkeeps := hall s [] trivial (totalPages - initIdx + 1) (by decide) (by decide)
  have hnone : ¬ ∃ r, FreeRun (pagerStart s).pages.pageBitmap (totalPages - initIdx + 1) r := by
    rintro ⟨r, hge, hle, -⟩
    have hinit := initIdx_lt_totalPages
    omega
  have hfree : marked (pagerStart s).pages.pageBitmap initIdx = false := by
    rw [pagerStart_pageBitmap, marked_pagingSetup_of_zero (fun _ _ => rfl) initIdx_lt_totalPages]
    exact decide_eq_false (Nat.lt_irrefl initIdx)
  have hends := hkeeps.endsInside (by decide) (by decide) hnone (Nat.le_refl initIdx)
    initIdx_lt_totalPages hfree
  rcases hends with hle | ⟨hwrap, -⟩
  · exact absurd hle (by decide)
  · exact absurd hwrap (by decide)

end DonutOS.Kernel
