import DonutOS.Kernel.PagingRuns

set_option autoImplicit false

/-!
# Kernel: the bitmap and the regions handed out

`page_bitmap` records no owner.  The invariant here says that nevertheless the
marked pages are those of the live regions, and that no page is in two of them,
as long as no request is so long that its index sum wraps around.
-/

namespace DonutOS.Kernel

open DonutOS.Foundation

/-- Steps of clients that ask `alloc_pages` for at least one page. -/
def PositiveStep (s : PagerState) (call : PagerCall) (t : PagerState) : Prop :=
  PagerStep s call t ∧ call ≠ .allocPages 0

/-- The bitmap tells who holds what: a page is marked when exactly one live
region holds it, no page is in two, and the reserved pages are marked. -/
structure BitmapOwned (s : PagerState) : Prop where
  exact : ∀ i, initIdx ≤ i → i < totalPages →
    (marked s.pages.pageBitmap i = true ↔
      (s.live.filter fun r => r.Holds i).length = 1)
  apart : s.live.Pairwise Region.Apart
  low : ∀ i, i < initIdx → marked s.pages.pageBitmap i = true

/-- The condition on a call, read in the state before it: a request must not be
answered with a run whose index sum wraps.  Such runs are accepted last, so it
is enough that one run that does not wrap is accepted, or none at all. -/
def IndexSumFits (s : PagerState) : PagerCall → Prop
  | .allocPages n =>
      (∃ i, initIdx ≤ i ∧ i < totalPages ∧ i + n < 2 ^ 32 ∧
        acceptsRun n s.pages.pageBitmap i = true) ∨
      ∀ i, initIdx ≤ i → i < totalPages → acceptsRun n s.pages.pageBitmap i = false
  | _ => True

/-! ## Regions -/

/-- A region of the allocator, at page index `i`. -/
structure Region.At (r : Region) (i : Nat) : Prop where
  page : r.page = i * pageSize
  ge : initIdx ≤ i
  lt : i < totalPages
  pos : 1 ≤ r.count
  fits : i + r.count < 2 ^ 32

theorem Region.At.holds_iff {r : Region} {i j : Nat} (h : r.At i) :
    r.Holds j ↔ i ≤ j ∧ j < i + r.count := by
  have hidx : r.page / pageSize = i := by
    rw [h.page]
    exact Nat.mul_div_cancel i (by decide)
  rw [Region.Holds, hidx]

theorem holds_mk_iff {i n j : Nat} :
    (⟨i * pageSize, n⟩ : Region).Holds j ↔ i ≤ j ∧ j < i + n := by
  have hidx : i * pageSize / pageSize = i := Nat.mul_div_cancel i (by decide)
  rw [Region.Holds, hidx]

/-- Among regions that are apart, at most one holds a given page. -/
theorem length_filter_holds {live : List Region} (h : live.Pairwise Region.Apart)
    (i : Nat) : (live.filter fun r => r.Holds i).length = 1 ↔ ∃ r ∈ live, r.Holds i := by
  induction h with
  | nil => simp
  | @cons r live hall _ ih =>
      by_cases hr : r.Holds i
      · have hnone : live.filter (fun r => r.Holds i) = [] := by
          rw [List.filter_eq_nil_iff]
          intro r' hr'
          simpa using hall r' hr' i hr
        simp [hr, hnone]
      · simp only [hr, decide_false, Bool.false_eq_true, not_false_eq_true,
          List.filter_cons_of_neg, ih, List.mem_cons, exists_eq_or_imp, false_or]

/-- The invariant of runs whose index sums do not wrap. -/
structure OwnerInv (s : PagerState) : Prop where
  low : LowMarked s.pages.pageBitmap
  regions : ∀ r ∈ s.live, ∃ i, r.At i
  apart : s.live.Pairwise Region.Apart
  owned : ∀ j, initIdx ≤ j → j < totalPages →
    (marked s.pages.pageBitmap j = true ↔ ∃ r ∈ s.live, r.Holds j)

theorem OwnerInv.bitmapOwned {s : PagerState} (h : OwnerInv s) : BitmapOwned s where
  exact := by
    intro i hlo hhi
    rw [length_filter_holds h.apart]
    exact h.owned i hlo hhi
  apart := h.apart
  low := h.low

/-- At boot nothing is handed out and only the reserved pages are marked. -/
theorem ownerInv_pagerStart {s : PageState}
    (hzero : ∀ j, j < totalPages / 32 → s.pageBitmap j = 0#32) :
    OwnerInv (pagerStart s) where
  low := by
    rw [pagerStart_pageBitmap]
    exact lowMarked_pagingSetup s
  regions := by simp
  apart := List.Pairwise.nil
  owned := by
    intro j hlo hhi
    rw [pagerStart_pageBitmap, marked_pagingSetup_of_zero hzero hhi]
    simpa using hlo

/-- Handing out a run of pages, none of which is marked, and marking them. -/
theorem OwnerInv.hand {s : PagerState} (h : OwnerInv s) {i n : Nat} {bm : PageBitmap}
    (hlow : LowMarked bm) (hat : (⟨i * pageSize, n⟩ : Region).At i)
    (hfree : ∀ j, i ≤ j → j < i + n → j < totalPages →
      marked s.pages.pageBitmap j = false)
    (hbm : ∀ j, marked bm j =
      (marked s.pages.pageBitmap j || decide (i ≤ j ∧ j < i + n))) :
    OwnerInv ((s.setBitmap bm).hand ⟨i * pageSize, n⟩) where
  low := hlow
  regions := by
    intro r hr
    rcases List.mem_cons.mp hr with rfl | hr
    · exact ⟨i, hat⟩
    · exact h.regions r hr
  apart := by
    refine List.pairwise_cons.mpr ⟨fun r hr j hj hr' => ?_, h.apart⟩
    rw [holds_mk_iff] at hj
    obtain ⟨k, hk⟩ := h.regions r hr
    rw [hk.holds_iff] at hr'
    -- the two runs share the later of their first pages, and that page is marked
    have hpage : ∃ p, i ≤ p ∧ p < i + n ∧ k ≤ p ∧ p < k + r.count ∧ p < totalPages := by
      have := hk.lt
      have := hat.lt
      exact ⟨max i k, by omega⟩
    obtain ⟨p, hip, hpn, hkp, hpr, hp⟩ := hpage
    have hmarked := (h.owned p (Nat.le_trans hat.ge hip) hp).mpr
      ⟨r, hr, hk.holds_iff.mpr ⟨hkp, hpr⟩⟩
    rw [hfree p hip hpn hp] at hmarked
    exact Bool.noConfusion hmarked
  owned := by
    intro j hlo hhi
    simp only [hand_pages, setBitmap_pageBitmap, hand_live, setBitmap_live, hbm,
      Bool.or_eq_true, decide_eq_true_eq, h.owned j hlo hhi, List.mem_cons,
      exists_eq_or_imp, holds_mk_iff]
    exact or_comm

theorem OwnerInv.setBitmap {s : PagerState} (h : OwnerInv s) {bm : PageBitmap}
    (hsame : ∀ j, j < totalPages → marked bm j = marked s.pages.pageBitmap j) :
    OwnerInv (s.setBitmap bm) where
  low := by
    intro j hj
    rw [setBitmap_pageBitmap, hsame j (Nat.lt_trans hj initIdx_lt_totalPages)]
    exact h.low j hj
  regions := h.regions
  apart := h.apart
  owned := by
    intro j hlo hhi
    rw [setBitmap_pageBitmap, hsame j hhi]
    exact h.owned j hlo hhi

/-- A region is apart from what is left when it is given back. -/
theorem OwnerInv.apart_erase {s : PagerState} (h : OwnerInv s) {r : Region}
    (hr : r ∈ s.live) : ∀ r' ∈ s.live.erase r, r.Apart r' := by
  have hperm : (r :: s.live.erase r).Pairwise Region.Apart :=
    (List.perm_cons_erase hr).pairwise h.apart fun {_ _} hab => hab.symm
  exact (List.pairwise_cons.mp hperm).1

/-- Giving a region back and clearing its pages. -/
theorem OwnerInv.take {s : PagerState} (h : OwnerInv s) {r : Region} {i : Nat}
    (hr : r ∈ s.live) (hat : r.At i) {bm : PageBitmap} (hlow : LowMarked bm)
    (hbm : ∀ j, marked bm j =
      (marked s.pages.pageBitmap j && decide (¬ (i ≤ j ∧ j < i + r.count)))) :
    OwnerInv ((s.setBitmap bm).take r) where
  low := hlow
  regions := fun r' hr' => h.regions r' (List.mem_of_mem_erase hr')
  apart := h.apart.sublist List.erase_sublist
  owned := by
    intro j hlo hhi
    simp only [take_pages, setBitmap_pageBitmap, take_live, setBitmap_live, hbm,
      Bool.and_eq_true, decide_eq_true_eq, h.owned j hlo hhi, ← hat.holds_iff]
    constructor
    · rintro ⟨⟨r', hr', hj⟩, hnot⟩
      have hne : r' ≠ r := by
        rintro rfl
        exact hnot hj
      exact ⟨r', (List.mem_erase_of_ne hne).mpr hr', hj⟩
    · rintro ⟨r', hr', hj⟩
      exact ⟨⟨r', List.mem_of_mem_erase hr', hj⟩, fun hrj => h.apart_erase hr r' hr' j hrj hj⟩

/-- Under the condition the run found does not wrap. -/
theorem IndexSumFits.lt_of_isFirst {s : PagerState} {n i : Nat}
    (h : IndexSumFits s (.allocPages n))
    (hfirst : IsFirst (acceptsRun n s.pages.pageBitmap) initIdx totalPages i) :
    i + n < 2 ^ 32 := by
  rcases h with ⟨j, hlo, hhi, hfits, hacc⟩ | hnone
  · have hle : i ≤ j := by
      by_contra hlt
      rw [hfirst.fail_below j hlo (Nat.lt_of_not_le hlt)] at hacc
      exact Bool.noConfusion hacc
    omega
  · have hno := hnone i hfirst.ge hfirst.lt
    rw [hfirst.pass] at hno
    exact Bool.noConfusion hno

theorem ownerInv_step {s t : PagerState} {call : PagerCall} (hinv : OwnerInv s)
    (hfits : IndexSumFits s call) (hstep : PositiveStep s call t) : OwnerInv t := by
  obtain ⟨hstep, hpos⟩ := hstep
  cases hstep with
  | allocPage hcall =>
      obtain ⟨i, hfirst, rfl, rfl⟩ := allocPage_some hcall
      have hlt := hfirst.lt
      have hat : (⟨i * pageSize, 1⟩ : Region).At i := by
        refine ⟨rfl, hfirst.ge, hlt, Nat.le_refl _, ?_⟩
        simp only [totalPages, totalMemorySize, pageSize] at hlt ⊢
        omega
      refine hinv.hand (hinv.low.rawAllocPage i) hat (fun j h1 h2 _ => ?_) (fun j => ?_)
      · rw [show j = i by omega]
        exact isPageFree_iff.mp hfirst.pass
      · rw [marked_rawAllocPage]
        congr 1
        rw [decide_eq_decide]
        omega
  | allocPageNull hcall =>
      rw [(allocPage_none hcall).1]
      exact hinv.setBitmap fun _ _ => rfl
  | @allocPages n _ _ hn hcall =>
      obtain ⟨i, hfirst, rfl, rfl⟩ := allocPages_some hcall
      have hwrap := hfits.lt_of_isFirst hfirst
      have hone : 1 ≤ n := by
        rcases Nat.eq_zero_or_pos n with rfl | hone
        · exact absurd rfl hpos
        · exact hone
      have hat : (⟨i * pageSize, n⟩ : Region).At i :=
        ⟨rfl, hfirst.ge, hfirst.lt, hone, hwrap⟩
      have hrun := (acceptsRun_iff hone hfirst.lt hwrap).mp hfirst.pass
      refine hinv.hand (hinv.low.allocRange i _) hat hrun.2 (fun j => ?_)
      rw [Nat.mod_eq_of_lt hwrap, marked_allocRange _ _ (by omega)]
  | allocPagesNull hn hcall =>
      rw [(allocPages_none hcall).1]
      exact hinv.setBitmap fun _ _ => rfl
  | @freePage r hlive hone =>
      obtain ⟨i, hat⟩ := hinv.regions r hlive
      rw [hat.page]
      refine hinv.take hlive hat (hinv.low.freePage hat.ge) (fun j => ?_)
      rw [marked_freePage hat.ge, hone]
      congr 1
      rw [decide_eq_decide]
      omega
  | @freePages r hlive =>
      obtain ⟨i, hat⟩ := hinv.regions r hlive
      rw [hat.page]
      refine hinv.take hlive hat (hinv.low.freePages r.count hat.ge) (fun j => ?_)
      rw [marked_freePages hat.ge, Nat.mod_eq_of_lt hat.fits]
  | store hlive hreach => exact ⟨hinv.low, hinv.regions, hinv.apart, hinv.owned⟩
  | elsewhere hsame => exact hinv.setBitmap fun j hj => marked_congr hj hsame

/-- A run that wraps is handed out and not marked: its first page is then live
and unmarked. -/
theorem not_bitmapOwned_step {s t : PagerState} {call : PagerCall}
    (hfits : ¬ IndexSumFits s call) (hstep : PositiveStep s call t) :
    ¬ BitmapOwned t := by
  intro hgood
  obtain ⟨hstep, hpos⟩ := hstep
  cases hstep with
  | @allocPages n _ _ hn hcall =>
      obtain ⟨i, hfirst, rfl, rfl⟩ := allocPages_some hcall
      have hwrap : 2 ^ 32 ≤ i + n := by
        by_contra hlt
        exact hfits (Or.inl ⟨i, hfirst.ge, hfirst.lt, Nat.lt_of_not_le hlt, hfirst.pass⟩)
      have hi := hfirst.lt
      have hstop : (i + n) % 2 ^ 32 ≤ i := by omega
      have hholds : (⟨i * pageSize, n⟩ : Region).Holds i := by
        rw [holds_mk_iff]
        simp only [totalPages, totalMemorySize, pageSize] at hi
        omega
      have hone := (length_filter_holds hgood.apart i).mpr
        ⟨_, List.mem_cons_self, hholds⟩
      have hmarked := (hgood.exact i hfirst.ge hfirst.lt).mpr hone
      simp only [hand_pages, setBitmap_pageBitmap, allocRange_of_le _ hstop,
        marked_of_acceptsRun hfirst.pass] at hmarked
      exact Bool.noConfusion hmarked
  | @allocPagesNull n _ hn hcall =>
      exact hfits (Or.inr (allocPages_none hcall).2)
  | allocPage hcall => exact hfits trivial
  | allocPageNull hcall => exact hfits trivial
  | freePage hlive hone => exact hfits trivial
  | freePages hlive => exact hfits trivial
  | store hlive hreach => exact hfits trivial
  | elsewhere hsame => exact hfits trivial

/-- The bitmap records the live regions all along a run exactly when no request
of the run is answered with a run of pages whose index sum wraps. -/
theorem pagerRuns_bitmapOwned_iff {s : PageState}
    (hzero : ∀ j, j < totalPages / 32 → s.pageBitmap j = 0#32)
    {path : List (PagerCall × PagerState)}
    (hpath : IsPath PositiveStep (pagerStart s) path) :
    (∀ t ∈ visited (pagerStart s) path, BitmapOwned t) ↔
      StepsMeet IndexSumFits (pagerStart s) path := by
  refine IsPath.forall_iff_stepsMeet (fun _ => OwnerInv.bitmapOwned) ?_ ?_
    (ownerInv_pagerStart hzero) hpath
  · intro u call t hinv hfits hstep
    exact ownerInv_step hinv hfits hstep
  · intro u call t _ hfits hstep
    exact not_bitmapOwned_step hfits hstep

/-- The rule at the shortest run after boot: one `alloc_page`. -/
theorem pagerRuns_bitmapOwned_iff_first :
    ∃ t : PagerState, t.live = [⟨0x320000, 1⟩] ∧
      ((∀ u ∈ visited (pagerStart bootPages) [(PagerCall.allocPage, t)],
          BitmapOwned u) ↔
        StepsMeet IndexSumFits (pagerStart bootPages) [(PagerCall.allocPage, t)]) := by
  have hpath : IsPath PositiveStep (pagerStart bootPages) [(.allocPage, firstPage)] :=
    ⟨⟨step_firstPage, by decide⟩, trivial⟩
  exact ⟨firstPage, live_firstPage, pagerRuns_bitmapOwned_iff (fun _ _ => rfl) hpath⟩

/-- After boot the first index that the test for `2 ^ 32 - 1` pages accepts is the
third page: the sum wraps, so that only the pages `i` and `i - 2` are tested. -/
theorem isFirst_wrapped_request :
    IsFirst (acceptsRun 0xFFFFFFFF (pagerStart bootPages).pages.pageBitmap) initIdx
      totalPages 0x322 where
  ge := by decide
  lt := by decide
  pass := by
    rw [acceptsRun, Bool.and_eq_true, Bool.and_eq_true, restIsFree_iff]
    refine ⟨⟨isPageFree_bootPages (by decide) (by decide),
      isPageFree_bootPages (by decide) (by decide)⟩, fun k h1 _ _ h4 => ?_⟩
    omega
  fail_below := by
    intro j hlo hhi
    have hinit : initIdx = 0x320 := by decide
    have hlow : marked (pagerStart bootPages).pages.pageBitmap (j - 2) = true :=
      (reservedInv_pagerStart bootPages).low (j - 2) (by omega)
    have hpred : (j + 0xFFFFFFFF + (2 ^ 32 - 1)) % 2 ^ 32 = j - 2 := by omega
    rw [acceptsRun, hpred, isPageFree_eq_not_marked _ (j - 2), hlow]
    simp

/-- A request for `2 ^ 32 - 1` pages after boot is answered, and marks none. -/
theorem pagerRuns_wrapped_request :
    ∃ t : PagerState, IsPath PositiveStep (pagerStart bootPages)
        [(.allocPages 0xFFFFFFFF, t)] ∧
      t.live = [⟨0x322000, 0xFFFFFFFF⟩] ∧
      marked t.pages.pageBitmap 0x322 = false ∧ ¬ BitmapOwned t := by
  have hfind : findUp (acceptsRun 0xFFFFFFFF (pagerStart bootPages).pages.pageBitmap)
      (totalPages - initIdx) initIdx = some 0x322 := by
    rw [findUp_eq_some_iff, initIdx_le_totalPages]
    exact isFirst_wrapped_request
  have hcall : allocPages 0xFFFFFFFF (pagerStart bootPages).pages.pageBitmap =
      (some 0x322000, (pagerStart bootPages).pages.pageBitmap) := by
    rw [allocPages, allocPagesLoop_eq, hfind]
    exact congrArg (Prod.mk _) (allocRange_of_le _ (by decide))
  have hunmarked : marked (pagerStart bootPages).pages.pageBitmap 0x322 = false :=
    isPageFree_iff.mp (isPageFree_bootPages (by decide) (by decide))
  have hlive : (((pagerStart bootPages).setBitmap
      (pagerStart bootPages).pages.pageBitmap).hand ⟨0x322000, 0xFFFFFFFF⟩).live =
        [⟨0x322000, 0xFFFFFFFF⟩] := by
    rw [hand_live, setBitmap_live, pagerStart_live]
  refine ⟨_, ⟨⟨.allocPages (by decide) hcall, by decide⟩, trivial⟩, hlive, ?_, ?_⟩
  · rw [hand_pages, setBitmap_pageBitmap, hunmarked]
  · intro hgood
    have hone := (hgood.exact 0x322 (by decide) (by decide)).mpr (by rw [hlive]; decide)
    rw [hand_pages, setBitmap_pageBitmap, hunmarked] at hone
    exact Bool.noConfusion hone

end DonutOS.Kernel
