import DonutOS.Foundation.Path
import DonutOS.Kernel.PagingSpec
import Mathlib.Data.List.Basic

set_option autoImplicit false

/-!
# Kernel: the page allocator over whole runs

The page allocator with its clients after `paging_init`: allocations and
releases in any order, stores of the clients into the pages they were given, and
arbitrary changes of the memory behind the bitmap array.  Two invariants are
carried through the runs: the allocator keeps away from the tables, and the
bitmap is the union of the regions handed out.
-/

namespace DonutOS.Kernel

open DonutOS.Foundation

/-- A region a client holds: the address returned and the number of pages
requested. -/
structure Region where
  page : Nat
  count : Nat
  deriving DecidableEq, Repr, Inhabited

/-- The region holds page index `i`. -/
def Region.Holds (r : Region) (i : Nat) : Prop :=
  r.page / pageSize ≤ i ∧ i < r.page / pageSize + r.count

instance (r : Region) (i : Nat) : Decidable (r.Holds i) :=
  inferInstanceAs (Decidable (_ ∧ _))

/-- The client of `r` reaches address `a`: pointer arithmetic is modulo
`2 ^ 32`, and a request for no page is still answered with a page. -/
def Region.Reaches (r : Region) (a : Nat) : Prop :=
  ∃ k, k < max 1 r.count * pageSize ∧ a = (r.page + k) % 2 ^ 32

/-- No page index is in both regions. -/
def Region.Apart (r r' : Region) : Prop := ∀ i, r.Holds i → ¬ r'.Holds i

theorem Region.Apart.symm {r r' : Region} (h : r.Apart r') : r'.Apart r :=
  fun i hi' hi => h i hi hi'

/-- The paging state together with the regions returned and not yet freed. -/
structure PagerState where
  pages : PageState
  live : List Region

/-- What happens to the page allocator. -/
inductive PagerCall
  | allocPage
  | allocPages (n : Nat)
  | freePage (page : Nat)
  | freePages (page n : Nat)
  /-- a client writes one byte it can reach -/
  | store (addr : Nat) (value : Byte)
  /-- the memory behind `page_bitmap` changes -/
  | elsewhere
  deriving DecidableEq

/-- The state with another bitmap. -/
def PagerState.setBitmap (s : PagerState) (bm : PageBitmap) : PagerState :=
  { s with pages := { s.pages with pageBitmap := bm } }

/-- The state after a client got the region `r`. -/
def PagerState.hand (s : PagerState) (r : Region) : PagerState :=
  { s with live := r :: s.live }

/-- The state after a client gave back the region `r`. -/
def PagerState.take (s : PagerState) (r : Region) : PagerState :=
  { s with live := s.live.erase r }

/-- One call, one store of a client, or a change elsewhere. -/
inductive PagerStep : PagerState → PagerCall → PagerState → Prop
  | allocPage {s : PagerState} {page : Nat} {bm : PageBitmap}
      (hcall : allocPage s.pages.pageBitmap = (some page, bm)) :
      PagerStep s .allocPage ((s.setBitmap bm).hand ⟨page, 1⟩)
  | allocPageNull {s : PagerState} {bm : PageBitmap}
      (hcall : allocPage s.pages.pageBitmap = (none, bm)) :
      PagerStep s .allocPage (s.setBitmap bm)
  | allocPages {s : PagerState} {n page : Nat} {bm : PageBitmap} (hn : n < 2 ^ 32)
      (hcall : allocPages n s.pages.pageBitmap = (some page, bm)) :
      PagerStep s (.allocPages n) ((s.setBitmap bm).hand ⟨page, n⟩)
  | allocPagesNull {s : PagerState} {n : Nat} {bm : PageBitmap} (hn : n < 2 ^ 32)
      (hcall : allocPages n s.pages.pageBitmap = (none, bm)) :
      PagerStep s (.allocPages n) (s.setBitmap bm)
  | freePage {s : PagerState} {r : Region} (hlive : r ∈ s.live) (hone : r.count = 1) :
      PagerStep s (.freePage r.page)
        ((s.setBitmap (freePage r.page s.pages.pageBitmap)).take r)
  | freePages {s : PagerState} {r : Region} (hlive : r ∈ s.live) :
      PagerStep s (.freePages r.page r.count)
        ((s.setBitmap (freePages r.page r.count s.pages.pageBitmap)).take r)
  | store {s : PagerState} {r : Region} {addr : Nat} {value : Byte}
      (hlive : r ∈ s.live) (hreach : r.Reaches addr) :
      PagerStep s (.store addr value)
        { s with pages := { s.pages with mem := writeByte s.pages.mem addr value } }
  | elsewhere {s : PagerState} {bm : PageBitmap}
      (hsame : ∀ j, j < totalPages / 32 → bm j = s.pages.pageBitmap j) :
      PagerStep s .elsewhere (s.setBitmap bm)

/-- The allocator right after `paging_init` ran in the state `s`. -/
def pagerStart (s : PageState) : PagerState := ⟨pagingInit s, []⟩

section Fields

variable (s : PagerState) (bm : PageBitmap) (r : Region)

@[simp] theorem setBitmap_pageBitmap : (s.setBitmap bm).pages.pageBitmap = bm := rfl
@[simp] theorem setBitmap_live : (s.setBitmap bm).live = s.live := rfl
@[simp] theorem hand_pages : (s.hand r).pages = s.pages := rfl
@[simp] theorem hand_live : (s.hand r).live = r :: s.live := rfl
@[simp] theorem take_pages : (s.take r).pages = s.pages := rfl
@[simp] theorem take_live : (s.take r).live = s.live.erase r := rfl

end Fields

theorem initIdx_lt_totalPages : initIdx < totalPages := by decide

/-- The first index whose page is free, when `init_idx` is. -/
theorem isFirst_eq_of_pass {test : Nat → Bool} {lo hi i : Nat}
    (h : IsFirst test lo hi i) (hpass : test lo = true) : i = lo := by
  by_contra hne
  have hlt : lo < i := Nat.lt_of_le_of_ne h.ge (Ne.symm hne)
  rw [h.fail_below lo (Nat.le_refl _) hlt] at hpass
  exact Bool.noConfusion hpass

/-! ## Reserved pages

The pages below `init_idx` are marked by `paging_setup` and stay marked. -/

/-- Every page below `init_idx` is marked. -/
def LowMarked (bm : PageBitmap) : Prop := ∀ i, i < initIdx → marked bm i = true

theorem lowMarked_pagingSetup (s : PageState) : LowMarked (pagingSetup s).pageBitmap := by
  intro i hi
  rw [marked_pagingSetup, decide_eq_true hi, Bool.or_true]

theorem LowMarked.rawAllocPage {bm : PageBitmap} (h : LowMarked bm) (i : Nat) :
    LowMarked (rawAllocPage bm i) := by
  intro j hj
  rw [marked_rawAllocPage, h j hj, Bool.true_or]

theorem LowMarked.allocRange {bm : PageBitmap} (h : LowMarked bm) (i stop : Nat) :
    LowMarked (allocRange bm i stop) := by
  intro j hj
  rcases Nat.le_total i stop with hle | hle
  · rw [marked_allocRange _ _ hle, h j hj, Bool.true_or]
  · rw [allocRange_of_le _ hle, h j hj]

theorem LowMarked.freePage {bm : PageBitmap} (h : LowMarked bm) {i : Nat}
    (hi : initIdx ≤ i) : LowMarked (freePage (i * pageSize) bm) := by
  intro j hj
  rw [marked_freePage hi, h j hj, Bool.true_and, decide_eq_true_eq]
  omega

theorem LowMarked.freePages {bm : PageBitmap} (h : LowMarked bm) {i : Nat} (n : Nat)
    (hi : initIdx ≤ i) : LowMarked (freePages (i * pageSize) n bm) := by
  intro j hj
  rw [marked_freePages hi, h j hj, Bool.true_and, decide_eq_true_eq]
  omega

theorem LowMarked.congr {bm bm' : PageBitmap} (h : LowMarked bm)
    (hsame : ∀ j, j < totalPages / 32 → bm' j = bm j) : LowMarked bm' := by
  intro i hi
  rw [marked_congr (Nat.lt_trans hi initIdx_lt_totalPages) hsame, h i hi]

/-! ## The allocator and the tables -/

/-- No client reaches the page directory or a page table, and every address of
memory is mapped to itself. -/
structure TablesApart (s : PagerState) : Prop where
  apart : ∀ r ∈ s.live, ∀ a, r.Reaches a → ¬ InTables a
  identity : ∀ a, a < totalMemorySize →
    translate s.pages.mem s.pages.cr3 a = some ⟨a, true⟩

/-- The condition on a call, read in the state before it: it must not be
answered with page `init_idx`, which is the last page table, nor with a run that
goes round the 32-bit address space into the page directory. -/
def MissesTables (s : PagerState) : PagerCall → Prop
  | .allocPage => isPageFree s.pages.pageBitmap initIdx = false
  | .allocPages n => acceptsRun n s.pages.pageBitmap initIdx = false ∧
      ∀ i, IsFirst (acceptsRun n s.pages.pageBitmap) initIdx totalPages i →
        i * pageSize + n * pageSize ≤ 2 ^ 32 + pageDirAddr
  | _ => True

/-- The invariant of runs whose calls all miss the tables. -/
structure ReservedInv (s : PagerState) : Prop where
  low : LowMarked s.pages.pageBitmap
  tables : TablesIntact s.pages.mem
  cr3 : s.pages.cr3 = pageDirAddr
  regions : ∀ r ∈ s.live, ∃ i, r.page = i * pageSize ∧ initIdx < i ∧
    i * pageSize + max 1 r.count * pageSize ≤ 2 ^ 32 + pageDirAddr

@[simp] theorem pagerStart_pageBitmap (s : PageState) :
    (pagerStart s).pages.pageBitmap = (pagingSetup s).pageBitmap := by
  rw [pagerStart, pagingInit]

@[simp] theorem pagerStart_mem (s : PageState) :
    (pagerStart s).pages.mem = (pagingSetup s).mem := by
  rw [pagerStart, pagingInit]

@[simp] theorem pagerStart_cr3 (s : PageState) :
    (pagerStart s).pages.cr3 = pageDirAddr := by
  rw [pagerStart, pagingInit]

@[simp] theorem pagerStart_live (s : PageState) : (pagerStart s).live = [] := rfl

theorem reservedInv_pagerStart (s : PageState) : ReservedInv (pagerStart s) where
  low := by
    rw [pagerStart_pageBitmap]
    exact lowMarked_pagingSetup s
  tables := by
    rw [pagerStart_mem]
    exact tablesIntact_pagingSetup s
  cr3 := pagerStart_cr3 s
  regions := by simp

theorem pageTablesEnd_eq : pageTablesEnd = (initIdx + 1) * pageSize := by decide

/-- A region above the tables that does not come round to them keeps clear of
them. -/
theorem not_inTables_of_reaches {r : Region} {i a : Nat} (hpage : r.page = i * pageSize)
    (hi : initIdx < i)
    (hend : i * pageSize + max 1 r.count * pageSize ≤ 2 ^ 32 + pageDirAddr)
    (ha : r.Reaches a) : ¬ InTables a := by
  obtain ⟨k, hk, rfl⟩ := ha
  have hstart : pageTablesEnd ≤ i * pageSize := by
    rw [pageTablesEnd_eq]
    exact Nat.mul_le_mul_right _ hi
  rw [inTables_iff, hpage]
  have hdir : pageDirAddr < 2 ^ 32 := by decide
  omega

theorem ReservedInv.tablesApart {s : PagerState} (h : ReservedInv s) : TablesApart s where
  apart := by
    intro r hr a ha
    obtain ⟨i, hpage, hi, hend⟩ := h.regions r hr
    exact not_inTables_of_reaches hpage hi hend ha
  identity := by
    intro a ha
    rw [h.cr3]
    exact translate_of_tablesIntact h.tables ha

theorem ReservedInv.hand {s : PagerState} (h : ReservedInv s) {i n : Nat}
    {bm : PageBitmap} (hlow : LowMarked bm) (hi : initIdx < i)
    (hend : i * pageSize + max 1 n * pageSize ≤ 2 ^ 32 + pageDirAddr) :
    ReservedInv ((s.setBitmap bm).hand ⟨i * pageSize, n⟩) where
  low := hlow
  tables := h.tables
  cr3 := h.cr3
  regions := by
    intro r hr
    rcases List.mem_cons.mp hr with rfl | hr
    · exact ⟨i, rfl, hi, hend⟩
    · exact h.regions r hr

theorem ReservedInv.setBitmap {s : PagerState} (h : ReservedInv s) {bm : PageBitmap}
    (hlow : LowMarked bm) : ReservedInv (s.setBitmap bm) :=
  ⟨hlow, h.tables, h.cr3, h.regions⟩

theorem ReservedInv.take {s : PagerState} (h : ReservedInv s) (r : Region) :
    ReservedInv (s.take r) :=
  ⟨h.low, h.tables, h.cr3, fun _ hr => h.regions _ (List.mem_of_mem_erase hr)⟩

/-- A page below the end of memory ends long before the address space wraps. -/
theorem page_end_le {i : Nat} (hi : i < totalPages) :
    i * pageSize + 1 * pageSize ≤ 2 ^ 32 + pageDirAddr := by
  simp only [totalPages, totalMemorySize, pageSize] at *
  omega

theorem reservedInv_step {s t : PagerState} {call : PagerCall} (hinv : ReservedInv s)
    (hmiss : MissesTables s call) (hstep : PagerStep s call t) : ReservedInv t := by
  cases hstep with
  | allocPage hcall =>
      obtain ⟨i, hfirst, rfl, rfl⟩ := allocPage_some hcall
      have hne : i ≠ initIdx := by
        rintro rfl
        have hfree : isPageFree s.pages.pageBitmap initIdx = false := hmiss
        rw [hfirst.pass] at hfree
        exact Bool.noConfusion hfree
      exact hinv.hand (hinv.low.rawAllocPage i)
        (Nat.lt_of_le_of_ne hfirst.ge (Ne.symm hne)) (page_end_le hfirst.lt)
  | allocPageNull hcall =>
      rw [(allocPage_none hcall).1]
      exact hinv.setBitmap hinv.low
  | @allocPages n _ _ hn hcall =>
      obtain ⟨i, hfirst, rfl, rfl⟩ := allocPages_some hcall
      obtain ⟨hreject, hend⟩ := hmiss
      have hne : i ≠ initIdx := by
        rintro rfl
        rw [hfirst.pass] at hreject
        exact Bool.noConfusion hreject
      have hend' : i * pageSize + max 1 n * pageSize ≤ 2 ^ 32 + pageDirAddr := by
        rcases Nat.le_total n 1 with hle | hle
        · rw [Nat.max_eq_left hle]
          exact page_end_le hfirst.lt
        · rw [Nat.max_eq_right hle]
          exact hend i hfirst
      exact hinv.hand (hinv.low.allocRange i _)
        (Nat.lt_of_le_of_ne hfirst.ge (Ne.symm hne)) hend'
  | allocPagesNull hn hcall =>
      rw [(allocPages_none hcall).1]
      exact hinv.setBitmap hinv.low
  | @freePage r hlive hone =>
      obtain ⟨i, hpage, hi, _⟩ := hinv.regions r hlive
      rw [hpage]
      exact (hinv.setBitmap (hinv.low.freePage (Nat.le_of_lt hi))).take r
  | @freePages r hlive =>
      obtain ⟨i, hpage, hi, _⟩ := hinv.regions r hlive
      rw [hpage]
      exact (hinv.setBitmap (hinv.low.freePages r.count (Nat.le_of_lt hi))).take r
  | @store r addr value hlive hreach =>
      have haddr : ¬ InTables addr := hinv.tablesApart.apart r hlive addr hreach
      refine ⟨hinv.low, hinv.tables.congr fun a ha => writeByte_of_ne ?_, hinv.cr3,
        hinv.regions⟩
      rintro rfl
      exact haddr ha
  | elsewhere hsame => exact hinv.setBitmap (hinv.low.congr hsame)

/-- A region that starts at `init_idx` reaches the last page table. -/
theorem not_tablesApart_of_initIdx {s : PagerState} {n : Nat}
    (h : ⟨initIdx * pageSize, n⟩ ∈ s.live) : ¬ TablesApart s := by
  intro hgood
  have hpos : 0 < max 1 n * pageSize := Nat.mul_pos (by omega) (by decide)
  have hself : initIdx * pageSize = (initIdx * pageSize + 0) % 2 ^ 32 := by decide
  refine hgood.apart _ h (initIdx * pageSize) ⟨0, hpos, hself⟩ ?_
  rw [inTables_iff]
  decide

/-- A region that comes round to the page directory reaches it. -/
theorem not_tablesApart_of_round {s : PagerState} {i n : Nat}
    (h : ⟨i * pageSize, n⟩ ∈ s.live) (hi : i < totalPages)
    (hround : 2 ^ 32 + pageDirAddr < i * pageSize + n * pageSize) :
    ¬ TablesApart s := by
  intro hgood
  have hlow := page_end_le hi
  have hmax : n * pageSize ≤ max 1 n * pageSize :=
    Nat.mul_le_mul_right _ (Nat.le_max_right 1 n)
  refine hgood.apart _ h pageDirAddr
    ⟨2 ^ 32 + pageDirAddr - i * pageSize, by simp only; omega, ?_⟩ ?_
  · rw [show i * pageSize + (2 ^ 32 + pageDirAddr - i * pageSize) =
      pageDirAddr + 2 ^ 32 by omega, Nat.add_mod_right]
    rfl
  · rw [inTables_iff]
    decide

theorem not_tablesApart_step {s t : PagerState} {call : PagerCall}
    (hmiss : ¬ MissesTables s call) (hstep : PagerStep s call t) : ¬ TablesApart t := by
  cases hstep with
  | allocPage hcall =>
      obtain ⟨i, hfirst, rfl, rfl⟩ := allocPage_some hcall
      have hfree : isPageFree s.pages.pageBitmap initIdx = true := by
        simpa [MissesTables] using hmiss
      rw [isFirst_eq_of_pass hfirst hfree]
      exact not_tablesApart_of_initIdx List.mem_cons_self
  | @allocPages n _ _ hn hcall =>
      obtain ⟨i, hfirst, rfl, rfl⟩ := allocPages_some hcall
      cases hacc : acceptsRun n s.pages.pageBitmap initIdx with
      | true =>
          rw [isFirst_eq_of_pass hfirst hacc]
          exact not_tablesApart_of_initIdx List.mem_cons_self
      | false =>
          refine not_tablesApart_of_round List.mem_cons_self hfirst.lt ?_
          by_contra hle
          rw [Nat.not_lt] at hle
          refine hmiss ⟨hacc, fun j hj => ?_⟩
          rcases Nat.lt_trichotomy i j with hij | rfl | hij
          · have hno := hj.fail_below i hfirst.ge hij
            rw [hfirst.pass] at hno
            exact Bool.noConfusion hno
          · exact hle
          · have hno := hfirst.fail_below j hj.ge hij
            rw [hj.pass] at hno
            exact Bool.noConfusion hno
  | allocPageNull hcall =>
      -- no page is free, so page `init_idx` is not
      refine absurd ?_ hmiss
      exact (allocPage_none hcall).2 initIdx (Nat.le_refl _) initIdx_lt_totalPages
  | @allocPagesNull n _ hn hcall =>
      refine absurd ?_ hmiss
      have hall := (allocPages_none hcall).2
      refine ⟨hall initIdx (Nat.le_refl _) initIdx_lt_totalPages, fun i hi => ?_⟩
      have hno := hall i hi.ge hi.lt
      rw [hi.pass] at hno
      exact Bool.noConfusion hno
  | freePage hlive hone => exact absurd trivial hmiss
  | freePages hlive => exact absurd trivial hmiss
  | store hlive hreach => exact absurd trivial hmiss
  | elsewhere hsame => exact absurd trivial hmiss

/-- The state the paging code finds at boot: zeroed memory and bitmap. -/
def bootPages : PageState := ⟨fun _ => 0, fun _ => 0, 0, 0⟩

theorem isPageFree_bootPages {i : Nat} (hlo : initIdx ≤ i) (hhi : i < totalPages) :
    isPageFree (pagerStart bootPages).pages.pageBitmap i = true := by
  rw [isPageFree_iff, pagerStart_pageBitmap,
    marked_pagingSetup_of_zero (fun _ _ => rfl) hhi, decide_eq_false_iff_not]
  omega

/-- `alloc_page` answers with the first free page. -/
theorem allocPage_of_isFirst {bm : PageBitmap} {i : Nat}
    (h : IsFirst (isPageFree bm) initIdx totalPages i) :
    allocPage bm = (some (i * pageSize), rawAllocPage bm i) := by
  have hfind : findUp (isPageFree bm) (totalPages - initIdx) initIdx = some i := by
    rw [findUp_eq_some_iff, initIdx_le_totalPages]
    exact h
  rw [allocPage, allocPageLoop_eq, hfind]
  exact congrArg (fun page => (some page, rawAllocPage bm i)) (Nat.shiftLeft_eq i 12)

/-- With page `init_idx` free, `alloc_page` answers with it. -/
theorem allocPage_of_free {bm : PageBitmap} (h : isPageFree bm initIdx = true) :
    allocPage bm = (some (initIdx * pageSize), rawAllocPage bm initIdx) :=
  allocPage_of_isFirst ⟨Nat.le_refl _, initIdx_lt_totalPages, h, fun j h1 h2 => by omega⟩

/-- The state after the first `alloc_page` of a boot. -/
def firstPage : PagerState :=
  ((pagerStart bootPages).setBitmap
    (rawAllocPage (pagerStart bootPages).pages.pageBitmap initIdx)).hand
      ⟨initIdx * pageSize, 1⟩

theorem step_firstPage : PagerStep (pagerStart bootPages) .allocPage firstPage :=
  .allocPage (allocPage_of_free
    (isPageFree_bootPages (Nat.le_refl initIdx) initIdx_lt_totalPages))

theorem live_firstPage : firstPage.live = [⟨0x320000, 1⟩] := by
  rw [firstPage, hand_live, setBitmap_live, pagerStart_live]
  decide

/-- The allocator keeps clear of the tables along a run exactly when no call of
the run is answered with page `init_idx`, or with pages that go round the
address space into the directory. -/
theorem pagerRuns_tablesApart_iff (s : PageState) {path : List (PagerCall × PagerState)}
    (hpath : IsPath PagerStep (pagerStart s) path) :
    (∀ t ∈ visited (pagerStart s) path, TablesApart t) ↔
      StepsMeet MissesTables (pagerStart s) path := by
  refine IsPath.forall_iff_stepsMeet (fun _ => ReservedInv.tablesApart) ?_ ?_
    (reservedInv_pagerStart s) hpath
  · intro u call t hinv hmiss hstep
    exact reservedInv_step hinv hmiss hstep
  · intro u call t _ hmiss hstep
    exact not_tablesApart_step hmiss hstep

/-- The rule at the shortest run after boot: one `alloc_page`. -/
theorem pagerRuns_tablesApart_iff_first :
    ∃ t : PagerState, t.live = [⟨0x320000, 1⟩] ∧
      ((∀ u ∈ visited (pagerStart bootPages) [(PagerCall.allocPage, t)], TablesApart u) ↔
        StepsMeet MissesTables (pagerStart bootPages) [(PagerCall.allocPage, t)]) := by
  have hpath : IsPath PagerStep (pagerStart bootPages) [(.allocPage, firstPage)] :=
    ⟨step_firstPage, trivial⟩
  exact ⟨firstPage, live_firstPage, pagerRuns_tablesApart_iff bootPages hpath⟩

/-- A page table entry whose low byte is cleared maps nothing. -/
theorem translate_eq_none_of_clear {m : Memory} (h : TablesIntact m) {t i : Nat}
    (ht : t < pageTablesCount) (hi : i < pageTableSize) :
    translate (writeByte m (pageTableAddr + t * pageSize + 4 * i) 0) pageDirAddr
      ((t * pageTableSize + i) * pageSize) = none := by
  have hsizes : pageTableAddr = pageDirAddr + 0x1000 ∧ pageTablesCount = 32 :=
    ⟨rfl, pageTablesCount_eq⟩
  have hdirIdx : (t * pageTableSize + i) * pageSize / 2 ^ 22 = t := by
    simp only [pageTableSize, pageSize] at *
    omega
  have htableIdx : (t * pageTableSize + i) * pageSize / 2 ^ 12 % 2 ^ 10 = i := by
    simp only [pageTableSize, pageSize] at *
    omega
  have hpde : readWord (writeByte m (pageTableAddr + t * pageSize + 4 * i) 0)
      (pageDirAddr + 4 * t) = (0x301 + t) * pageSize + 3 := by
    rw [readWord_writeByte_of_outside (by omega), h.dir t ht, dirEntry, Nat.add_mul]
    rfl
  have hbase : (0x301 + t) * pageSize + 4 * i = pageTableAddr + t * pageSize + 4 * i := by
    rw [Nat.add_mul]
    rfl
  have hpte : readWord (writeByte m (pageTableAddr + t * pageSize + 4 * i) 0)
      (pageTableAddr + t * pageSize + 4 * i) % 2 = 0 := by
    have hbyte : writeByte m (pageTableAddr + t * pageSize + 4 * i) 0
        (pageTableAddr + t * pageSize + 4 * i) = 0 := if_pos rfl
    rw [readWord, hbyte, show (0 : Byte).toNat = 0 from rfl]
    omega
  rw [translate]
  simp only [hdirIdx, htableIdx, hpde, frame_entry, hbase, hpte, if_true]
  exact if_neg (by rw [(flags_entry _).1]; decide)

/-- The first page handed out after boot is the last page table: when its holder
clears the first byte, an address of memory is mapped nowhere. -/
theorem pagerRuns_first_page_is_table :
    ∃ t u, IsPath PagerStep (pagerStart bootPages)
        [(.allocPage, t), (.store 0x320000 0, u)] ∧
      t.live = [⟨0x320000, 1⟩] ∧ ¬ TablesApart t ∧
      translate u.pages.mem u.pages.cr3 0x7c00000 = none := by
  have hreach : Region.Reaches ⟨0x320000, 1⟩ 0x320000 := ⟨0, by decide, by decide⟩
  have hlive : ⟨0x320000, 1⟩ ∈ firstPage.live := by
    rw [live_firstPage]
    exact List.mem_cons_self
  have hstore : PagerStep firstPage (.store 0x320000 0) _ := .store hlive hreach
  refine ⟨_, _, ⟨step_firstPage, hstore, trivial⟩, live_firstPage, ?_, ?_⟩
  · exact not_tablesApart_of_initIdx (n := 1) List.mem_cons_self
  · have htables := (reservedInv_pagerStart bootPages).tables
    exact translate_eq_none_of_clear htables (t := 31) (i := 0) (by decide) (by decide)

end DonutOS.Kernel
