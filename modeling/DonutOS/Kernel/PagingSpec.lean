import DonutOS.Foundation.Bitmap
import DonutOS.Kernel.Paging

set_option autoImplicit false

/-!
# Kernel: what the paging functions do

One specification for each function of `Kernel.Paging`: the bitmap routines as
operations on the set of marked pages, the two searches as "least index that
passes the test", and `paging_setup` as the tables it leaves in memory.
-/

namespace DonutOS.Kernel

open DonutOS.Foundation

/-! ## The bitmap as a set of pages -/

/-- Page `i` is marked in `page_bitmap`. -/
abbrev marked (bm : PageBitmap) (i : Nat) : Bool := hasBit bm i

theorem shiftRight_five (i : Nat) : i >>> 5 = i / 32 := Nat.shiftRight_eq_div_pow i 5

theorem and_thirtyOne (i : Nat) : i &&& 31 = i % 32 := Nat.and_two_pow_sub_one_eq_mod i 5

theorem one_shiftLeft (i : Nat) : 1#32 <<< i = BitVec.twoPow 32 i :=
  (BitVec.twoPow_eq 32 i).symm

theorem rawAllocPage_eq_setBit (bm : PageBitmap) (i : Nat) :
    rawAllocPage bm i = setBit bm i := by
  rw [rawAllocPage, shiftRight_five, and_thirtyOne, one_shiftLeft, setBit]

theorem rawFreePage_eq_clearBit (bm : PageBitmap) (i : Nat) :
    rawFreePage bm i = clearBit bm i := by
  rw [rawFreePage, shiftRight_five, and_thirtyOne, one_shiftLeft, clearBit]

/-- A page is free when it is not marked. -/
theorem isPageFree_eq_not_marked (bm : PageBitmap) (i : Nat) :
    isPageFree bm i = !marked bm i := by
  rw [isPageFree, shiftRight_five, and_thirtyOne, one_shiftLeft, BitVec.and_twoPow,
    marked, hasBit]
  cases hbit : (bm (i / 32)).getLsbD (i % 32) with
  | false => rfl
  | true =>
      have hlt : i % 32 < 32 := Nat.mod_lt i (by decide)
      have hne : BitVec.twoPow 32 (i % 32) ≠ 0#32 := by
        intro hzero
        have hlsb := congrArg (fun x : Word => x.getLsbD (i % 32)) hzero
        simp [hlt] at hlsb
      simpa using hne

theorem isPageFree_iff {bm : PageBitmap} {i : Nat} :
    isPageFree bm i = true ↔ marked bm i = false := by
  rw [isPageFree_eq_not_marked, Bool.not_eq_true']

@[simp] theorem marked_rawAllocPage (bm : PageBitmap) (i j : Nat) :
    marked (rawAllocPage bm i) j = (marked bm j || decide (j = i)) := by
  rw [rawAllocPage_eq_setBit]
  exact hasBit_setBit (by decide) bm i j

@[simp] theorem marked_rawFreePage (bm : PageBitmap) (i j : Nat) :
    marked (rawFreePage bm i) j = (marked bm j && decide (j ≠ i)) := by
  rw [rawFreePage_eq_clearBit]
  exact hasBit_clearBit (by decide) bm i j

theorem marked_allocRange (bm : PageBitmap) {i stop : Nat} (j : Nat)
    (h : i ≤ stop) : marked (allocRange bm i stop) j =
      (marked bm j || decide (i ≤ j ∧ j < stop)) := by
  have hrange := hasBit_setRange (w := 32) (by decide) bm i (stop - i) j
  rw [show i + (stop - i) = stop by omega] at hrange
  rw [← hrange, allocRange]
  simp only [rawAllocPage_eq_setBit]

/-- A marking loop whose end is below its start does nothing. -/
theorem allocRange_of_le (bm : PageBitmap) {i stop : Nat} (h : stop ≤ i) :
    allocRange bm i stop = bm := by
  rw [allocRange, Nat.sub_eq_zero_of_le h]
  rfl

/-- Words of the bitmap past the array say nothing about its pages. -/
theorem marked_congr {bm bm' : PageBitmap} {i : Nat} (hi : i < totalPages)
    (hsame : ∀ j, j < totalPages / 32 → bm' j = bm j) :
    marked bm' i = marked bm i := by
  unfold marked hasBit
  rw [hsame (i / 32)]
  simp only [totalPages, totalMemorySize, pageSize] at *
  omega

/-! ## The allocator -/

theorem allocPageLoop_eq (bm : PageBitmap) (count i : Nat) :
    allocPageLoop bm count i = match findUp (isPageFree bm) count i with
      | some p => (some (p <<< 12), rawAllocPage bm p)
      | none => (none, bm) := by
  induction count generalizing i with
  | zero => rfl
  | succ count ih =>
      rw [allocPageLoop, findUp]
      split
      · rfl
      · exact ih (i + 1)

theorem allocPagesLoop_eq (n : Nat) (bm : PageBitmap) (count i : Nat) :
    allocPagesLoop n bm count i = match findUp (acceptsRun n bm) count i with
      | some p => (some (p <<< 12), allocRange bm p ((p + n) % 2 ^ 32))
      | none => (none, bm) := by
  induction count generalizing i with
  | zero => rfl
  | succ count ih =>
      rw [allocPagesLoop, findUp]
      split
      · rfl
      · exact ih (i + 1)

theorem initIdx_le_totalPages : initIdx + (totalPages - initIdx) = totalPages := by
  decide

/-- A search that is answered with a page has found the first index that passes. -/
theorem found_some {test : Nat → Bool} {mark : Nat → PageBitmap} {bm bm' : PageBitmap}
    {page : Nat}
    (h : (match findUp test (totalPages - initIdx) initIdx with
      | some p => (some (p <<< 12), mark p)
      | none => (none, bm)) = (some page, bm')) :
    ∃ i, IsFirst test initIdx totalPages i ∧ page = i * pageSize ∧ bm' = mark i := by
  cases hfind : findUp test (totalPages - initIdx) initIdx with
  | none => simp [hfind] at h
  | some i =>
      rw [hfind] at h
      simp only [Prod.mk.injEq, Option.some.injEq] at h
      rw [findUp_eq_some_iff, initIdx_le_totalPages] at hfind
      exact ⟨i, hfind, by rw [← h.1, Nat.shiftLeft_eq]; rfl, h.2.symm⟩

theorem found_none {test : Nat → Bool} {mark : Nat → PageBitmap} {bm bm' : PageBitmap}
    (h : (match findUp test (totalPages - initIdx) initIdx with
      | some p => (some (p <<< 12), mark p)
      | none => (none, bm)) = (none, bm')) :
    bm' = bm ∧ ∀ i, initIdx ≤ i → i < totalPages → test i = false := by
  cases hfind : findUp test (totalPages - initIdx) initIdx with
  | none =>
      rw [hfind] at h
      rw [findUp_eq_none_iff, initIdx_le_totalPages] at hfind
      exact ⟨(Prod.mk.inj h).2.symm, hfind⟩
  | some i => simp [hfind] at h

/-- `alloc_page` answers with the first free page and marks it. -/
theorem allocPage_some {bm bm' : PageBitmap} {page : Nat}
    (h : allocPage bm = (some page, bm')) :
    ∃ i, IsFirst (isPageFree bm) initIdx totalPages i ∧ page = i * pageSize ∧
      bm' = rawAllocPage bm i := by
  rw [allocPage, allocPageLoop_eq] at h
  exact found_some h

/-- `alloc_page` fails, changing nothing, when every page is marked. -/
theorem allocPage_none {bm bm' : PageBitmap} (h : allocPage bm = (none, bm')) :
    bm' = bm ∧ ∀ i, initIdx ≤ i → i < totalPages → isPageFree bm i = false := by
  rw [allocPage, allocPageLoop_eq] at h
  exact found_none h

/-- `alloc_pages` answers with the first index its test accepts. -/
theorem allocPages_some {n : Nat} {bm bm' : PageBitmap} {page : Nat}
    (h : allocPages n bm = (some page, bm')) :
    ∃ i, IsFirst (acceptsRun n bm) initIdx totalPages i ∧ page = i * pageSize ∧
      bm' = allocRange bm i ((i + n) % 2 ^ 32) := by
  rw [allocPages, allocPagesLoop_eq] at h
  exact found_some h

theorem allocPages_none {n : Nat} {bm bm' : PageBitmap}
    (h : allocPages n bm = (none, bm')) :
    bm' = bm ∧ ∀ i, initIdx ≤ i → i < totalPages → acceptsRun n bm i = false := by
  rw [allocPages, allocPagesLoop_eq] at h
  exact found_none h

/-- A run accepted at `init_idx` is the one that is handed out. -/
theorem allocPages_of_accepts {n : Nat} {bm : PageBitmap}
    (h : acceptsRun n bm initIdx = true) :
    allocPages n bm =
      (some (initIdx * pageSize), allocRange bm initIdx ((initIdx + n) % 2 ^ 32)) := by
  have hfirst : findUp (acceptsRun n bm) (totalPages - initIdx) initIdx = some initIdx := by
    rw [findUp_eq_some_iff, initIdx_le_totalPages]
    exact ⟨Nat.le_refl _, by decide, h, fun j h1 h2 => absurd h1 (Nat.not_le.mpr h2)⟩
  rw [allocPages, allocPagesLoop_eq, hfirst]
  rfl

theorem restIsFree_iff {bm : PageBitmap} {stop count j : Nat} :
    restIsFree bm stop count j = true ↔
      ∀ k, j ≤ k → k < j + count → k < totalPages → k < stop →
        marked bm k = false := by
  induction count generalizing j with
  | zero =>
      constructor
      · intro _ k h1 h2
        omega
      · intro _
        rfl
  | succ count ih =>
      rw [restIsFree]
      split
      · next hin =>
          cases hfree : isPageFree bm j with
          | false =>
              simp only [Bool.false_eq_true, if_false, false_iff]
              intro hall
              have hj := hall j (Nat.le_refl _) (by omega) hin.1 hin.2
              rw [← isPageFree_iff, hfree] at hj
              exact Bool.noConfusion hj
          | true =>
              rw [if_pos rfl, ih]
              constructor
              · intro hall k h1 h2 h3 h4
                rcases Nat.eq_or_lt_of_le h1 with rfl | h1
                · exact isPageFree_iff.mp hfree
                · exact hall k h1 (by omega) h3 h4
              · intro hall k h1 h2 h3 h4
                exact hall k (by omega) (by omega) h3 h4
      · next hout =>
          simp only [true_iff]
          intro k h1 h2 h3 h4
          omega

/-- What the test of `alloc_pages` means when the index sum does not wrap: the
last page is free, and so are those before it, as far as memory reaches. -/
theorem acceptsRun_iff {n i : Nat} {bm : PageBitmap} (hn : 1 ≤ n)
    (hi : i < totalPages) (hwrap : i + n < 2 ^ 32) :
    acceptsRun n bm i = true ↔ marked bm (i + n - 1) = false ∧
      ∀ k, i ≤ k → k < i + n → k < totalPages → marked bm k = false := by
  have hlast : (i + n + (2 ^ 32 - 1)) % 2 ^ 32 = i + n - 1 := by omega
  rw [acceptsRun, Bool.and_eq_true, Bool.and_eq_true, hlast, Nat.mod_eq_of_lt hwrap,
    isPageFree_iff, isPageFree_iff, restIsFree_iff]
  constructor
  · rintro ⟨⟨hfirst, hend⟩, hrest⟩
    refine ⟨hend, fun k h1 h2 h3 => ?_⟩
    rcases Nat.eq_or_lt_of_le h1 with rfl | h1
    · exact hfirst
    · exact hrest k h1 (by omega) h3 h2
  · rintro ⟨hend, hall⟩
    exact ⟨⟨hall i (Nat.le_refl _) (by omega) hi, hend⟩,
      fun k h1 _ h3 h4 => hall k (by omega) h4 h3⟩

/-- The first page of an accepted run is free, wrapped or not. -/
theorem marked_of_acceptsRun {n i : Nat} {bm : PageBitmap}
    (h : acceptsRun n bm i = true) : marked bm i = false := by
  rw [acceptsRun, Bool.and_eq_true, Bool.and_eq_true] at h
  exact isPageFree_iff.mp h.1.1

theorem userPagesAddr_eq : userPagesAddr = initIdx * pageSize := by decide

theorem not_lt_userPagesAddr {i : Nat} (hi : initIdx ≤ i) : ¬ i * pageSize < userPagesAddr := by
  rw [userPagesAddr_eq, Nat.not_lt]
  exact Nat.mul_le_mul_right _ hi

theorem pageIndex_eq (i : Nat) : (i * pageSize) >>> 12 = i := by
  rw [Nat.shiftRight_eq_div_pow]
  exact Nat.mul_div_cancel i (by decide)

/-- `free_page` on a page of the allocator clears its bit. -/
theorem marked_freePage {bm : PageBitmap} {i : Nat} (hi : initIdx ≤ i) (j : Nat) :
    marked (freePage (i * pageSize) bm) j = (marked bm j && decide (j ≠ i)) := by
  rw [freePage, if_neg (not_lt_userPagesAddr hi), pageIndex_eq, marked_rawFreePage]

/-- `free_pages` on a region of the allocator clears its bits, as far as the
index sum does not wrap. -/
theorem marked_freePages {bm : PageBitmap} {i n : Nat} (hi : initIdx ≤ i) (j : Nat) :
    marked (freePages (i * pageSize) n bm) j =
      (marked bm j && decide (¬ (i ≤ j ∧ j < (i + n) % 2 ^ 32))) := by
  have hrange := hasBit_clearRange (w := 32) (by decide) bm i ((i + n) % 2 ^ 32 - i) j
  rw [freePages, if_neg (not_lt_userPagesAddr hi), pageIndex_eq]
  simp only [rawFreePage_eq_clearBit]
  rw [marked, hrange]
  congr 1
  rw [decide_eq_decide]
  omega

/-! ## The tables -/

theorem pageTablesCount_eq : pageTablesCount = 32 := by decide

theorem pageTableAddr_eq : pageTableAddr = 0x301000 := by decide

/-- The tables are laid out right behind the directory. -/
theorem pageTableAddr_eq_directory_end : pageTableAddr = pageDirAddr + 4 * pageDirSize := by
  decide

/-- The entry of the directory for table `t`. -/
def dirEntry (t : Nat) : Nat := (pageTableAddr + t * pageSize) + 3

/-- Entry `i` of table `t`. -/
def tableEntry (t i : Nat) : Nat := (t * pageTableSize + i) * pageSize + 3

/-- The directory and the tables are those of the identity map. -/
structure TablesIntact (m : Memory) : Prop where
  dir : ∀ t, t < pageTablesCount → readWord m (pageDirAddr + 4 * t) = dirEntry t
  table : ∀ t i, t < pageTablesCount → i < pageTableSize →
    readWord m (pageTableAddr + t * pageSize + 4 * i) = tableEntry t i

/-- `a` is an address of the page directory or of a page table that
`paging_setup` writes. -/
def InTables (a : Nat) : Prop :=
  (pageDirAddr ≤ a ∧ a < pageDirAddr + 4 * pageDirSize) ∨
    ∃ t, t < pageTablesCount ∧ pageTableAddr + t * pageSize ≤ a ∧
      a < pageTableAddr + t * pageSize + 4 * pageTableSize

/-- The first address past the last page table. -/
def pageTablesEnd : Nat := pageTableAddr + pageTablesCount * pageSize

/-- The directory and the tables are one block of memory. -/
theorem inTables_iff {a : Nat} :
    InTables a ↔ pageDirAddr ≤ a ∧ a < pageTablesEnd := by
  simp only [InTables, pageTablesEnd, pageTableAddr_eq, pageTablesCount_eq, pageDirAddr,
    pageDirSize, pageSize, pageTableSize]
  constructor
  · rintro (h | ⟨t, ht, hlo, hhi⟩)
    · omega
    · omega
  · rintro ⟨hlo, hhi⟩
    by_cases hdir : a < 0x301000
    · exact Or.inl (by omega)
    · exact Or.inr ⟨(a - 0x301000) / 4096, by omega, by omega, by omega⟩

theorem TablesIntact.congr {m m' : Memory} (h : TablesIntact m)
    (hsame : ∀ a, InTables a → m' a = m a) : TablesIntact m' where
  dir := by
    intro t ht
    rw [← h.dir t ht]
    refine readWord_congr fun b hlo hhi => hsame b (Or.inl ?_)
    simp only [pageTablesCount_eq, pageDirSize] at ht ⊢
    omega
  table := by
    intro t i ht hi
    rw [← h.table t i ht hi]
    refine readWord_congr fun b hlo hhi => hsame b (Or.inr ⟨t, ht, ?_⟩)
    simp only [pageTableSize] at *
    omega

/-- Setting the two low bits of a multiple of four is adding three. -/
theorem or_three (a : Nat) : 4 * a ||| 3 = 4 * a + 3 :=
  (Nat.two_pow_add_eq_or_of_lt (i := 2) (b := 3) (by decide) a).symm

theorem dirEntry_eq (t : Nat) : (pageTableAddr + t * pageSize) ||| 3 = dirEntry t := by
  have hfour : pageTableAddr + t * pageSize = 4 * (0xc0400 + t * 1024) := by
    simp only [pageTableAddr_eq, pageSize]
    omega
  rw [dirEntry, hfour, or_three]

theorem tableEntry_eq (t i : Nat) :
    (t * pageTableSize * pageSize + i * pageSize) ||| 3 = tableEntry t i := by
  have hfour : t * pageTableSize * pageSize + i * pageSize =
      4 * ((t * 1024 + i) * 1024) := by
    simp only [pageSize, pageTableSize]
    omega
  have hentry : (t * pageTableSize + i) * pageSize =
      4 * ((t * 1024 + i) * 1024) := by
    simp only [pageSize, pageTableSize]
    omega
  rw [tableEntry, hfour, hentry, or_three]

theorem dirEntry_lt {t : Nat} (ht : t < pageTablesCount) : dirEntry t < 2 ^ 32 := by
  simp only [dirEntry, pageTableAddr_eq, pageTablesCount_eq, pageSize] at *
  omega

theorem tableEntry_lt {t i : Nat} (ht : t < pageTablesCount) (hi : i < pageTableSize) :
    tableEntry t i < 2 ^ 32 := by
  simp only [tableEntry, pageTablesCount_eq, pageSize, pageTableSize] at *
  omega

/-- The loop that fills one table: its entries, and nothing outside the table. -/
theorem fillTable_spec {t : Nat} (ht : t < pageTablesCount) (m : Memory) :
    let m' := forLoop (fun i mem => writeWord mem (pageTableAddr + t * pageSize + 4 * i)
      ((t * pageTableSize * pageSize + i * pageSize) ||| 3)) 0 pageTableSize m
    (∀ i, i < pageTableSize →
      readWord m' (pageTableAddr + t * pageSize + 4 * i) = tableEntry t i) ∧
    ∀ b, b < pageTableAddr + t * pageSize ∨ pageTableAddr + (t + 1) * pageSize ≤ b →
      m' b = m b := by
  have hloop := forLoop_invariant
    (fun n mem => (∀ i, i < n →
        readWord mem (pageTableAddr + t * pageSize + 4 * i) = tableEntry t i) ∧
      ∀ b, b < pageTableAddr + t * pageSize ∨ pageTableAddr + (t + 1) * pageSize ≤ b →
        mem b = m b)
    (f := fun i mem => writeWord mem (pageTableAddr + t * pageSize + 4 * i)
      ((t * pageTableSize * pageSize + i * pageSize) ||| 3))
    pageTableSize 0 m ⟨fun i hi => absurd hi (Nat.not_lt_zero i), fun _ _ => rfl⟩ ?_
  · rwa [Nat.zero_add] at hloop
  · rintro i mem - hi ⟨hold, hframe⟩
    rw [Nat.zero_add] at hi
    refine ⟨fun j hj => ?_, fun b hb => ?_⟩
    · rcases Nat.lt_succ_iff_lt_or_eq.mp hj with hj | rfl
      · rw [readWord_writeWord_of_disjoint (by omega), hold j hj]
      · rw [readWord_writeWord_same, tableEntry_eq, Nat.mod_eq_of_lt (tableEntry_lt ht hi)]
    · have hpage : pageTableAddr + (t + 1) * pageSize =
          pageTableAddr + t * pageSize + 4 * pageTableSize := by
        simp only [pageSize, pageTableSize]
        omega
      rw [writeWord_of_outside (by omega), hframe b hb]

/-- What `setupTable` leaves: the table, its directory entry, and the rest of
memory as it was. -/
theorem setupTable_spec {t : Nat} (ht : t < pageTablesCount) (m : Memory) :
    readWord (setupTable t m) (pageDirAddr + 4 * t) = dirEntry t ∧
    (∀ i, i < pageTableSize →
      readWord (setupTable t m) (pageTableAddr + t * pageSize + 4 * i) =
        tableEntry t i) ∧
    ∀ b, (b < pageDirAddr + 4 * t ∨ pageDirAddr + 4 * t + 4 ≤ b) →
      (b < pageTableAddr + t * pageSize ∨ pageTableAddr + (t + 1) * pageSize ≤ b) →
        setupTable t m b = m b := by
  obtain ⟨hfill, hframe⟩ := fillTable_spec ht m
  have hbelow : pageDirAddr + 4 * t + 4 ≤ pageTableAddr := by
    rw [pageTableAddr_eq_directory_end, pageDirSize]
    rw [pageTablesCount_eq] at ht
    omega
  refine ⟨?_, fun i hi => ?_, fun b hdir htable => ?_⟩
  · rw [setupTable, readWord_writeWord_same, dirEntry_eq, Nat.mod_eq_of_lt (dirEntry_lt ht)]
  · rw [setupTable, readWord_writeWord_of_disjoint (by omega)]
    exact hfill i hi
  · rw [setupTable, writeWord_of_outside hdir]
    exact hframe b htable

/-- The loop of `paging_setup` that makes the directory "not present" touches
the directory only. -/
theorem clearDirectory_frame (m : Memory) {b : Nat}
    (hb : b < pageDirAddr ∨ pageTableAddr ≤ b) :
    forLoop (fun i mem => writeWord mem (pageDirAddr + 4 * i) 0x2) 0 pageDirSize m b =
      m b := by
  refine forLoop_invariant (fun _ mem => mem b = m b) pageDirSize 0 m rfl ?_
  intro i mem _ hi hmem
  rw [pageTableAddr_eq_directory_end] at hb
  rw [writeWord_of_outside (by omega), hmem]

/-- All the tables, and nothing outside directory and tables. -/
theorem setupTables_spec (m : Memory) :
    TablesIntact (forLoop setupTable 0 pageTablesCount m) ∧
      ∀ b, ¬ InTables b → forLoop setupTable 0 pageTablesCount m b = m b := by
  have hsizes : pageTableAddr = pageDirAddr + 0x1000 ∧ pageTablesCount = 32 :=
    ⟨rfl, pageTablesCount_eq⟩
  have hloop := forLoop_invariant
    (fun n mem =>
      (∀ t, t < n → readWord mem (pageDirAddr + 4 * t) = dirEntry t) ∧
      (∀ t i, t < n → i < pageTableSize →
        readWord mem (pageTableAddr + t * pageSize + 4 * i) = tableEntry t i) ∧
      ∀ b, ¬ InTables b → mem b = m b)
    (f := setupTable) pageTablesCount 0 m
    ⟨fun t ht => absurd ht (Nat.not_lt_zero t),
      fun t i ht => absurd ht (Nat.not_lt_zero t), fun _ _ => rfl⟩ ?_
  · rw [Nat.zero_add] at hloop
    obtain ⟨hdir, htable, hframe⟩ := hloop
    exact ⟨⟨hdir, htable⟩, hframe⟩
  · rintro n mem - hn ⟨hdir, htable, hframe⟩
    rw [Nat.zero_add] at hn
    obtain ⟨hnewdir, hnewtable, hnewframe⟩ := setupTable_spec hn mem
    simp only [pageTableSize, pageSize] at htable hnewtable hnewframe ⊢
    refine ⟨fun t ht => ?_, fun t i ht hi => ?_, fun b hb => ?_⟩
    · rcases Nat.lt_succ_iff_lt_or_eq.mp ht with ht | rfl
      · rw [← hdir t ht]
        exact readWord_congr fun b _ _ => hnewframe b (by omega) (by omega)
      · exact hnewdir
    · rcases Nat.lt_succ_iff_lt_or_eq.mp ht with ht | rfl
      · rw [← htable t i ht hi]
        exact readWord_congr fun b _ _ => hnewframe b (by omega) (by omega)
      · exact hnewtable i hi
    · rw [← hframe b hb]
      rw [inTables_iff] at hb
      simp only [pageTablesEnd, pageSize] at hb
      exact hnewframe b (by omega) (by omega)

/-- `paging_setup` writes the identity map. -/
theorem tablesIntact_pagingSetup (s : PageState) : TablesIntact (pagingSetup s).mem :=
  (setupTables_spec _).1

/-- `paging_setup` writes no memory but the directory and the tables. -/
theorem pagingSetup_mem_of_not_inTables (s : PageState) {a : Nat} (ha : ¬ InTables a) :
    (pagingSetup s).mem a = s.mem a := by
  have hout := mt inTables_iff.mpr ha
  have hend : pageTableAddr ≤ pageTablesEnd := by decide
  exact ((setupTables_spec _).2 a ha).trans (clearDirectory_frame _ (by omega))

/-- `paging_setup` marks the pages below `init_idx` and leaves the others as they were:
its clearing loop reaches eight words, and those hold reserved pages only. -/
theorem marked_pagingSetup (s : PageState) (i : Nat) :
    marked (pagingSetup s).pageBitmap i = (marked s.pageBitmap i || decide (i < initIdx)) := by
  have hrange := hasBit_setRange (w := 32) (by decide)
    (forLoop (fun i bm => Function.update bm i 0#32) 0 (totalPages / pageSize)
      s.pageBitmap) 0 initIdx i
  rw [Nat.zero_add, hasBit_zeroWords] at hrange
  simp only [Nat.zero_le, true_and] at hrange
  have hsetup : marked (pagingSetup s).pageBitmap i =
      (hasBit s.pageBitmap i && decide (¬ i / 32 < 0 + totalPages / pageSize) ||
        decide (i < initIdx)) := by
    rw [marked, ← hrange, pagingSetup]
    simp only [rawAllocPage_eq_setBit, initIdx]
  rw [hsetup, marked]
  have hbounds : totalPages / pageSize = 8 ∧ initIdx = 800 := by decide
  rw [hbounds.1, hbounds.2]
  by_cases hi : i < 800
  · simp [hi]
  · have hword : ¬ i / 32 < 0 + 8 := by omega
    rw [decide_eq_true hword, Bool.and_true]

/-- Where the bitmap was clear, exactly the pages below `init_idx` are marked. -/
theorem marked_pagingSetup_of_zero {s : PageState}
    (hzero : ∀ j, j < totalPages / 32 → s.pageBitmap j = 0#32) {i : Nat}
    (hi : i < totalPages) :
    marked (pagingSetup s).pageBitmap i = decide (i < initIdx) := by
  have hsize : totalPages = 32768 := by decide
  have hword : i / 32 < totalPages / 32 := by omega
  rw [marked_pagingSetup, marked, hasBit, hzero _ hword, BitVec.getLsbD_zero, Bool.false_or]

/-- The frame an entry points to. -/
theorem frame_entry (q : Nat) : (q * pageSize + 3) / 2 ^ 12 * 2 ^ 12 = q * pageSize := by
  simp only [pageSize]
  omega

/-- An entry is present and writable. -/
theorem flags_entry (q : Nat) :
    (q * pageSize + 3) % 2 = 1 ∧ (q * pageSize + 3) / 2 % 2 = 1 := by
  simp only [pageSize]
  omega

/-- With the tables intact every address of memory is mapped to itself,
writable. -/
theorem translate_of_tablesIntact {m : Memory} (h : TablesIntact m) {a : Nat}
    (ha : a < totalMemorySize) : translate m pageDirAddr a = some ⟨a, true⟩ := by
  have hdirIdx : a / 2 ^ 22 < pageTablesCount := by
    simp only [totalMemorySize, pageTablesCount_eq] at ha ⊢
    omega
  have htableIdx : a / 2 ^ 12 % 2 ^ 10 < pageTableSize := Nat.mod_lt _ (by decide)
  have hpde : readWord m (pageDirAddr + 4 * (a / 2 ^ 22)) =
      (0x301 + a / 2 ^ 22) * pageSize + 3 := by
    rw [h.dir _ hdirIdx, dirEntry, Nat.add_mul]
    rfl
  have hpte : readWord m ((0x301 + a / 2 ^ 22) * pageSize +
      4 * (a / 2 ^ 12 % 2 ^ 10)) = a / 2 ^ 12 * pageSize + 3 := by
    have hindex : a / 2 ^ 22 * pageTableSize + a / 2 ^ 12 % 2 ^ 10 = a / 2 ^ 12 := by
      rw [show a / 2 ^ 22 = a / 2 ^ 12 / 2 ^ 10 by
        rw [Nat.div_div_eq_div_mul, ← Nat.pow_add]]
      exact Nat.div_add_mod' _ _
    rw [← hindex, ← tableEntry, ← h.table _ _ hdirIdx htableIdx, Nat.add_mul, hindex]
    rfl
  rw [translate]
  simp only [hpde, frame_entry, hpte, flags_entry]
  rw [if_neg (by decide), if_neg (by decide)]
  exact congrArg (fun b => some (⟨b, true⟩ : Mapping)) (Nat.div_add_mod' a (2 ^ 12))

end DonutOS.Kernel
