import DonutOS.Kernel.PagingSpec

set_option autoImplicit false

/-!
# Kernel: what `paging_setup` leaves (`kernel/src/paging.c`)

The tables map the memory of the machine to itself and nothing else, whatever memory
held before.  The bitmap is another matter: the loop that clears it counts words but
is bounded by a number of pages divided by the size of a page.
-/

namespace DonutOS.Kernel

open DonutOS.Foundation

/-! ## The map -/

/-- The first loop of `paging_setup` writes "not present" into each entry. -/
theorem readWord_clearDirectory (m : Memory) {t : Nat} (ht : t < pageDirSize) :
    readWord (forLoop (fun i mem => writeWord mem (pageDirAddr + 4 * i) 0x2) 0 pageDirSize m)
      (pageDirAddr + 4 * t) = 2 := by
  have hloop := forLoop_invariant
    (fun n mem => ∀ t, t < n → readWord mem (pageDirAddr + 4 * t) = 2)
    (f := fun i mem => writeWord mem (pageDirAddr + 4 * i) 0x2) pageDirSize 0 m
    (fun t ht => absurd ht (Nat.not_lt_zero t)) ?_
  · rw [Nat.zero_add] at hloop
    exact hloop t ht
  · intro i mem _ _ hmem t ht
    rcases Nat.lt_succ_iff_lt_or_eq.mp ht with ht | rfl
    · rw [readWord_writeWord_of_disjoint (by omega), hmem t ht]
    · exact readWord_writeWord_same _ _ _

/-- The tables leave the entries alone that none of them has. -/
theorem readWord_setupTables (m : Memory) {t : Nat} (hge : pageTablesCount ≤ t)
    (hlt : t < pageDirSize) :
    readWord (forLoop setupTable 0 pageTablesCount m) (pageDirAddr + 4 * t) =
      readWord m (pageDirAddr + 4 * t) := by
  refine forLoop_invariant
    (fun _ mem => readWord mem (pageDirAddr + 4 * t) = readWord m (pageDirAddr + 4 * t))
    pageTablesCount 0 m rfl ?_
  intro i mem _ hi hmem
  rw [Nat.zero_add] at hi
  rw [← hmem]
  obtain ⟨-, -, hframe⟩ := setupTable_spec hi mem
  rw [pageTableAddr_eq_directory_end] at hframe
  exact readWord_congr fun b hlo hhi => hframe b (by omega) (by omega)

/-- The entries behind the last table are those of the first loop. -/
theorem readWord_pagingSetup (s : PageState) {t : Nat} (hge : pageTablesCount ≤ t)
    (hlt : t < pageDirSize) : readWord (pagingSetup s).mem (pageDirAddr + 4 * t) = 2 :=
  (readWord_setupTables _ hge hlt).trans (readWord_clearDirectory s.mem hlt)

/-- After `paging_setup` the walk maps every address of memory to itself, writable,
and ends in the directory for every other one. -/
theorem translate_pagingSetup (s : PageState) (a : Nat) (ha : a < 2 ^ 32) :
    (a < totalMemorySize → translate (pagingSetup s).mem pageDirAddr a = some ⟨a, true⟩) ∧
      (totalMemorySize ≤ a →
        readWord (pagingSetup s).mem (pageDirAddr + 4 * (a / 2 ^ 22)) % 2 = 0 ∧
          translate (pagingSetup s).mem pageDirAddr a = none) := by
  constructor
  · exact translate_of_tablesIntact (tablesIntact_pagingSetup s)
  · intro hge
    have hentry : readWord (pagingSetup s).mem (pageDirAddr + 4 * (a / 2 ^ 22)) = 2 := by
      apply readWord_pagingSetup
      · rw [pageTablesCount_eq]
        simp only [totalMemorySize] at hge
        omega
      · simp only [pageDirSize]
        omega
    have hnot : readWord (pagingSetup s).mem (pageDirAddr + 4 * (a / 2 ^ 22)) % 2 = 0 := by
      rw [hentry]
    exact ⟨hnot, if_pos hnot⟩

theorem translate_pagingSetup_video :
    (0xb8000 < totalMemorySize →
      translate (pagingSetup ⟨fun _ => 0xff, fun _ => 0, 0, 0⟩).mem pageDirAddr 0xb8000 =
        some ⟨0xb8000, true⟩) ∧
      (totalMemorySize ≤ 0xb8000 →
        readWord (pagingSetup ⟨fun _ => 0xff, fun _ => 0, 0, 0⟩).mem
          (pageDirAddr + 4 * (0xb8000 / 2 ^ 22)) % 2 = 0 ∧
          translate (pagingSetup ⟨fun _ => 0xff, fun _ => 0, 0, 0⟩).mem pageDirAddr 0xb8000 =
            none) :=
  translate_pagingSetup _ 0xb8000 (by decide)

/-! ## The bitmap -/

/-- `paging_setup` leaves exactly the reserved pages marked just when no user page was
marked before. -/
theorem marked_pagingSetup_iff (s : PageState) :
    (∀ i, i < totalPages →
      (marked (pagingSetup s).pageBitmap i = true ↔ i < userPagesAddr / pageSize)) ↔
      ∀ i, userPagesAddr / pageSize ≤ i → i < totalPages → marked s.pageBitmap i = false := by
  rw [← initIdx]
  constructor
  · intro h i hge hi
    have hnot := mt (h i hi).mp (Nat.not_lt.mpr hge)
    rw [marked_pagingSetup, Bool.or_eq_true, not_or] at hnot
    exact Bool.eq_false_iff.mpr hnot.1
  · intro h i hi
    rw [marked_pagingSetup, Bool.or_eq_true, decide_eq_true_eq]
    constructor
    · rintro (hmarked | hlt)
      · by_contra hge
        rw [h i (Nat.le_of_not_lt hge) hi] at hmarked
        exact Bool.noConfusion hmarked
      · exact hlt
    · exact Or.inr

/-- With all bits set before, the first user page stays marked. -/
theorem not_marked_pagingSetup_iff :
    ¬ ∀ s : PageState, ∀ i, i < totalPages →
      (marked (pagingSetup s).pageBitmap i = true ↔ i < userPagesAddr / pageSize) := by
  intro hall
  have hfirst := hall ⟨fun _ => 0, fun _ => BitVec.allOnes 32, 0, 0⟩ initIdx (by decide)
  rw [marked_pagingSetup, marked, hasBit, BitVec.getLsbD_allOnes,
    decide_eq_true (Nat.mod_lt initIdx (by decide)), Bool.true_or] at hfirst
  exact absurd (hfirst.mp rfl) (Nat.lt_irrefl initIdx)

end DonutOS.Kernel
