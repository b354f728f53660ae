import DonutOS.Foundation.Loop
import DonutOS.Foundation.Memory
import Mathlib.Logic.Function.Basic

set_option autoImplicit false

/-!
# Kernel: paging and the page allocator (`kernel/src/paging.c`)

`paging_setup` writes a page directory and its page tables into physical memory
and reserves the low pages in `page_bitmap`, one bit a page; the allocator
searches and edits that bitmap.  `size_t` is 32 bits wide, so the index sums of
the source are taken modulo `2 ^ 32` here as well.
-/

namespace DonutOS.Kernel

open DonutOS.Foundation

/-! ## The macros of `paging.h` -/

/-- `PAGE_DIR_SIZE`. -/
def pageDirSize : Nat := 1024

/-- `PAGE_TABLE_SIZE`. -/
def pageTableSize : Nat := 1024

/-- `PAGE_DIR_ADDR`. -/
def pageDirAddr : Nat := 0x00300000

/-- `PAGE_TABLE_ADDR`. -/
def pageTableAddr : Nat := pageDirAddr + 0x1000

/-- `PAGE_SIZE`. -/
def pageSize : Nat := 0x1000

/-- `TOTAL_MEMORY_SIZE`. -/
def totalMemorySize : Nat := 128 * 1024 * 1024

/-- `PAGE_TABLES_COUNT`. -/
def pageTablesCount : Nat := totalMemorySize / (pageSize * pageTableSize)

/-- `USER_PAGES_ADDR`. -/
def userPagesAddr : Nat := pageDirAddr + pageTablesCount * pageSize

/-- `TOTAL_PAGES`. -/
def totalPages : Nat := totalMemorySize / pageSize

/-- `init_idx`. -/
def initIdx : Nat := userPagesAddr / pageSize

/-! ## The bitmap -/

/-- `page_bitmap`, by word index.  The array has `TOTAL_PAGES / 32` words; the
words past them are whatever memory follows it. -/
abbrev PageBitmap := Nat → Word

/-- `__alloc_page`. -/
def rawAllocPage (bm : PageBitmap) (bit : Nat) : PageBitmap :=
  Function.update bm (bit >>> 5) (bm (bit >>> 5) ||| 1#32 <<< (bit &&& 31))

/-- `__free_page`. -/
def rawFreePage (bm : PageBitmap) (bit : Nat) : PageBitmap :=
  Function.update bm (bit >>> 5) (bm (bit >>> 5) &&& ~~~(1#32 <<< (bit &&& 31)))

/-- `__is_page_free`. -/
def isPageFree (bm : PageBitmap) (bit : Nat) : Bool :=
  (bm (bit >>> 5) &&& 1#32 <<< (bit &&& 31)) == 0#32

/-! ## Setting up the tables -/

/-- The state of the paging code: physical memory, the bitmap, and the control
registers `paging_init` loads. -/
structure PageState where
  mem : Memory
  pageBitmap : PageBitmap
  cr0 : Word
  cr3 : Nat

/-- The page table loop of `paging_setup` for one `table_index`, and the
directory entry that points to the table. -/
def setupTable (tableIndex : Nat) (mem : Memory) : Memory :=
  let pageTable := pageTableAddr + tableIndex * pageSize
  let mem := forLoop (fun i mem => writeWord mem (pageTable + 4 * i)
    ((tableIndex * pageTableSize * pageSize + i * pageSize) ||| 3)) 0 pageTableSize mem
  writeWord mem (pageDirAddr + 4 * tableIndex) (pageTable ||| 3)

/-- `paging_setup`. -/
def pagingSetup (s : PageState) : PageState :=
  let mem := forLoop (fun i mem => writeWord mem (pageDirAddr + 4 * i) 0x2) 0
    pageDirSize s.mem
  let mem := forLoop setupTable 0 pageTablesCount mem
  let bm := forLoop (fun i bm => Function.update bm i 0#32) 0 (totalPages / pageSize)
    s.pageBitmap
  let bm := forLoop (fun i bm => rawAllocPage bm i) 0 (userPagesAddr / pageSize) bm
  { s with mem := mem, pageBitmap := bm }

/-- `paging_init`. -/
def pagingInit (s : PageState) : PageState :=
  let s := pagingSetup s
  { s with cr3 := pageDirAddr, cr0 := s.cr0 ||| 1#32 <<< 31 }

/-! ## The allocator

Pointers to pages are addresses; `none` is `NULL`. -/

/-- The loop of `alloc_page`: `count` rounds from index `i` on. -/
def allocPageLoop (bm : PageBitmap) : Nat → Nat → Option Nat × PageBitmap
  | 0, _ => (none, bm)
  | count + 1, i =>
      if isPageFree bm i then (some (i <<< 12), rawAllocPage bm i)
      else allocPageLoop bm count (i + 1)

/-- `alloc_page`. -/
def allocPage (bm : PageBitmap) : Option Nat × PageBitmap :=
  allocPageLoop bm (totalPages - initIdx) initIdx

/-- The inner check loop of `alloc_pages` from index `j` to `stop`, the value of
`i + n`; the answer is the flag `b` it leaves. -/
def restIsFree (bm : PageBitmap) (stop : Nat) : Nat → Nat → Bool
  | 0, _ => true
  | count + 1, j =>
      if j < totalPages ∧ j < stop then
        if isPageFree bm j then restIsFree bm stop count (j + 1) else false
      else true

/-- The test `alloc_pages` makes at index `i`: the end pages first, then the
pages between. -/
def acceptsRun (n : Nat) (bm : PageBitmap) (i : Nat) : Bool :=
  isPageFree bm i && isPageFree bm ((i + n + (2 ^ 32 - 1)) % 2 ^ 32) &&
    restIsFree bm ((i + n) % 2 ^ 32) totalPages (i + 1)

/-- The marking loop of `alloc_pages`, from `i` to `stop`. -/
def allocRange (bm : PageBitmap) (i stop : Nat) : PageBitmap :=
  forLoop (fun j bm => rawAllocPage bm j) i (stop - i) bm

/-- The outer loop of `alloc_pages`. -/
def allocPagesLoop (n : Nat) (bm : PageBitmap) : Nat → Nat → Option Nat × PageBitmap
  | 0, _ => (none, bm)
  | count + 1, i =>
      if acceptsRun n bm i then
        (some (i <<< 12), allocRange bm i ((i + n) % 2 ^ 32))
      else allocPagesLoop n bm count (i + 1)

/-- `alloc_pages`. -/
def allocPages (n : Nat) (bm : PageBitmap) : Option Nat × PageBitmap :=
  allocPagesLoop n bm (totalPages - initIdx) initIdx

/-- `free_page`. -/
def freePage (page : Nat) (bm : PageBitmap) : PageBitmap :=
  if page < userPagesAddr then bm else rawFreePage bm (page >>> 12)

/-- `free_pages`. -/
def freePages (page n : Nat) (bm : PageBitmap) : PageBitmap :=
  if page < userPagesAddr then bm
  else
    let idx := page >>> 12
    forLoop (fun i bm => rawFreePage bm i) idx ((idx + n) % 2 ^ 32 - idx) bm

/-! ## Address translation

The two-level walk of the processor: bits 22 to 31 index the directory at
`CR3`, bits 12 to 21 the page table; bit 0 of an entry is "present", bit 1
"writable". -/

/-- Where a linear address is mapped, and whether it may be written. -/
structure Mapping where
  phys : Nat
  writable : Bool
  deriving DecidableEq, Repr

/-- The two-level walk from the directory at `dir`. -/
def translate (m : Memory) (dir a : Nat) : Option Mapping :=
  let pde := readWord m (dir + 4 * (a / 2 ^ 22))
  if pde % 2 = 0 then none
  else
    let pte := readWord m (pde / 2 ^ 12 * 2 ^ 12 + 4 * (a / 2 ^ 12 % 2 ^ 10))
    if pte % 2 = 0 then none
    else some ⟨pte / 2 ^ 12 * 2 ^ 12 + a % 2 ^ 12,
      pde / 2 % 2 == 1 && pte / 2 % 2 == 1⟩

end DonutOS.Kernel
