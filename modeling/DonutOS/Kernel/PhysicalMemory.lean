import DonutOS.Kernel.PagingRuns
import DonutOS.Kernel.Rtl8139
import DonutOS.Libc.HeapRuns

set_option autoImplicit false

/-!
# Kernel: two allocators in one physical memory

`init_os` starts the heap, lets two drivers allocate their buffers, and sets up
paging; from then on `malloc` and the page allocator serve their clients in the
same memory, and neither knows of the other.  The heap runs from `0x100000` to
`0xf00000`, the tables and the user pages start at `0x300000`: nothing but the
requests themselves keeps a block away from them.
-/

namespace DonutOS.Kernel

open DonutOS.Foundation DonutOS.Libc

/-! ## The machine -/

/-- Physical memory with both allocators, and what their clients hold. -/
structure MemoryState where
  pages : PageState
  memoryUsed : Nat
  blocks : List Block
  regions : List Region

/-- The heap's view of the machine. -/
def MemoryState.heapOf (s : MemoryState) : HeapState :=
  ⟨⟨s.pages.mem, s.memoryUsed⟩, s.blocks⟩

/-- The page allocator's view of the machine. -/
def MemoryState.pagerOf (s : MemoryState) : PagerState := ⟨s.pages, s.regions⟩

/-- The machine after the heap's part of it changed. -/
def MemoryState.withHeap (s : MemoryState) (t : HeapState) : MemoryState :=
  { s with
    pages := { s.pages with mem := t.heap.mem }
    memoryUsed := t.heap.memoryUsed
    blocks := t.live }

/-- The machine after the page allocator's part of it changed. -/
def MemoryState.withPager (s : MemoryState) (t : PagerState) : MemoryState :=
  { s with pages := t.pages, regions := t.live }

/-- What happens to the machine. -/
inductive MemoryCall
  | heap (call : HeapCall)
  | pager (call : PagerCall)

/-- A step of either allocator, or of one of its clients. -/
inductive MemoryStep : MemoryState → MemoryCall → MemoryState → Prop
  | heap {s : MemoryState} {call : HeapCall} {t : HeapState}
      (hstep : HeapStep s.heapOf call t) : MemoryStep s (.heap call) (s.withHeap t)
  | pager {s : MemoryState} {call : PagerCall} {t : PagerState}
      (hstep : PagerStep s.pagerOf call t) : MemoryStep s (.pager call) (s.withPager t)

/-! ## `init_os` -/

/-- `sizeof(pci_device_t)`. -/
def sizeofPciDevice : Nat := 36

/-- The requests of `pci_scan_bus` and `rtl8139_init`, in their order. -/
def bootRequests (devicesSize : Nat) : List Nat :=
  [sizeofPciDevice * devicesSize, rxTotalBufferSize, 256 * sizeofEthernetHeader]

/-- Requests made one after another. -/
def mallocs : List Nat → HeapState → Option HeapState
  | [], s => some s
  | size :: sizes, s =>
      match malloc s.heap size with
      | none => none
      | some (h, answer) => mallocs sizes ⟨h, grant size s.live answer⟩

/-- `init_os`, as far as it concerns memory, with `devicesSize` devices on the
bus: `heap_init`, the drivers' buffers, `paging_init`. -/
def initOs (devicesSize : Nat) (pages : PageState) : Option MemoryState :=
  (mallocs (bootRequests devicesSize) (heapStart pages.mem)).map fun s =>
    ⟨pagingInit { pages with mem := s.heap.mem }, s.heap.memoryUsed, s.live, []⟩

/-! ## What must not happen -/

/-- Address `a` belongs to the block, its header included. -/
def Block.Covers (b : Block) (a : Nat) : Prop :=
  b.ptr - sizeofAllocHeader ≤ a ∧ a < b.ptr + b.size

/-- No block overlaps the directory, a table, or a region handed out; no region
overlaps the directory or a table; the identity map is intact. -/
structure MemoryApart (s : MemoryState) : Prop where
  tables : ∀ b ∈ s.blocks, ∀ a, Block.Covers b a → ¬ InTables a
  regions : ∀ b ∈ s.blocks, ∀ r ∈ s.regions, ∀ a, Block.Covers b a → ¬ r.Reaches a
  pager : TablesApart s.pagerOf

/-- The condition on a call of the heap, read in the state before it: `malloc`'s
sum does not wrap past zero, and if any hole is long enough for the request then
one lies so low that block and next header end below the page directory. -/
def HoleBelowTables (s : HeapState) : HeapCall → Prop
  | .malloc size => size + sizeofAllocHeader ≤ 2 ^ 32 ∧
      ∀ cs, WellFormed s.heap.mem cs →
        (∀ hole ∈ holes heapPtr cs, hole.2 ≤ size + sizeofAllocHeader) ∨
          ∃ hole ∈ holes heapPtr cs, size + sizeofAllocHeader < hole.2 ∧
            hole.1 + (size + sizeofAllocHeader) + sizeofAllocHeader ≤ pageDirAddr
  | _ => True

/-- The condition on a call of the page allocator: it misses the tables, and is
not answered with pages that go round the 32-bit address space into the heap. -/
def MissesHeap (s : PagerState) (call : PagerCall) : Prop :=
  MissesTables s call ∧ match call with
    | .allocPages n =>
        ∀ i, IsFirst (acceptsRun n s.pages.pageBitmap) initIdx totalPages i →
          i * pageSize + n * pageSize ≤ 2 ^ 32 + heapPtr
    | _ => True

/-- The condition on a call of either allocator. -/
def KeepsApart (s : MemoryState) : MemoryCall → Prop
  | .heap call => HoleBelowTables s.heapOf call
  | .pager call => MissesHeap s.pagerOf call

/-! ## The heap below the tables -/

/-- A sound heap whose headers and used chunks lie below the page directory. -/
structure HeapLow (cs : List Chunk) (s : HeapState) : Prop where
  inv : HeapInv cs s
  starts : ∀ x ∈ spans heapPtr cs, x.1 + sizeofAllocHeader ≤ pageDirAddr
  ends : ∀ x ∈ spans heapPtr cs, x.2.free = false → x.1 + x.2.size ≤ pageDirAddr

/-- Memory changed nowhere in the heap below the tables. -/
def SameBelowTables (m m' : Memory) : Prop :=
  ∀ a, heapPtr ≤ a → a < pageDirAddr → m' a = m a

theorem HeapLow.covers_bounds {cs : List Chunk} {s : HeapState} (h : HeapLow cs s)
    {b : Block} (hb : b ∈ s.live) {a : Nat} (ha : Block.Covers b a) :
    heapPtr ≤ a ∧ a < pageDirAddr := by
  obtain ⟨c, hc, hused, hroom⟩ := h.inv.liveUsed b hb
  have hptr := h.inv.ptr_ge hb
  have hend := h.ends _ hc hused
  obtain ⟨hlo, hhi⟩ := ha
  simp only [sizeofAllocHeader] at *
  omega

theorem HeapLow.inHeader_bounds {cs : List Chunk} {s : HeapState} (h : HeapLow cs s)
    {b : Nat} (hb : InHeader heapPtr cs b) : heapPtr ≤ b ∧ b < pageDirAddr := by
  obtain ⟨x, hx, hlo, hhi⟩ := hb
  have := h.starts x hx
  have := (mem_spans_bounds hx).1
  omega

/-- The heap survives every change of memory outside it. -/
theorem HeapLow.congr {cs : List Chunk} {s : HeapState} (h : HeapLow cs s)
    {heap : Heap} (hsame : SameBelowTables s.heap.mem heap.mem) :
    HeapLow cs ⟨heap, s.live⟩ where
  inv := by
    refine ⟨⟨?_, h.inv.wellFormed.size_ge⟩, h.inv.liveUsed, h.inv.usedLive,
      h.inv.distinct⟩
    refine h.inv.wellFormed.tiles.congr fun x hx => header_congr fun b hlo hhi => ?_
    have hbounds := h.inHeader_bounds ⟨x, hx, hlo, hhi⟩
    exact hsame b hbounds.1 hbounds.2
  starts := h.starts
  ends := h.ends

/-- The used chunk made for a request is at most one header longer. -/
theorem placedSize_le {hdr need run : Nat} (h : need < run) :
    placedSize hdr need run ≤ need + hdr := by
  unfold placedSize
  split <;> omega

theorem HoleBelowTables.end_le {cs : List Chunk} {s : HeapState} {size : Nat}
    {hole : Nat × Nat} (h : HoleBelowTables s (.malloc size))
    (hwf : WellFormed s.heap.mem cs)
    (hfit : firstFit (size + sizeofAllocHeader) heapPtr cs = some hole) :
    hole.1 + (size + sizeofAllocHeader) + sizeofAllocHeader ≤ pageDirAddr := by
  obtain ⟨hmem, hlong⟩ := mem_holes_of_firstFit hfit
  rcases h.2 cs hwf with hnone | ⟨low, hlow, hlowLong, hend⟩
  · exact absurd hlong (Nat.not_lt.mpr (hnone hole hmem))
  · have := firstFit_fst_le hfit hlow hlowLong
    omega

/-- A request met below the tables keeps the heap below the tables. -/
theorem HeapLow.mallocChain {cs : List Chunk} {s t : HeapState} {size : Nat}
    (h : HeapLow cs s) (hlow : HoleBelowTables s (.malloc size))
    (hinv : HeapInv (mallocChain size cs) t) : HeapLow (mallocChain size cs) t where
  inv := hinv
  starts := by
    intro x hx
    rcases fst_of_mem_spans_mallocChain hx with ⟨y, hy, hyx⟩ | ⟨hole, hfit, hxhole⟩
    · rw [← hyx]
      exact h.starts y hy
    · rw [hxhole]
      exact hlow.end_le h.inv.wellFormed hfit
  ends := by
    intro x hx hused
    rcases (mem_spans_mallocChain_iff h.inv.wellFormed hused).mp hx with
      hold | ⟨hole, hfit, rfl⟩
    · exact h.ends x hold hused
    · have hend := hlow.end_le h.inv.wellFormed hfit
      have hplaced : placedSize sizeofAllocHeader (size + sizeofAllocHeader) hole.2 ≤
          size + sizeofAllocHeader + sizeofAllocHeader :=
        placedSize_le (mem_holes_of_firstFit hfit).2
      simp only
      omega

/-- Where a step of the heap may write. -/
def WritesBelowTables (m m' : Memory) : Prop :=
  ∀ a, m' a ≠ m a → heapPtr ≤ a ∧ a < pageDirAddr

/-- Under the condition, a call of `malloc` keeps the heap below the tables. -/
theorem HeapLow.malloc {cs : List Chunk} {s : HeapState} {size : Nat}
    (h : HeapLow cs s) (hlow : HoleBelowTables s (.malloc size)) {heap : Heap}
    {answer : Option Nat} (hcall : Libc.malloc s.heap size = some (heap, answer)) :
    ∃ cs', HeapLow cs' ⟨heap, grant size s.live answer⟩ ∧
      WritesBelowTables s.heap.mem heap.mem := by
  rcases Nat.lt_or_eq_of_le hlow.1 with hsized | hwrap
  · obtain ⟨hinv, hframe⟩ := h.inv.malloc hsized hcall
    have hkept := h.mallocChain hlow hinv
    exact ⟨_, hkept, fun a ha => hkept.inHeader_bounds (hframe a ha)⟩
  · rw [malloc_of_wrap _ (by rw [hwrap, Nat.mod_self]), Option.some.injEq, Prod.mk.injEq] at hcall
    obtain ⟨rfl, rfl⟩ := hcall
    exact ⟨cs, h, fun a ha => absurd rfl ha⟩

theorem heapLow_step {cs : List Chunk} {s t : HeapState} {call : HeapCall}
    (h : HeapLow cs s) (hlow : HoleBelowTables s call) (hstep : HeapStep s call t) :
    ∃ cs', HeapLow cs' t ∧ WritesBelowTables s.heap.mem t.heap.mem := by
  cases hstep with
  | malloc _ hcall => exact h.malloc hlow hcall
  | @free b hlive =>
      obtain ⟨c, hc, hused, _⟩ := h.inv.liveUsed b hlive
      have hspans := spans_release (b.ptr - sizeofAllocHeader) heapPtr cs
      refine ⟨_, ⟨h.inv.free hlive, fun x hx => ?_, fun x hx hxused => ?_⟩, fun a ha => ?_⟩
      · rw [hspans, List.mem_map] at hx
        obtain ⟨y, hy, rfl⟩ := hx
        have := h.starts y hy
        split <;> exact this
      · exact h.ends x ((mem_spans_release_iff hxused).mp hx).1 hxused
      · have hframe := (free_spec h.inv.wellFormed hc).2.2 a
        refine h.inHeader_bounds ⟨_, hc, ?_⟩
        by_contra hout
        simp only [sizeofAllocHeader] at hout hframe
        exact ha (hframe (by omega))
  | @store b addr value hlive hlo hhi =>
      refine ⟨cs, ⟨h.inv.store hlive value hlo hhi, h.starts, h.ends⟩, fun a ha => ?_⟩
      have haddr : a = addr := by
        by_contra hne
        exact ha (writeByte_of_ne hne)
      have hptr := h.inv.ptr_ge hlive
      exact h.covers_bounds hlive ⟨by omega, by omega⟩

/-! ## The machine's invariant -/

/-- The invariant of runs whose calls keep both allocators apart. -/
structure ApartInv (s : MemoryState) : Prop where
  heap : ∃ cs, HeapLow cs s.heapOf
  pager : ReservedInv s.pagerOf
  offHeap : ∀ r ∈ s.regions, r.page + max 1 r.count * pageSize ≤ 2 ^ 32 + heapPtr

/-- A client of the page allocator reaches nothing from the heap's start to the
last page table. -/
theorem ApartInv.reaches_bounds {s : MemoryState} (h : ApartInv s) {r : Region}
    (hr : r ∈ s.regions) {a : Nat} (ha : r.Reaches a) : a < heapPtr ∨ pageDirAddr ≤ a := by
  obtain ⟨i, hpage, hi, _⟩ := h.pager.regions r hr
  obtain ⟨k, hk, rfl⟩ := ha
  have hoff := h.offHeap r hr
  have hstart : pageTablesEnd ≤ i * pageSize := by
    rw [pageTablesEnd_eq]
    exact Nat.mul_le_mul_right _ hi
  have hdir : pageDirAddr ≤ pageTablesEnd := by decide
  omega

theorem ApartInv.memoryApart {s : MemoryState} (h : ApartInv s) : MemoryApart s := by
  obtain ⟨cs, hlow⟩ := h.heap
  refine ⟨fun b hb a ha => ?_, fun b hb r hr a ha hreach => ?_, h.pager.tablesApart⟩
  · have := hlow.covers_bounds hb ha
    rw [inTables_iff]
    omega
  · have := hlow.covers_bounds hb ha
    have := h.reaches_bounds hr hreach
    omega

/-- The tables survive every write below them. -/
theorem TablesIntact.of_writesBelow {m m' : Memory} (h : TablesIntact m)
    (hwrites : WritesBelowTables m m') : TablesIntact m' := by
  refine h.congr fun a ha => ?_
  by_contra hne
  have := hwrites a hne
  have := (inTables_iff.mp ha).1
  omega

theorem apartInv_heap {s : MemoryState} {t : HeapState} {call : HeapCall}
    (h : ApartInv s) (hlow : HoleBelowTables s.heapOf call)
    (hstep : HeapStep s.heapOf call t) : ApartInv (s.withHeap t) := by
  obtain ⟨cs, hheap⟩ := h.heap
  obtain ⟨cs', hheap', hwrites⟩ := heapLow_step hheap hlow hstep
  exact ⟨⟨cs', hheap'⟩,
    ⟨h.pager.low, h.pager.tables.of_writesBelow hwrites, h.pager.cr3, h.pager.regions⟩,
    h.offHeap⟩

/-- Steps of the page allocator write memory only where a client reaches. -/
theorem pagerStep_mem {s t : PagerState} {call : PagerCall} (hstep : PagerStep s call t)
    {a : Nat} (hne : t.pages.mem a ≠ s.pages.mem a) : ∃ r ∈ s.live, r.Reaches a := by
  cases hstep with
  | @store r addr value hlive hreach =>
      have haddr : a = addr := by
        by_contra hout
        exact hne (writeByte_of_ne hout)
      exact ⟨r, hlive, haddr ▸ hreach⟩
  | allocPage => exact absurd rfl hne
  | allocPageNull => exact absurd rfl hne
  | allocPages => exact absurd rfl hne
  | allocPagesNull => exact absurd rfl hne
  | freePage => exact absurd rfl hne
  | freePages => exact absurd rfl hne
  | elsewhere => exact absurd rfl hne

/-- Under the condition no region handed out comes round to the heap. -/
theorem offHeap_step {s t : PagerState} {call : PagerCall} (hmiss : MissesHeap s call)
    (hstep : PagerStep s call t)
    (hoff : ∀ r ∈ s.live, r.page + max 1 r.count * pageSize ≤ 2 ^ 32 + heapPtr) :
    ∀ r ∈ t.live, r.page + max 1 r.count * pageSize ≤ 2 ^ 32 + heapPtr := by
  have hpage : ∀ i, i < totalPages → i * pageSize + 1 * pageSize ≤ 2 ^ 32 + heapPtr := by
    intro i hi
    simp only [totalPages, totalMemorySize, pageSize] at *
    omega
  cases hstep with
  | allocPage hcall =>
      obtain ⟨i, hfirst, rfl, _⟩ := allocPage_some hcall
      intro r hr
      rcases List.mem_cons.mp hr with rfl | hr
      · exact hpage i hfirst.lt
      · exact hoff r hr
  | @allocPages n _ _ hn hcall =>
      obtain ⟨i, hfirst, rfl, _⟩ := allocPages_some hcall
      intro r hr
      rcases List.mem_cons.mp hr with rfl | hr
      · rcases Nat.le_total n 1 with hle | hle
        · simp only [Nat.max_eq_left hle]
          exact hpage i hfirst.lt
        · simp only [Nat.max_eq_right hle]
          exact hmiss.2 i hfirst
      · exact hoff r hr
  | freePage => exact fun r hr => hoff r (List.mem_of_mem_erase hr)
  | freePages => exact fun r hr => hoff r (List.mem_of_mem_erase hr)
  | allocPageNull => exact hoff
  | allocPagesNull => exact hoff
  | store => exact hoff
  | elsewhere => exact hoff

theorem apartInv_pager {s : MemoryState} {t : PagerState} {call : PagerCall}
    (h : ApartInv s) (hmiss : MissesHeap s.pagerOf call)
    (hstep : PagerStep s.pagerOf call t) : ApartInv (s.withPager t) := by
  obtain ⟨cs, hheap⟩ := h.heap
  refine ⟨⟨cs, hheap.congr fun a hlo hhi => ?_⟩,
    reservedInv_step h.pager hmiss.1 hstep, offHeap_step hmiss hstep h.offHeap⟩
  by_contra hne
  obtain ⟨r, hr, hreach⟩ := pagerStep_mem hstep hne
  have := h.reaches_bounds hr hreach
  omega

theorem apartInv_step {s t : MemoryState} {call : MemoryCall} (h : ApartInv s)
    (hkeep : KeepsApart s call) (hstep : MemoryStep s call t) : ApartInv t := by
  cases hstep with
  | heap hstep => exact apartInv_heap h hkeep hstep
  | pager hstep => exact apartInv_pager h hkeep hstep

/-! ## Booting -/

/-- The bytes a list of requests takes, headers included. -/
def requestTotal : List Nat → Nat
  | [] => 0
  | size :: sizes => (size + sizeofAllocHeader) + requestTotal sizes

/-- A heap that was only allocated from: used up to `top`, free above. -/
def FreshHeap (top : Nat) (s : HeapState) : Prop :=
  ∃ us : List Chunk, (∀ c ∈ us, c.free = false) ∧ heapPtr + total us = top ∧
    HeapInv (us ++ [⟨true, stackBasePtr - top⟩]) s

theorem freshHeap_heapStart (m : Memory) : FreshHeap heapPtr (heapStart m) :=
  ⟨[], by simp, rfl, heapInv_heapStart m⟩

/-- A request to a fresh heap is met at its top. -/
theorem FreshHeap.malloc {top : Nat} {s : HeapState} (h : FreshHeap top s) {size : Nat}
    (hroom : top + (size + sizeofAllocHeader) + sizeofAllocHeader < stackBasePtr) :
    ∃ heap, Libc.malloc s.heap size = some (heap, some (top + sizeofAllocHeader)) ∧
      FreshHeap (top + (size + sizeofAllocHeader))
        ⟨heap, ⟨top + sizeofAllocHeader, size⟩ :: s.live⟩ := by
  obtain ⟨us, hused, htop, hinv⟩ := h
  have hstack : stackBasePtr < 2 ^ 32 := by decide
  have hsized : size + sizeofAllocHeader < 2 ^ 32 := by omega
  have hsmall : ¬ heapMaxSize ≤ size + sizeofAllocHeader := by
    have := heapPtr_add_heapMaxSize
    omega
  obtain ⟨heap, hcall, _⟩ := malloc_spec hinv.wellFormed hsized
  rw [firstFit_append_free hused (by omega)] at hcall
  simp only [Option.map_some, htop] at hcall
  refine ⟨heap, hcall, us ++ [⟨false, size + sizeofAllocHeader⟩], ?_, ?_, ?_⟩
  · intro c hc
    rcases List.mem_append.mp hc with hc | hc
    · exact hused c hc
    · rw [List.mem_singleton] at hc
      rw [hc]
  · simp only [total_append, total_cons, total_nil]
    omega
  · have hchain := (hinv.malloc hsized hcall).1
    rw [mallocChain, if_neg hsmall, allocate_append_free hused (by omega),
      Nat.sub_sub] at hchain
    exact hchain

/-- It meets the condition when block and next header end below the tables. -/
theorem FreshHeap.holeBelowTables {top : Nat} {s : HeapState} (h : FreshHeap top s) {size : Nat}
    (hend : top + (size + sizeofAllocHeader) + sizeofAllocHeader ≤ pageDirAddr) :
    HoleBelowTables s (.malloc size) := by
  obtain ⟨us, hused, htop, hinv⟩ := h
  have hdir : pageDirAddr < stackBasePtr ∧ pageDirAddr ≤ 2 ^ 32 := by decide
  refine ⟨by omega, fun cs hcs => Or.inr ?_⟩
  obtain rfl := hcs.unique hinv.wellFormed
  have hfit : firstFit (size + sizeofAllocHeader) heapPtr
      (us ++ [⟨true, stackBasePtr - top⟩]) = some (top, stackBasePtr - top) := by
    rw [firstFit_append_free hused (by omega), htop]
  obtain ⟨hhole, hlong⟩ := mem_holes_of_firstFit hfit
  exact ⟨_, hhole, hlong, hend⟩

theorem mallocs_fresh (sizes : List Nat) {top : Nat} {s : HeapState}
    (h : FreshHeap top s)
    (hroom : top + requestTotal sizes + sizeofAllocHeader < stackBasePtr) :
    ∃ t, mallocs sizes s = some t ∧ FreshHeap (top + requestTotal sizes) t := by
  induction sizes generalizing top s with
  | nil => exact ⟨s, rfl, h⟩
  | cons size sizes ih =>
      rw [requestTotal] at hroom
      have hfirst : top + (size + sizeofAllocHeader) + sizeofAllocHeader <
          stackBasePtr := by omega
      obtain ⟨heap, hcall, hnext⟩ := h.malloc hfirst
      obtain ⟨t, hrest, hfresh⟩ := ih hnext (by omega)
      refine ⟨t, ?_, ?_⟩
      · rw [mallocs, hcall]
        exact hrest
      · rw [requestTotal, ← Nat.add_assoc]
        exact hfresh

/-- A fresh heap whose top is below the tables lies below the tables. -/
theorem heapLow_append_free {us : List Chunk} {top : Nat} {s : HeapState}
    (hus : heapPtr + total us = top)
    (hinv : HeapInv (us ++ [⟨true, stackBasePtr - top⟩]) s)
    (htop : top + sizeofAllocHeader ≤ pageDirAddr) :
    HeapLow (us ++ [⟨true, stackBasePtr - top⟩]) s := by
  have hspans : ∀ x ∈ spans heapPtr (us ++ [⟨true, stackBasePtr - top⟩]),
      x ∈ spans heapPtr us ∨ x = (top, ⟨true, stackBasePtr - top⟩) := by
    intro x hx
    rw [spans_append, List.mem_append, hus] at hx
    exact hx.imp_right List.mem_singleton.mp
  refine ⟨hinv, fun x hx => ?_, fun x hx hused => ?_⟩
  · rcases hspans x hx with hx | rfl
    · have hend := (mem_spans_bounds hx).2
      have hsize := hinv.wellFormed.size_ge x.2
        (List.mem_append_left _ (chunk_mem_of_mem_spans hx))
      omega
    · exact htop
  · rcases hspans x hx with hx | rfl
    · have hend := (mem_spans_bounds hx).2
      omega
    · exact Bool.noConfusion hused

theorem FreshHeap.heapLow {top : Nat} {s : HeapState} (h : FreshHeap top s)
    (htop : top + sizeofAllocHeader ≤ pageDirAddr) : ∃ cs, HeapLow cs s := by
  obtain ⟨us, _, hus, hinv⟩ := h
  exact ⟨_, heapLow_append_free hus hinv htop⟩

theorem FreshHeap.congr {top : Nat} {s : HeapState} (h : FreshHeap top s)
    (htop : top + sizeofAllocHeader ≤ pageDirAddr) {heap : Heap}
    (hsame : SameBelowTables s.heap.mem heap.mem) : FreshHeap top ⟨heap, s.live⟩ := by
  obtain ⟨us, hused, hus, hinv⟩ := h
  exact ⟨us, hused, hus, ((heapLow_append_free hus hinv htop).congr hsame).inv⟩

/-- The end of the drivers' buffers. -/
def bootTop (devicesSize : Nat) : Nat := heapPtr + requestTotal (bootRequests devicesSize)

/-- The drivers' buffers, and the header behind them, end below the tables. -/
def BootFits (devicesSize : Nat) : Prop :=
  bootTop devicesSize + sizeofAllocHeader ≤ pageDirAddr

instance (devicesSize : Nat) : Decidable (BootFits devicesSize) :=
  inferInstanceAs (Decidable (_ ≤ _))

/-- `paging_init` writes the tables only. -/
theorem sameBelowTables_pagingInit (s : PageState) :
    SameBelowTables s.mem (pagingInit s).mem := by
  intro a _ hhi
  have hout : ¬ InTables a := fun hin =>
    absurd (inTables_iff.mp hin).1 (Nat.not_le.mpr hhi)
  rw [pagingInit, pagingSetup_mem_of_not_inTables _ hout]

/-- `init_os` leaves the machine in its invariant, and its heap fresh. -/
theorem initOs_spec {devicesSize : Nat} (hboot : BootFits devicesSize)
    (pages : PageState) : ∃ s, initOs devicesSize pages = some s ∧ ApartInv s ∧
      FreshHeap (bootTop devicesSize) s.heapOf := by
  have hroom : bootTop devicesSize + sizeofAllocHeader < stackBasePtr :=
    Nat.lt_of_le_of_lt hboot (by decide)
  obtain ⟨t, hmallocs, hfresh⟩ := mallocs_fresh _ (freshHeap_heapStart pages.mem) hroom
  have hpaging := reservedInv_pagerStart { pages with mem := t.heap.mem }
  have hsame := sameBelowTables_pagingInit { pages with mem := t.heap.mem }
  have hheap : FreshHeap (bootTop devicesSize)
      ⟨⟨(pagingInit { pages with mem := t.heap.mem }).mem, t.heap.memoryUsed⟩, t.live⟩ :=
    hfresh.congr hboot hsame
  refine ⟨⟨pagingInit { pages with mem := t.heap.mem }, t.heap.memoryUsed, t.live, []⟩,
    ?_, ⟨hheap.heapLow hboot, hpaging, ?_⟩, hheap⟩
  · rw [initOs, hmallocs, Option.map_some]
  · simp

/-- After `init_os`, along every run whose calls meet the condition, neither
allocator hands out memory of the other, of the directory or of a table. -/
theorem memoryRuns_apart {devicesSize : Nat} (hboot : BootFits devicesSize)
    (pages : PageState) : ∃ s, initOs devicesSize pages = some s ∧
      ∀ path : List (MemoryCall × MemoryState), IsPath MemoryStep s path →
        StepsMeet KeepsApart s path → ∀ t ∈ visited s path, MemoryApart t := by
  obtain ⟨s, hinit, hinv, _⟩ := initOs_spec hboot pages
  refine ⟨s, hinit, fun path hpath hmeet t ht => ?_⟩
  have hstep : ∀ s call t, ApartInv s → KeepsApart s call → MemoryStep s call t →
      ApartInv t := fun _ _ _ => apartInv_step
  exact (hpath.invariant_of_stepsMeet hstep hinv hmeet t ht).memoryApart

/-- The bitmap with page `init_idx` marked, which `paging_setup` leaves as it is. -/
def markedPages : PageState := { bootPages with pageBitmap := rawAllocPage (fun _ => 0) initIdx }

theorem isFirst_markedPages (m : Memory) :
    IsFirst (isPageFree (pagingInit { markedPages with mem := m }).pageBitmap) initIdx totalPages
      (initIdx + 1) := by
  have hmarked : ∀ i < totalPages,
      marked (pagingInit { markedPages with mem := m }).pageBitmap i =
        decide (i ≤ initIdx) := by
    intro i hi
    have hsetup := marked_pagingSetup { markedPages with mem := m } i
    have hzero : marked (fun _ => 0) i = false := BitVec.getLsbD_zero
    rw [markedPages, marked_rawAllocPage, hzero, Bool.false_or, ← Bool.decide_or] at hsetup
    rw [pagingInit, markedPages, hsetup, decide_eq_decide]
    omega
  refine ⟨Nat.le_succ _, by decide, ?_, fun j hlo hhi => ?_⟩
  · rw [isPageFree_iff, hmarked _ (by decide)]
    exact decide_eq_false (Nat.not_succ_le_self _)
  · have htotal : initIdx + 1 < totalPages := by decide
    rw [isPageFree_eq_not_marked, hmarked j (Nat.lt_trans hhi htotal),
      decide_eq_true (Nat.le_of_lt_succ hhi)]
    rfl

theorem initOs_pages {devicesSize : Nat} {pages : PageState} {s : MemoryState}
    (h : initOs devicesSize pages = some s) :
    ∃ m, s.pages = pagingInit { pages with mem := m } := by
  obtain ⟨t, -, rfl⟩ := Option.map_eq_some_iff.mp h
  exact ⟨t.heap.mem, rfl⟩

/-- A request, a page, and both given back. -/
theorem exists_keepingPath {s : MemoryState} (hfresh : FreshHeap (bootTop 4) s.heapOf)
    (hfirst : IsFirst (isPageFree s.pages.pageBitmap) initIdx totalPages (initIdx + 1)) :
    ∃ path, path.map Prod.fst = [.heap (.malloc 100), .pager .allocPage,
        .heap (.free 0x107E8C), .pager (.freePage 0x321000)] ∧
      IsPath MemoryStep s path ∧ StepsMeet KeepsApart s path ∧
      ∃ t ∈ visited s path, ⟨0x107E8C, 100⟩ ∈ t.blocks ∧ ⟨0x321000, 1⟩ ∈ t.regions := by
  have hend : bootTop 4 + (100 + sizeofAllocHeader) + sizeofAllocHeader ≤ pageDirAddr := by
    decide
  obtain ⟨heap, hmalloc, -⟩ := hfresh.malloc (Nat.lt_of_le_of_lt hend (by decide))
  have hmiss : MissesHeap s.pagerOf .allocPage :=
    ⟨hfirst.fail_below initIdx (Nat.le_refl _) (Nat.lt_succ_self _), trivial⟩
  have hpath : IsPath MemoryStep s
      [(.heap (.malloc 100), _), (.pager .allocPage, _), (.heap (.free 0x107E8C), _),
        (.pager (.freePage 0x321000), _)] :=
    ⟨.heap (.malloc (by decide) hmalloc), .pager (.allocPage (allocPage_of_isFirst hfirst)),
      .heap (.free (b := ⟨0x107E8C, 100⟩) List.mem_cons_self),
      .pager (.freePage (r := ⟨0x321000, 1⟩) List.mem_cons_self rfl), trivial⟩
  refine ⟨_, rfl, hpath,
    ⟨hfresh.holeBelowTables hend, hmiss, trivial, ⟨trivial, trivial⟩, trivial⟩, _,
    List.mem_cons_of_mem _ (List.mem_cons_of_mem _ List.mem_cons_self), ?_, ?_⟩
  · exact List.mem_cons_self
  · exact List.mem_cons_self

/-- The rule with four devices on the bus, at a run in which a block and a page are held
together. -/
theorem memoryRuns_apart_four : ∃ s path, initOs 4 markedPages = some s ∧
    path.map Prod.fst = [.heap (.malloc 100), .pager .allocPage, .heap (.free 0x107E8C),
      .pager (.freePage 0x321000)] ∧
    IsPath MemoryStep s path ∧ StepsMeet KeepsApart s path ∧
    (∃ t ∈ visited s path, ⟨0x107E8C, 100⟩ ∈ t.blocks ∧ ⟨0x321000, 1⟩ ∈ t.regions) ∧
    ∀ t ∈ visited s path, MemoryApart t := by
  have hboot : BootFits 4 := by decide
  obtain ⟨s, hinit, hall⟩ := memoryRuns_apart hboot markedPages
  obtain ⟨s', hinit', -, hfresh⟩ := initOs_spec hboot markedPages
  cases hinit'.symm.trans hinit
  obtain ⟨m, hpages⟩ := initOs_pages hinit
  have hfirst := isFirst_markedPages m
  rw [← hpages] at hfirst
  obtain ⟨path, hlabels, hpath, hmeet, htogether⟩ := exists_keepingPath hfresh hfirst
  exact ⟨s, path, hinit, hlabels, hpath, hmeet, htogether, hall path hpath hmeet⟩

/-- With four devices on the bus, a request for two megabytes after `init_os` is
answered with a block that covers the page directory. -/
theorem memoryRuns_block_over_directory : ∃ s t, initOs 4 bootPages = some s ∧
    IsPath MemoryStep s [(.heap (.malloc 0x200000), t)] ∧
    ⟨0x107E8C, 0x200000⟩ ∈ t.blocks ∧ ¬ MemoryApart t := by
  have hboot : BootFits 4 := by decide
  obtain ⟨s, hinit, _, hfresh⟩ := initOs_spec hboot bootPages
  have hroom : bootTop 4 + (0x200000 + sizeofAllocHeader) + sizeofAllocHeader <
      stackBasePtr := by decide
  obtain ⟨heap, hcall, _⟩ := hfresh.malloc hroom
  have hmalloc := MemoryStep.heap (HeapStep.malloc (show 0x200000 < 2 ^ 32 by decide) hcall)
  have hblock : (⟨0x107E8C, 0x200000⟩ : Block) ∈
      (s.withHeap ⟨heap, grant 0x200000 s.blocks (some (bootTop 4 + sizeofAllocHeader))⟩).blocks :=
    List.mem_cons_self
  refine ⟨s, _, hinit, ⟨hmalloc, trivial⟩, hblock, fun hgood => ?_⟩
  refine hgood.tables _ hblock pageDirAddr ⟨by decide, by decide⟩ ?_
  rw [inTables_iff]
  decide

end DonutOS.Kernel
