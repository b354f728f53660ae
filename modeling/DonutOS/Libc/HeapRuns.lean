import DonutOS.Foundation.Path
import DonutOS.Libc.MallocSpec

set_option autoImplicit false

/-!
# Libc: the heap over whole runs

The heap as its clients see it: any sequence of `malloc` and `free` calls, and
stores of the clients into the blocks they hold, after `heap_init` on arbitrary
memory.  `HeapInv` is the invariant; it relates the blocks handed out to the
used chunks one for one.
-/

namespace DonutOS.Libc

open DonutOS.Foundation

/-- A block a client holds: the pointer `malloc` returned and the size that was
requested. -/
structure Block where
  ptr : Nat
  size : Nat
  deriving DecidableEq, Repr, Inhabited

/-- The heap together with the blocks returned and not yet freed. -/
structure HeapState where
  heap : Heap
  live : List Block

/-- What happens to a heap. -/
inductive HeapCall
  | malloc (size : Nat)
  | free (ptr : Nat)
  /-- a client writes one byte of a block it holds -/
  | store (addr : Nat) (value : Byte)

/-- The blocks held after a request was answered. -/
def grant (size : Nat) (live : List Block) : Option Nat → List Block
  | some ptr => ⟨ptr, size⟩ :: live
  | none => live

/-- One call, or one store of a client. -/
inductive HeapStep : HeapState → HeapCall → HeapState → Prop
  | malloc {s : HeapState} {size : Nat} {h : Heap} {answer : Option Nat}
      (hsize : size < 2 ^ 32) (hcall : malloc s.heap size = some (h, answer)) :
      HeapStep s (.malloc size) ⟨h, grant size s.live answer⟩
  | free {s : HeapState} {b : Block} (hlive : b ∈ s.live) :
      HeapStep s (.free b.ptr)
        ⟨free s.heap b.ptr, s.live.filter fun x => x.ptr ≠ b.ptr⟩
  | store {s : HeapState} {b : Block} {addr : Nat} {value : Byte}
      (hlive : b ∈ s.live) (hlo : b.ptr ≤ addr) (hhi : addr < b.ptr + b.size) :
      HeapStep s (.store addr value)
        ⟨{ s.heap with mem := writeByte s.heap.mem addr value }, s.live⟩

/-- A request whose length with its header is a 32-bit number. -/
def HeapCall.Sized : HeapCall → Prop
  | .malloc size => size + sizeofAllocHeader < 2 ^ 32
  | _ => True

/-- Steps of clients whose requests are sized. -/
def SizedStep (s : HeapState) (call : HeapCall) (t : HeapState) : Prop :=
  HeapStep s call t ∧ call.Sized

/-- The heap right after `heap_init` ran over the memory `m`. -/
def heapStart (m : Memory) : HeapState := ⟨heapInit ⟨m, 0⟩, []⟩

/-- Blocks and used chunks correspond: every block is the payload of a used
chunk with room for the request, every used chunk belongs to a block, and no
pointer is held twice. -/
structure HeapInv (cs : List Chunk) (s : HeapState) : Prop where
  wellFormed : WellFormed s.heap.mem cs
  liveUsed : ∀ b ∈ s.live, ∃ c, (b.ptr - sizeofAllocHeader, c) ∈ spans heapPtr cs ∧
    c.free = false ∧ b.size + sizeofAllocHeader ≤ c.size
  usedLive : ∀ x ∈ spans heapPtr cs, x.2.free = false →
    ∃ b ∈ s.live, b.ptr = x.1 + sizeofAllocHeader
  distinct : s.live.Pairwise fun b b' => b.ptr ≠ b'.ptr

theorem HeapInv.ptr_ge {cs : List Chunk} {s : HeapState} (h : HeapInv cs s)
    {b : Block} (hb : b ∈ s.live) : heapPtr + sizeofAllocHeader ≤ b.ptr := by
  obtain ⟨c, hc, _⟩ := h.liveUsed b hb
  have := (mem_spans_bounds hc).1
  simp only [heapPtr, heapAddress, sizeofAllocHeader] at *
  omega

theorem heapInv_heapStart (m : Memory) :
    HeapInv [⟨true, heapMaxSize⟩] (heapStart m) where
  wellFormed := wellFormed_heapInit _
  liveUsed := by simp [heapStart]
  usedLive := by simp
  distinct := List.Pairwise.nil

/-- A `malloc` that finds a hole hands out a block there. -/
theorem HeapInv.hand {cs : List Chunk} {s : HeapState} (hinv : HeapInv cs s)
    {size : Nat} {hole : Nat × Nat} {h : Heap}
    (hfit : firstFit (size + sizeofAllocHeader) heapPtr cs = some hole)
    (hwf : WellFormed h.mem (mallocChain size cs)) :
    HeapInv (mallocChain size cs)
      ⟨h, ⟨hole.1 + sizeofAllocHeader, size⟩ :: s.live⟩ := by
  obtain ⟨hmem, hlong⟩ := mem_holes_of_firstFit hfit
  have hspans : ∀ x : Nat × Chunk, x.2.free = false →
      (x ∈ spans heapPtr (mallocChain size cs) ↔
        x ∈ spans heapPtr cs ∨ x = (hole.1, ⟨false,
          placedSize sizeofAllocHeader (size + sizeofAllocHeader) hole.2⟩)) := by
    intro x hx
    rw [mem_spans_mallocChain_iff hinv.wellFormed hx, hfit]
    simp
  refine ⟨hwf, ?_, ?_, ?_⟩
  · intro b hb
    rcases List.mem_cons.mp hb with rfl | hb
    · exact ⟨_, (hspans _ rfl).mpr (Or.inr rfl), rfl, le_placedSize hlong⟩
    · obtain ⟨c, hc, hused, hroom⟩ := hinv.liveUsed b hb
      exact ⟨c, (hspans _ hused).mpr (Or.inl hc), hused, hroom⟩
  · intro x hx hused
    rcases (hspans x hused).mp hx with hold | rfl
    · obtain ⟨b, hb, hptr⟩ := hinv.usedLive x hold hused
      exact ⟨b, List.mem_cons_of_mem _ hb, hptr⟩
    · exact ⟨_, List.mem_cons_self, rfl⟩
  · refine List.pairwise_cons.mpr ⟨?_, hinv.distinct⟩
    intro b hb heq
    -- a block already out would sit in a used chunk at the start of the hole
    obtain ⟨c, hc, hused, _⟩ := hinv.liveUsed b hb
    obtain ⟨d, hd, hfree⟩ := exists_free_of_mem_holes _ _ hole hmem
    have hstart : b.ptr - sizeofAllocHeader = hole.1 := by
      simp only at heq
      omega
    have hcd : c = d := congrArg Prod.snd
      (eq_of_mem_spans_of_fst_eq hinv.wellFormed.size_pos hc hd hstart)
    subst hcd
    rw [hused] at hfree
    exact Bool.noConfusion hfree

/-- A `malloc` that finds no hole leaves the used chunks alone. -/
theorem HeapInv.keep {cs : List Chunk} {s : HeapState} (hinv : HeapInv cs s)
    {size : Nat} {h : Heap}
    (hfit : firstFit (size + sizeofAllocHeader) heapPtr cs = none)
    (hwf : WellFormed h.mem (mallocChain size cs)) :
    HeapInv (mallocChain size cs) ⟨h, s.live⟩ := by
  have hspans : ∀ x : Nat × Chunk, x.2.free = false →
      (x ∈ spans heapPtr (mallocChain size cs) ↔ x ∈ spans heapPtr cs) := by
    intro x hx
    rw [mem_spans_mallocChain_iff hinv.wellFormed hx, hfit]
    simp
  refine ⟨hwf, ?_, ?_, hinv.distinct⟩
  · intro b hb
    obtain ⟨c, hc, hused, hroom⟩ := hinv.liveUsed b hb
    exact ⟨c, (hspans _ hused).mpr hc, hused, hroom⟩
  · intro x hx hused
    exact hinv.usedLive x ((hspans x hused).mp hx) hused

/-- What a call of `malloc` does to a heap in its invariant. -/
theorem HeapInv.malloc {cs : List Chunk} {s : HeapState} (hinv : HeapInv cs s)
    {size : Nat} (hsize : size + sizeofAllocHeader < 2 ^ 32) {h : Heap}
    {answer : Option Nat} (hcall : Libc.malloc s.heap size = some (h, answer)) :
    HeapInv (mallocChain size cs) ⟨h, grant size s.live answer⟩ ∧
      ∀ b, h.mem b ≠ s.heap.mem b → InHeader heapPtr (mallocChain size cs) b := by
  obtain ⟨h', hcall', hwf, _, hframe⟩ := malloc_spec hinv.wellFormed hsize
  rw [hcall, Option.some.injEq, Prod.mk.injEq] at hcall'
  obtain ⟨rfl, rfl⟩ := hcall'
  refine ⟨?_, hframe⟩
  cases hfit : firstFit (size + sizeofAllocHeader) heapPtr cs with
  | some hole => exact hinv.hand hfit hwf
  | none => exact hinv.keep hfit hwf

/-- `free` takes back one block. -/
theorem HeapInv.free {cs : List Chunk} {s : HeapState} (hinv : HeapInv cs s)
    {b : Block} (hb : b ∈ s.live) :
    HeapInv (release (b.ptr - sizeofAllocHeader) heapPtr cs)
      ⟨Libc.free s.heap b.ptr, s.live.filter fun x => x.ptr ≠ b.ptr⟩ := by
  obtain ⟨c, hc, hused, hroom⟩ := hinv.liveUsed b hb
  have hbptr := hinv.ptr_ge hb
  refine ⟨(free_spec hinv.wellFormed hc).1, ?_, ?_, hinv.distinct.filter _⟩
  · intro x hx
    obtain ⟨hx, hne⟩ := List.mem_filter.mp hx
    obtain ⟨d, hd, hdused, hdroom⟩ := hinv.liveUsed x hx
    have hxptr := hinv.ptr_ge hx
    have hne' : x.ptr ≠ b.ptr := by simpa using hne
    exact ⟨d, (mem_spans_release_iff hdused).mpr ⟨hd, by simp only; omega⟩, hdused, hdroom⟩
  · intro x hx hxused
    obtain ⟨hold, hne⟩ := (mem_spans_release_iff hxused).mp hx
    obtain ⟨d, hd, hptr⟩ := hinv.usedLive x hold hxused
    refine ⟨d, List.mem_filter.mpr ⟨hd, ?_⟩, hptr⟩
    simp only [ne_eq, decide_eq_true_eq]
    omega

/-- A byte of a block is no byte of a header. -/
theorem HeapInv.not_header {cs : List Chunk} {s : HeapState} (hinv : HeapInv cs s)
    {b : Block} (hb : b ∈ s.live) {addr : Nat} (hlo : b.ptr ≤ addr)
    (hhi : addr < b.ptr + b.size) :
    ∀ x ∈ spans heapPtr cs, addr < x.1 ∨ x.1 + sizeofAllocHeader ≤ addr := by
  intro x hx
  obtain ⟨c, hc, _, hroom⟩ := hinv.liveUsed b hb
  have hptr := hinv.ptr_ge hb
  have hxsize := hinv.wellFormed.size_ge x.2 (chunk_mem_of_mem_spans hx)
  rcases eq_or_apart_of_mem_spans hx hc with heq | hapart | hapart
  · have : x.1 = b.ptr - sizeofAllocHeader := congrArg Prod.fst heq
    omega
  · simp only at hapart; omega
  · simp only at hapart; omega

/-- Clients cannot damage the chain by writing to their own blocks, or below the heap. -/
theorem HeapInv.writes {cs : List Chunk} {s : HeapState} (hinv : HeapInv cs s) {m : Memory}
    (hframe : ∀ a, m a ≠ s.heap.mem a →
      a < heapPtr ∨ ∃ b ∈ s.live, b.ptr ≤ a ∧ a < b.ptr + b.size) :
    HeapInv cs ⟨{ s.heap with mem := m }, s.live⟩ where
  wellFormed := by
    refine ⟨hinv.wellFormed.tiles.congr fun x hx => header_congr fun a ha hb' => ?_,
      hinv.wellFormed.size_ge⟩
    by_contra hne
    rcases hframe a hne with hlow | ⟨b, hb, hlo, hhi⟩
    · have := (mem_spans_bounds hx).1
      omega
    · have := hinv.not_header hb hlo hhi x hx
      simp only [sizeofAllocHeader] at this
      omega
  liveUsed := hinv.liveUsed
  usedLive := hinv.usedLive
  distinct := hinv.distinct

theorem HeapInv.store {cs : List Chunk} {s : HeapState} (hinv : HeapInv cs s)
    {b : Block} (hb : b ∈ s.live) {addr : Nat} (value : Byte) (hlo : b.ptr ≤ addr)
    (hhi : addr < b.ptr + b.size) :
    HeapInv cs ⟨{ s.heap with mem := writeByte s.heap.mem addr value }, s.live⟩ := by
  refine hinv.writes fun a hne => Or.inr ⟨b, hb, ?_⟩
  have heq : a = addr := not_not.mp fun ha => hne (writeByte_of_ne ha)
  rw [heq]
  exact ⟨hlo, hhi⟩

/-- Every step keeps the heap in its invariant, for some chain. -/
theorem heapInv_step {s t : HeapState} {call : HeapCall} (hinv : ∃ cs, HeapInv cs s)
    (hstep : SizedStep s call t) : ∃ cs, HeapInv cs t := by
  obtain ⟨cs, hinv⟩ := hinv
  obtain ⟨hstep, hsized⟩ := hstep
  cases hstep with
  | malloc _ hcall => exact ⟨_, (hinv.malloc hsized hcall).1⟩
  | free hlive => exact ⟨_, hinv.free hlive⟩
  | store hlive hlo hhi => exact ⟨cs, hinv.store hlive _ hlo hhi⟩

/-! ## The tiling, as the code sees it -/

/-- The end of the payload of the chunk behind `ptr`, read from its header. -/
def payloadEnd (m : Memory) (ptr : Nat) : Nat :=
  ptr - sizeofAllocHeader + allocSize m (ptr - sizeofAllocHeader)

/-- A sound heap: the headers walk from `HEAP_PTR` to `STACK_BASE_PTR` exactly,
every block lies in a used chunk with room for its request, payloads do not
overlap, and a further `malloc` returns. -/
structure TiledHeap (s : HeapState) : Prop where
  tiled : ∃ cs, Tiles (header s.heap.mem) heapPtr cs stackBasePtr ∧
    (∀ c ∈ cs, sizeofAllocHeader ≤ c.size) ∧
    ∀ b ∈ s.live, ∃ c, (b.ptr - sizeofAllocHeader, c) ∈ spans heapPtr cs
  liveUsed : ∀ b ∈ s.live,
    allocIsFree s.heap.mem (b.ptr - sizeofAllocHeader) = false ∧
      b.size + sizeofAllocHeader ≤ allocSize s.heap.mem (b.ptr - sizeofAllocHeader)
  disjoint : s.live.Pairwise fun b b' => b.ptr ≠ b'.ptr ∧
    (payloadEnd s.heap.mem b.ptr ≤ b'.ptr ∨ payloadEnd s.heap.mem b'.ptr ≤ b.ptr)
  returns : ∀ size, size + sizeofAllocHeader < 2 ^ 32 →
    (malloc s.heap size).isSome = true

theorem HeapInv.tiledHeap {cs : List Chunk} {s : HeapState} (hinv : HeapInv cs s) :
    TiledHeap s where
  tiled := by
    refine ⟨cs, hinv.wellFormed.tiles, hinv.wellFormed.size_ge, fun b hb => ?_⟩
    obtain ⟨c, hc, _⟩ := hinv.liveUsed b hb
    exact ⟨c, hc⟩
  liveUsed := by
    intro b hb
    obtain ⟨c, hc, hused, hroom⟩ := hinv.liveUsed b hb
    have hhdr := hinv.wellFormed.tiles.header_eq hc
    exact ⟨(congrArg Chunk.free hhdr).trans hused,
      Nat.le_trans hroom (Nat.le_of_eq (congrArg Chunk.size hhdr).symm)⟩
  disjoint := by
    refine hinv.distinct.imp_of_mem fun {b b'} hb hb' hne => ⟨hne, ?_⟩
    obtain ⟨c, hc, _⟩ := hinv.liveUsed b hb
    obtain ⟨c', hc', _⟩ := hinv.liveUsed b' hb'
    have hsize : allocSize s.heap.mem (b.ptr - sizeofAllocHeader) = c.size :=
      congrArg Chunk.size (hinv.wellFormed.tiles.header_eq hc)
    have hsize' : allocSize s.heap.mem (b'.ptr - sizeofAllocHeader) = c'.size :=
      congrArg Chunk.size (hinv.wellFormed.tiles.header_eq hc')
    have hptr := hinv.ptr_ge hb
    have hptr' := hinv.ptr_ge hb'
    unfold payloadEnd
    rcases eq_or_apart_of_mem_spans hc hc' with heq | hapart | hapart
    · have : b.ptr - sizeofAllocHeader = b'.ptr - sizeofAllocHeader :=
        congrArg Prod.fst heq
      omega
    · simp only at hapart; omega
    · simp only at hapart; omega
  returns := by
    intro size hsize
    obtain ⟨h, hcall, _⟩ := malloc_spec hinv.wellFormed hsize
    rw [hcall]
    rfl

/-- After `heap_init` on any memory, whatever is allocated, freed and written by
the holders of the blocks, in any order: the heap stays a sound chain. -/
theorem heapRuns_tiled (m : Memory) {path : List (HeapCall × HeapState)}
    (hpath : IsPath SizedStep (heapStart m) path) :
    ∀ s ∈ visited (heapStart m) path, TiledHeap s := by
  have hstep : ∀ s call t, (∃ cs, HeapInv cs s) → SizedStep s call t →
      ∃ cs, HeapInv cs t := fun _ _ _ => heapInv_step
  intro s hs
  obtain ⟨cs, hinv⟩ := hpath.invariant hstep ⟨_, heapInv_heapStart m⟩ s hs
  exact hinv.tiledHeap

/-- A request and its release, starting from zeroed memory. -/
theorem heapRuns_tiled_malloc_free :
    ∃ path : List (HeapCall × HeapState),
      path.map Prod.fst = [.malloc 16, .free 0x100004] ∧
      ∀ s ∈ visited (heapStart fun _ => 0) path, TiledHeap s := by
  have hfit : firstFit (16 + sizeofAllocHeader) heapPtr [⟨true, heapMaxSize⟩] =
      some (heapPtr, heapMaxSize) :=
    firstFit_cons_fit heapPtr rfl (by decide)
  have hsized : 16 + sizeofAllocHeader < 2 ^ 32 := by decide
  obtain ⟨h, hcall, _, _⟩ := malloc_spec (wellFormed_heapInit ⟨fun _ => 0, 0⟩) hsized
  rw [hfit] at hcall
  have hmalloc := HeapStep.malloc (s := heapStart fun _ => 0)
    (show 16 < 2 ^ 32 by decide) hcall
  have hfree := HeapStep.free (s := ⟨h, [⟨heapPtr + sizeofAllocHeader, 16⟩]⟩)
    List.mem_cons_self
  exact ⟨[(_, _), (_, _)], rfl,
    heapRuns_tiled _ ⟨⟨hmalloc, hsized⟩, ⟨hfree, trivial⟩, trivial⟩⟩

end DonutOS.Libc
