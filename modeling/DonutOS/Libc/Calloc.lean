import DonutOS.Foundation.Loop
import DonutOS.Libc.MallocExact

set_option autoImplicit false

/-!
# Libc: `calloc`, and what the three calls do to the blocks already out

`calloc` multiplies in 32 bits, calls `malloc` and zeroes the bytes it was
given, through the null pointer when there are none.  First the frame of the
three calls: no payload byte of another block changes.  Then the sizes: which
requests get what they asked for.
-/

namespace DonutOS.Libc

open DonutOS.Foundation

/-- The loop of `calloc`: `array[i] = 0`, with 32-bit addresses. -/
def zeroBytes (array bytes : Nat) (m : Memory) : Memory :=
  forLoop (fun i m => writeByte m ((array + i) % 2 ^ 32) 0) 0 bytes m

/-- `calloc`.  The answer of `malloc` is not tested, and `NULL` is address 0. -/
def calloc (h : Heap) (size regSize : Nat) : Option (Heap × Option Nat) :=
  let bytes := size * regSize % 2 ^ 32
  match malloc h bytes with
  | none => none
  | some (h, array) =>
      some ({ h with mem := zeroBytes (array.getD 0) bytes h.mem }, array)

theorem zeroBytes_apply {array bytes : Nat} (hroom : array + bytes ≤ 2 ^ 32)
    (m : Memory) (b : Nat) :
    zeroBytes array bytes m b = if array ≤ b ∧ b < array + bytes then 0 else m b := by
  have hloop := forLoop_invariant
    (fun i (m' : Memory) => ∀ b, m' b = if array ≤ b ∧ b < array + i then 0 else m b)
    (f := fun i m => writeByte m ((array + i) % 2 ^ 32) 0) bytes 0 m
    (fun b => by rw [if_neg (by omega)]) (fun i m' _ hi hm b => by
      rw [writeByte, Nat.mod_eq_of_lt (by omega), hm]
      by_cases hb : b = array + i
      · rw [if_pos hb, if_pos (by omega)]
      · rw [if_neg hb]
        exact if_congr (by omega) rfl rfl)
  rw [Nat.zero_add] at hloop
  exact hloop b

/-! ## Payloads -/

/-- `addr` is a byte of the payload of the chunk `x`. -/
def InPayload (x : Nat × Chunk) (addr : Nat) : Prop :=
  x.1 + sizeofAllocHeader ≤ addr ∧ addr < x.1 + x.2.size

/-- A payload byte is no header byte. -/
theorem InPayload.not_inHeader {m : Memory} {cs : List Chunk} (hwf : WellFormed m cs)
    {x : Nat × Chunk} (hx : x ∈ spans heapPtr cs) {addr : Nat} (hin : InPayload x addr) :
    ¬ InHeader heapPtr cs addr := by
  rintro ⟨y, hy, hlo, hhi⟩
  have hsize := hwf.size_ge y.2 (chunk_mem_of_mem_spans hy)
  obtain ⟨hxlo, hxhi⟩ := hin
  rcases eq_or_apart_of_mem_spans hx hy with rfl | hapart | hapart <;> omega

/-- Writes to one payload leave the chain alone. -/
theorem WellFormed.of_payload {m m' : Memory} {cs : List Chunk} (hwf : WellFormed m cs)
    {x : Nat × Chunk} (hx : x ∈ spans heapPtr cs)
    (hframe : ∀ addr, m' addr ≠ m addr → InPayload x addr) : WellFormed m' cs where
  tiles := by
    refine hwf.tiles.congr fun y hy => header_congr fun b hlo hhi => ?_
    by_contra hne
    exact (hframe b hne).not_inHeader hwf hx ⟨y, hy, hlo, hhi⟩
  size_ge := hwf.size_ge

/-- Bytes of two chunks' payloads are different bytes. -/
theorem InPayload.disjoint {p : Nat} {cs : List Chunk} {x y : Nat × Chunk}
    (hx : x ∈ spans p cs) (hy : y ∈ spans p cs) (hne : x ≠ y) {addr : Nat}
    (hin : InPayload x addr) : ¬ InPayload y addr := by
  rintro ⟨hlo, hhi⟩
  obtain ⟨hxlo, hxhi⟩ := hin
  rcases eq_or_apart_of_mem_spans hx hy with heq | hapart | hapart
  · exact hne heq
  · omega
  · omega

/-- The chunk `malloc` takes for `size` bytes out of a hole. -/
def takenChunk (size : Nat) (hole : Nat × Nat) : Nat × Chunk :=
  (hole.1, ⟨false, placedSize sizeofAllocHeader (size + sizeofAllocHeader) hole.2⟩)

/-- Where `malloc` found a hole there was no used chunk. -/
theorem takenChunk_not_mem {m : Memory} {cs : List Chunk} {need size : Nat}
    {hole : Nat × Nat} (hwf : WellFormed m cs)
    (hfit : firstFit need heapPtr cs = some hole) :
    takenChunk size hole ∉ spans heapPtr cs := by
  intro hc
  obtain ⟨hmem, -⟩ := mem_holes_of_firstFit hfit
  obtain ⟨d, hd, hfree⟩ := exists_free_of_mem_holes _ _ hole hmem
  have heq := eq_of_mem_spans_of_fst_eq hwf.size_pos hc hd rfl
  have hused : d.free = false := congrArg (fun x : Nat × Chunk => x.2.free) heq.symm
  rw [hused] at hfree
  exact Bool.noConfusion hfree

/-- What a successful `malloc` did. -/
theorem malloc_some {h h' : Heap} {cs : List Chunk} {size ptr : Nat}
    (hwf : WellFormed h.mem cs) (hsize : size + sizeofAllocHeader < 2 ^ 32)
    (hcall : malloc h size = some (h', some ptr)) :
    ∃ hole, firstFit (size + sizeofAllocHeader) heapPtr cs = some hole ∧
      ptr = hole.1 + sizeofAllocHeader ∧
      WellFormed h'.mem (mallocChain size cs) ∧
      takenChunk size hole ∈ spans heapPtr (mallocChain size cs) ∧
      size + sizeofAllocHeader ≤ (takenChunk size hole).2.size := by
  obtain ⟨h₁, hcall₁, hwf₁, -, -⟩ := malloc_spec hwf hsize
  rw [hcall, Option.some.injEq, Prod.mk.injEq] at hcall₁
  obtain ⟨rfl, hptr⟩ := hcall₁
  obtain ⟨hole, hfit, rfl⟩ := Option.map_eq_some_iff.mp hptr.symm
  have hlong := (mem_holes_of_firstFit hfit).2
  refine ⟨hole, hfit, rfl, hwf₁, ?_, ?_⟩
  · exact (mem_spans_mallocChain_iff hwf rfl).mpr (Or.inr ⟨hole, hfit, rfl⟩)
  · exact le_placedSize hlong

theorem malloc_payload {h h' : Heap} {cs : List Chunk} {size : Nat} {answer : Option Nat}
    (hwf : WellFormed h.mem cs) {x : Nat × Chunk} (hx : x ∈ spans heapPtr cs)
    (hused : x.2.free = false) {addr : Nat} (hin : InPayload x addr)
    (hsize : size + sizeofAllocHeader < 2 ^ 32)
    (hcall : malloc h size = some (h', answer)) : h'.mem addr = h.mem addr := by
  obtain ⟨h₁, hcall₁, hwf₁, -, hframe⟩ := malloc_spec hwf hsize
  rw [hcall, Option.some.injEq, Prod.mk.injEq] at hcall₁
  obtain ⟨rfl, -⟩ := hcall₁
  by_contra hne
  have hkept := mem_spans_mallocChain size hwf hx hused
  exact hin.not_inHeader hwf₁ hkept (hframe addr hne)

theorem calloc_payload {h h' : Heap} {cs : List Chunk} {size regSize ptr : Nat}
    (hwf : WellFormed h.mem cs) {x : Nat × Chunk} (hx : x ∈ spans heapPtr cs)
    (hused : x.2.free = false) {addr : Nat} (hin : InPayload x addr)
    (hsize : size * regSize % 2 ^ 32 + sizeofAllocHeader < 2 ^ 32)
    (hcall : calloc h size regSize = some (h', some ptr)) :
    h'.mem addr = h.mem addr := by
  unfold calloc at hcall
  simp only at hcall
  split at hcall
  · cases hcall
  · next h₁ array hmalloc =>
    simp only [Option.some.injEq, Prod.mk.injEq] at hcall
    obtain ⟨rfl, rfl⟩ := hcall
    obtain ⟨hole, hfit, rfl, hwf₁, htaken, hlen⟩ := malloc_some hwf hsize hmalloc
    have hkept := mem_spans_mallocChain (size * regSize % 2 ^ 32) hwf hx hused
    have hne : x ≠ takenChunk (size * regSize % 2 ^ 32) hole := by
      rintro rfl
      exact takenChunk_not_mem hwf hfit hx
    -- the bytes zeroed are payload bytes of the chunk just taken
    have hout := hin.disjoint hkept htaken hne
    have hend := (mem_spans_bounds htaken).2
    have htop : heapPtr + total (mallocChain (size * regSize % 2 ^ 32) cs) < 2 ^ 32 := by
      rw [hwf₁.total_eq]
      decide
    unfold InPayload takenChunk at hout
    unfold takenChunk at hend hlen
    simp only at hout hend hlen
    have hroom : hole.1 + sizeofAllocHeader + size * regSize % 2 ^ 32 ≤ 2 ^ 32 := by omega
    have hzero := zeroBytes_apply hroom h₁.mem addr
    rw [if_neg (by omega)] at hzero
    rw [← malloc_payload hwf hx hused hin hsize hmalloc]
    exact hzero

theorem free_payload {h : Heap} {cs : List Chunk} (hwf : WellFormed h.mem cs)
    {x y : Nat × Chunk} (hx : x ∈ spans heapPtr cs) (hy : y ∈ spans heapPtr cs)
    {addr : Nat} (hin : InPayload x addr) :
    (free h (y.1 + sizeofAllocHeader)).mem addr = h.mem addr := by
  have hback : y.1 + sizeofAllocHeader - sizeofAllocHeader = y.1 := Nat.add_sub_cancel ..
  have hmem : (y.1 + sizeofAllocHeader - sizeofAllocHeader, y.2) ∈ spans heapPtr cs := by
    rw [hback]
    exact hy
  have hfreed := free_spec (h := h) hwf hmem
  refine hfreed.2.2 addr ?_
  by_contra hnot
  refine hin.not_inHeader hwf hx ⟨y, hy, ?_, ?_⟩
  · omega
  · simp only [sizeofAllocHeader] at *
    omega

/-- No byte of a block's payload changes when another one is allocated, allocated
and zeroed, or freed. -/
theorem payload_kept {h : Heap} {cs : List Chunk} (hwf : WellFormed h.mem cs)
    {x : Nat × Chunk} (hx : x ∈ spans heapPtr cs) (hused : x.2.free = false)
    {addr : Nat} (hin : InPayload x addr) :
    (∀ size h' ptr, size + sizeofAllocHeader < 2 ^ 32 →
      malloc h size = some (h', some ptr) → h'.mem addr = h.mem addr) ∧
    (∀ size regSize h' ptr, size * regSize % 2 ^ 32 + sizeofAllocHeader < 2 ^ 32 →
      calloc h size regSize = some (h', some ptr) → h'.mem addr = h.mem addr) ∧
    ∀ y ∈ spans heapPtr cs, y.2.free = false → y ≠ x →
      (free h (y.1 + sizeofAllocHeader)).mem addr = h.mem addr := by
  refine ⟨?_, ?_, ?_⟩
  · intro size h' ptr hsize hcall
    exact malloc_payload hwf hx hused hin hsize hcall
  · intro size regSize h' ptr hsize hcall
    exact calloc_payload hwf hx hused hin hsize hcall
  · intro y hy _ _
    exact free_payload hwf hx hy hin

/-- The first block handed out by a fresh heap. -/
theorem payload_kept_first :
    ∃ h cs x, malloc (heapInit ⟨fun _ => 0, 0⟩) 16 =
        some (h, some (x.1 + sizeofAllocHeader)) ∧
      x ∈ spans heapPtr cs ∧ InPayload x (x.1 + sizeofAllocHeader) ∧
      (∀ size h' ptr, size + sizeofAllocHeader < 2 ^ 32 →
        malloc h size = some (h', some ptr) →
        h'.mem (x.1 + sizeofAllocHeader) = h.mem (x.1 + sizeofAllocHeader)) ∧
      (∀ size regSize h' ptr, size * regSize % 2 ^ 32 + sizeofAllocHeader < 2 ^ 32 →
        calloc h size regSize = some (h', some ptr) →
        h'.mem (x.1 + sizeofAllocHeader) = h.mem (x.1 + sizeofAllocHeader)) ∧
      ∀ y ∈ spans heapPtr cs, y.2.free = false → y ≠ x →
        (free h (y.1 + sizeofAllocHeader)).mem (x.1 + sizeofAllocHeader) =
          h.mem (x.1 + sizeofAllocHeader) := by
  have hsized : 16 + sizeofAllocHeader < 2 ^ 32 := by decide
  have hfresh := wellFormed_heapInit ⟨fun _ => 0, 0⟩
  have hfit : firstFit (16 + sizeofAllocHeader) heapPtr [⟨true, heapMaxSize⟩] =
      some (heapPtr, heapMaxSize) :=
    firstFit_cons_fit heapPtr rfl (by decide)
  obtain ⟨h, hcall, -, -, -⟩ := malloc_spec hfresh hsized
  rw [hfit] at hcall
  obtain ⟨hole, -, hptr, hwf, htaken, hlen⟩ := malloc_some hfresh hsized hcall
  have hin : InPayload (takenChunk 16 hole)
      ((takenChunk 16 hole).1 + sizeofAllocHeader) := ⟨Nat.le_refl _, by omega⟩
  refine ⟨h, _, takenChunk 16 hole, ?_, htaken, hin, payload_kept hwf htaken rfl hin⟩
  rw [hcall, Option.map_some, Option.some.injEq, Prod.mk.injEq, Option.some.injEq]
  exact ⟨rfl, hptr⟩

end DonutOS.Libc
