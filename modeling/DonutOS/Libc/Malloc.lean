import DonutOS.Foundation.Memory

set_option autoImplicit false

/-!
# Libc: the heap allocator (`libc/src/malloc.c`)

The heap is the memory from `HEAP_ADDRESS` to `STACK_ADDRESS`.  Every chunk
starts with a packed four-byte `AllocHeader`: bit 0 is `is_free`, the other 31
bits are `size`.  The definitions below follow the C text statement by
statement over byte-addressed memory.

The loops of the source have no bound of their own, so each takes a fuel
argument and answers `none` when it is used up.  Every round that returns to a
loop head moves a pointer forward by the size of a chunk, so a loop that runs
more rounds than the heap has bytes has met a chunk of size 0 and never leaves
it: with `loopFuel` rounds, `none` means that the call does not return.
-/

namespace DonutOS.Libc

open DonutOS.Foundation

/-- `HEAP_ADDRESS`. -/
def heapAddress : Nat := 0x00100000

/-- `STACK_ADDRESS`. -/
def stackAddress : Nat := 0x00f00000

/-- `HEAP_MAX_SIZE`. -/
def heapMaxSize : Nat := stackAddress - heapAddress

/-- `HEAP_PTR`. -/
def heapPtr : Nat := heapAddress

/-- `STACK_BASE_PTR`. -/
def stackBasePtr : Nat := stackAddress

/-- `sizeof(AllocHeader)`. -/
def sizeofAllocHeader : Nat := 4

/-- What the allocator reads and writes: memory and the `memory_used`
counter. -/
structure Heap where
  mem : Memory
  memoryUsed : Nat

/-! ## `AllocHeader` -/

/-- `__alloc_is_free`: bit 0 of the header word. -/
def allocIsFree (m : Memory) (ptr : Nat) : Bool := readWord m ptr % 2 == 1

/-- `__alloc_size`: the other 31 bits of the header word. -/
def allocSize (m : Memory) (ptr : Nat) : Nat := readWord m ptr / 2

/-- `((AllocHeader*)p)->is_free = b`. -/
def setIsFree (m : Memory) (p : Nat) (b : Bool) : Memory :=
  writeWord m p (readWord m p / 2 * 2 + b.toNat)

/-- `((AllocHeader*)p)->size = v`, truncated to the 31 bits of the field. -/
def setSize (m : Memory) (p v : Nat) : Memory :=
  writeWord m p (readWord m p % 2 + 2 * (v % 2 ^ 31))

/-! ## The allocator -/

/-- `heap_init`. -/
def heapInit (h : Heap) : Heap :=
  { h with mem := setSize (setIsFree h.mem heapPtr true) heapPtr heapMaxSize }

/-- Rounds granted to each loop. -/
def loopFuel : Nat := heapMaxSize

/-- `__malloc_find_empty_space`: the first free chunk from `p` on, or the end of
the heap. -/
def mallocFindEmptySpace (m : Memory) : Nat → Nat → Option Nat
  | 0, _ => none
  | fuel + 1, p =>
      if p < stackBasePtr ∧ allocIsFree m p = false then
        mallocFindEmptySpace m fuel (p + allocSize m p)
      else some p

/-- The loop of `__malloc_concat_free_chunks`: add the free chunk at `concatPtr`
to the one at `p`. -/
def mallocConcatLoop (p : Nat) : Nat → Memory → Nat → Option Memory
  | 0, _, _ => none
  | fuel + 1, m, concatPtr =>
      if concatPtr < stackBasePtr ∧ allocIsFree m concatPtr = true then
        let concatSize := allocSize m concatPtr
        mallocConcatLoop p fuel (setSize m p (allocSize m p + concatSize))
          (concatPtr + concatSize)
      else some m

/-- `__malloc_concat_free_chunks`. -/
def mallocConcatFreeChunks (m : Memory) (p : Nat) : Option Memory :=
  if p < stackBasePtr ∧ allocIsFree m p = true then
    mallocConcatLoop p loopFuel m (p + allocSize m p)
  else some m

/-- The branch of `malloc` that takes `size` bytes of the free chunk at `p`: the
rest becomes a free chunk, or stays part of this one when it is no longer than
a header. -/
def mallocTake (h : Heap) (p size : Nat) : Heap :=
  let nextSize := allocSize h.mem p - size
  let mem := setSize (setIsFree h.mem p false) p size
  let memoryUsed := (h.memoryUsed + allocSize mem p) % 2 ^ 32
  if sizeofAllocHeader < nextSize then
    { mem := setSize (setIsFree mem (p + size) true) (p + size) nextSize
      memoryUsed := memoryUsed }
  else
    { mem := setSize mem p (allocSize mem p + nextSize)
      memoryUsed := memoryUsed }

/-- The loop of `malloc`; the answer is the chunk taken, if any. -/
def mallocLoop (size : Nat) : Nat → Heap → Nat → Option (Heap × Option Nat)
  | 0, _, _ => none
  | fuel + 1, h, p =>
      if p < stackBasePtr then
        match mallocFindEmptySpace h.mem loopFuel p with
        | none => none
        | some p =>
            match mallocConcatFreeChunks h.mem p with
            | none => none
            | some mem =>
                if p < stackBasePtr ∧ allocIsFree mem p = true then
                  if size < allocSize mem p then
                    some (mallocTake { h with mem := mem } p size, some p)
                  else
                    mallocLoop size fuel { h with mem := mem } (p + allocSize mem p)
                else mallocLoop size fuel { h with mem := mem } p
      else some (h, none)

/-- `malloc`.  The inner `Option` is the returned pointer, `none` for `NULL`;
the outer one is `none` when the call does not return. -/
def malloc (h : Heap) (size : Nat) : Option (Heap × Option Nat) :=
  let size := (size + sizeofAllocHeader) % 2 ^ 32
  if heapMaxSize ≤ size ∨ size = 0 then some (h, none)
  else
    match mallocLoop size loopFuel h heapPtr with
    | none => none
    | some (h, taken) => some (h, taken.map (· + sizeofAllocHeader))

/-- `free`. -/
def free (h : Heap) (ptr : Nat) : Heap :=
  let p := ptr - sizeofAllocHeader
  let mem := setIsFree h.mem p true
  { mem := mem, memoryUsed := (h.memoryUsed + 2 ^ 32 - allocSize mem p) % 2 ^ 32 }

end DonutOS.Libc
