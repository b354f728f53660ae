import DonutOS.Foundation.Align
import DonutOS.Libc.CallocNull

set_option autoImplicit false

/-!
# Kernel: the memory of a queue (`kernel/src/virtio_net.c`)

The descriptor table, the available ring and the used ring of a queue lie one behind
another in a block of the heap.  `vring_size` counts the header of the available ring but
not the one of the used ring; the rounding mostly makes up for it.
-/

namespace DonutOS.Kernel

open DonutOS.Foundation DonutOS.Libc

/-! ## Sizes -/

/-- `sizeof(vring_desc)`. -/
def sizeofVringDesc : Nat := 16

/-- `sizeof(vring_used_elem)`. -/
def sizeofVringUsedElem : Nat := 8

/-- `sizeof(uint16_t)`. -/
def sizeofUint16 : Nat := 2

/-- `flags` and `idx`, in front of either ring. -/
def sizeofRingHeader : Nat := 4

/-- `sizeof(vring)`: a number and three pointers, and half a word that is filled up. -/
def sizeofVring : Nat := 20

/-- `ALIGN`. -/
def align (x : Word) : Word := (x + 4095) &&& ~~~4095

/-- `vring_size`. -/
def vringSize (qsz : Word) : Word :=
  align (BitVec.ofNat 32 sizeofVringDesc * qsz + BitVec.ofNat 32 sizeofUint16 * (2 + qsz)) +
    align (BitVec.ofNat 32 sizeofVringUsedElem * qsz)

/-! ## `virtio_init_queue` -/

/-- The pointers of a `vring`. -/
structure VringPtrs where
  num : Word
  desc : Word
  avail : Word
  used : Word
  deriving DecidableEq, Repr

/-- `vring_init`; `&vr->avail->ring[num]` lies behind the header of the ring. -/
def vringInit (num p align : Word) : VringPtrs :=
  let avail := p + num * BitVec.ofNat 32 sizeofVringDesc
  let ringEnd := avail + BitVec.ofNat 32 sizeofRingHeader + num * BitVec.ofNat 32 sizeofUint16
  { num := num
    desc := p
    avail := avail
    used := (ringEnd + align - 1) &&& ~~~(align - 1) }

/-- What `virtio_init_queue` leaves: the queue, the word it writes to `QUEUE_ADDRESS`,
and the block that `calloc` returned for the rings. -/
structure PlacedQueue where
  queue : VringPtrs
  queueAddress : Word
  block : Nat

/-- `virtio_init_queue`; the inner `none` is `ERR_MEMORY_ALLOCATION_ERROR`.  The `vring`
in the first block is a value here, since it is copied to the device at the end. -/
def virtioPlaceQueue (h : Heap) (queueSize : BitVec 16) : Option (Heap × Option PlacedQueue) :=
  let size := vringSize (queueSize.setWidth 32)
  match calloc h sizeofVring 1 with
  | none => none
  | some (h, _) =>
      match calloc h (size + 4095).toNat 1 with
      | none => none
      | some (h, block) =>
          let p := align (BitVec.ofNat 32 (block.getD 0))
          if p = 0 then some (h, none)
          else
            let vr := vringInit (queueSize.setWidth 32) p 4096
            -- `vr->avail->flags = 0`
            let mem := writeByte (writeByte h.mem vr.avail.toNat 0) (vr.avail.toNat + 1) 0
            some ({ h with mem := mem }, some ⟨vr, vr.desc >>> 12, block.getD 0⟩)

/-! ## Where the rings lie -/

/-- The `n` bytes at `a` and the `k` bytes at `b` share none. -/
def BytesApart (a n b k : Nat) : Prop := a + n ≤ b ∨ b + k ≤ a

/-- The `n` bytes at `a` are among the `k` bytes at `b`. -/
def BytesWithin (a n b k : Nat) : Prop := b ≤ a ∧ a + n ≤ b + k

/-- The table and the two rings of a queue of `q` are apart from each other, the table and
the used ring start pages, and all three are in the `size` bytes at `block`. -/
structure RingsPlaced (q block size : Nat) (vr : VringPtrs) : Prop where
  descAvail : BytesApart vr.desc.toNat (16 * q) vr.avail.toNat (4 + 2 * q)
  descUsed : BytesApart vr.desc.toNat (16 * q) vr.used.toNat (4 + 8 * q)
  availUsed : BytesApart vr.avail.toNat (4 + 2 * q) vr.used.toNat (4 + 8 * q)
  descPage : 4096 ∣ vr.desc.toNat
  usedPage : 4096 ∣ vr.used.toNat
  desc : BytesWithin vr.desc.toNat (16 * q) block size
  avail : BytesWithin vr.avail.toNat (4 + 2 * q) block size
  used : BytesWithin vr.used.toNat (4 + 8 * q) block size

theorem toNat_align_page {x : Word} (hx : x.toNat + 4095 < 2 ^ 32) :
    (align x).toNat = alignUp 4096 x.toNat :=
  toNat_align (k := 12) hx

theorem toNat_vringSize (q : BitVec 16) :
    (vringSize (q.setWidth 32)).toNat =
      alignUp 4096 (16 * q.toNat + (4 + 2 * q.toNat)) + alignUp 4096 (8 * q.toNat) := by
  have hq := q.isLt
  have hfront : (BitVec.ofNat 32 sizeofVringDesc * q.setWidth 32 +
      BitVec.ofNat 32 sizeofUint16 * (2 + q.setWidth 32)).toNat =
        16 * q.toNat + (4 + 2 * q.toNat) := by
    have htwo : (2 : Word).toNat = 2 := rfl
    simp only [sizeofVringDesc, sizeofUint16, BitVec.toNat_add, BitVec.toNat_mul,
      BitVec.toNat_ofNat, BitVec.toNat_setWidth]
    omega
  have hback : (BitVec.ofNat 32 sizeofVringUsedElem * q.setWidth 32).toNat = 8 * q.toNat := by
    simp only [sizeofVringUsedElem, BitVec.toNat_mul, BitVec.toNat_ofNat, BitVec.toNat_setWidth]
    omega
  unfold vringSize
  rw [BitVec.toNat_add, toNat_align_page (by omega), toNat_align_page (by omega), hfront, hback]
  unfold alignUp
  omega

/-- `vring_init` on a page below the end of the heap. -/
structure VringAt (q p : Nat) (vr : VringPtrs) : Prop where
  desc : vr.desc.toNat = p
  avail : vr.avail.toNat = p + 16 * q
  used : vr.used.toNat = p + alignUp 4096 (16 * q + (4 + 2 * q))

theorem vringInit_spec (q : BitVec 16) {p : Word} (hp : p.toNat < 2 ^ 31) (hpage : 4096 ∣ p.toNat) :
    VringAt q.toNat p.toNat (vringInit (q.setWidth 32) p 4096) := by
  have hq := q.isLt
  have havail : (p + q.setWidth 32 * BitVec.ofNat 32 sizeofVringDesc).toNat =
      p.toNat + 16 * q.toNat := by
    simp only [sizeofVringDesc, BitVec.toNat_add, BitVec.toNat_mul, BitVec.toNat_ofNat,
      BitVec.toNat_setWidth]
    omega
  have hend : (p + q.setWidth 32 * BitVec.ofNat 32 sizeofVringDesc +
      BitVec.ofNat 32 sizeofRingHeader + q.setWidth 32 * BitVec.ofNat 32 sizeofUint16).toNat =
        p.toNat + (16 * q.toNat + (4 + 2 * q.toNat)) := by
    rw [BitVec.toNat_add, BitVec.toNat_add, havail]
    simp only [sizeofRingHeader, sizeofUint16, BitVec.toNat_mul, BitVec.toNat_ofNat,
      BitVec.toNat_setWidth]
    omega
  have hround : ∀ x : Word, (x + 4096 - 1) &&& ~~~(4096 - 1) = align x := by
    intro x
    have hadd : x + 4096 - 1 = x + 4095 := by bv_omega
    rw [hadd]
    rfl
  refine ⟨rfl, havail, ?_⟩
  unfold vringInit
  dsimp only
  rw [hround, toNat_align_page (by omega), hend, alignUp_add (by decide) hpage]

/-! ## What `virtio_init_queue` places -/

/-- No block starts behind the end of the heap. -/
theorem mallocLoop_lt {size fuel : Nat} {h h' : Heap} {p q : Nat}
    (hcall : mallocLoop size fuel h p = some (h', some q)) : q < stackBasePtr := by
  induction fuel generalizing h p with
  | zero => cases hcall
  | succ fuel ih =>
      rw [mallocLoop] at hcall
      split at hcall
      · split at hcall
        · cases hcall
        · split at hcall
          · cases hcall
          · split at hcall
            · next hin =>
              split at hcall
              · obtain ⟨-, hq⟩ := Prod.mk.inj (Option.some.inj hcall)
                exact Option.some.inj hq ▸ hin.1
              · exact ih hcall
            · exact ih hcall
      · cases hcall

theorem malloc_lt {h h' : Heap} {size ptr : Nat}
    (hcall : malloc h size = some (h', some ptr)) :
    ptr < stackBasePtr + sizeofAllocHeader := by
  unfold malloc at hcall
  dsimp only at hcall
  split at hcall
  · exact nomatch hcall
  · split at hcall
    · exact nomatch hcall
    · next taken hloop =>
      obtain ⟨-, hptr⟩ := Prod.mk.inj (Option.some.inj hcall)
      obtain ⟨q, rfl, rfl⟩ := Option.map_eq_some_iff.mp hptr
      exact Nat.add_lt_add_right (mallocLoop_lt hloop) _

theorem calloc_lt {h h' : Heap} {size regSize : Nat} {block : Option Nat}
    (hcall : calloc h size regSize = some (h', block)) :
    block.getD 0 < stackBasePtr + sizeofAllocHeader := by
  unfold calloc at hcall
  dsimp only at hcall
  split at hcall
  · exact nomatch hcall
  · next h₁ array hmalloc =>
    obtain ⟨-, rfl⟩ := Prod.mk.inj (Option.some.inj hcall)
    cases array with
    | none => exact (by decide : 0 < stackBasePtr + sizeofAllocHeader)
    | some ptr => exact malloc_lt hmalloc

theorem virtioPlaceQueue_spec {h h' : Heap} {q : BitVec 16} {placed : PlacedQueue}
    (hcall : virtioPlaceQueue h q = some (h', some placed)) :
    placed.block < stackBasePtr + sizeofAllocHeader ∧
      placed.queue = vringInit (q.setWidth 32) (align (BitVec.ofNat 32 placed.block)) 4096 := by
  unfold virtioPlaceQueue at hcall
  dsimp only at hcall
  split at hcall
  · exact nomatch hcall
  · split at hcall
    · exact nomatch hcall
    · next h₁ block hblock =>
      split at hcall
      · exact nomatch (Prod.mk.inj (Option.some.inj hcall)).2
      · obtain ⟨-, hplaced⟩ := Prod.mk.inj (Option.some.inj hcall)
        obtain rfl := Option.some.inj hplaced
        exact ⟨calloc_lt hblock, rfl⟩

/-- Whether the rings fit depends on whether the used ring's four bytes too many leave the
block. -/
theorem ringsPlaced_iff (q : BitVec 16) {block : Nat}
    (hblock : block < stackBasePtr + sizeofAllocHeader) :
    RingsPlaced q.toNat block ((vringSize (q.setWidth 32)).toNat + 4095)
        (vringInit (q.setWidth 32) (align (BitVec.ofNat 32 block)) 4096) ↔
      ¬ (512 ∣ q.toNat ∧ 1 ≤ block % 4096 ∧ block % 4096 ≤ 4) := by
  have hq := q.isLt
  have htop : stackBasePtr + sizeofAllocHeader < 2 ^ 30 := by decide
  have hword : (BitVec.ofNat 32 block).toNat = block := by
    rw [BitVec.toNat_ofNat]
    omega
  have hp : (align (BitVec.ofNat 32 block)).toNat = alignUp 4096 block := by
    rw [toNat_align_page (by omega), hword]
  have hpage := dvd_alignUp 4096 block
  have hlow : alignUp 4096 block < 2 ^ 31 := by
    unfold alignUp
    omega
  have hring := vringInit_spec q (p := align (BitVec.ofNat 32 block)) (hp ▸ hlow) (hp ▸ hpage)
  rw [hp] at hring
  generalize vringInit (q.setWidth 32) (align (BitVec.ofNat 32 block)) 4096 = vr at hring ⊢
  rw [toNat_vringSize]
  have hdesc := hring.desc
  have havail := hring.avail
  have hused := hring.used
  have hstart := le_alignUp (a := 4096) (by decide) block
  have hfront := le_alignUp (a := 4096) (by decide) (16 * q.toNat + (4 + 2 * q.toNat))
  -- the end of the used ring and the end of the block
  have hfits : alignUp 4096 block + (4 + 8 * q.toNat) ≤
      block + (alignUp 4096 (8 * q.toNat) + 4095) ↔
        ¬ (512 ∣ q.toNat ∧ 1 ≤ block % 4096 ∧ block % 4096 ≤ 4) := by
    unfold alignUp
    omega
  constructor
  · intro hrings
    have hinside := hrings.used.2
    rw [hused] at hinside
    exact hfits.mp (by omega)
  · intro hgood
    have hinside := hfits.mpr hgood
    constructor
    · exact Or.inl (by omega)
    · exact Or.inl (by omega)
    · exact Or.inl (by omega)
    · exact hdesc.symm ▸ hpage
    · rw [hused]
      exact Nat.dvd_add hpage (dvd_alignUp _ _)
    · exact ⟨by omega, by omega⟩
    · exact ⟨by omega, by omega⟩
    · exact ⟨by omega, by omega⟩

/-! ## Queues behind used chunks -/

/-- Two blocks are enough: the second one is not at address 0. -/
theorem virtioPlaceQueue_of_calloc {h h₁ h₂ : Heap} {q : BitVec 16} {vr : Option Nat} {block : Nat}
    (hfirst : calloc h sizeofVring 1 = some (h₁, vr))
    (hsecond : calloc h₁ (vringSize (q.setWidth 32) + 4095).toNat 1 = some (h₂, some block))
    (hpos : 0 < block) :
    ∃ h' placed, virtioPlaceQueue h q = some (h', some placed) ∧ placed.block = block := by
  have htop : block < stackBasePtr + sizeofAllocHeader := calloc_lt hsecond
  have hend : stackBasePtr + sizeofAllocHeader < 2 ^ 30 := by decide
  have hword : (BitVec.ofNat 32 block).toNat = block := by
    rw [BitVec.toNat_ofNat]
    omega
  have hne : align (BitVec.ofNat 32 block) ≠ 0 := by
    intro hzero
    have hup := le_alignUp (a := 4096) (by decide) (BitVec.ofNat 32 block).toNat
    rw [← toNat_align_page (by omega), hzero, hword] at hup
    exact Nat.not_le.mpr hpos hup
  unfold virtioPlaceQueue
  simp only [hfirst, hsecond, Option.getD_some, if_neg hne]
  exact ⟨_, _, rfl, rfl⟩

/-- In a free run behind used chunks, the `vring` is placed first and then the block. -/
theorem exists_placed {h : Heap} {us : List Chunk} {n : Nat} (q : BitVec 16)
    (hwf : WellFormed h.mem (us ++ [⟨true, n⟩])) (hused : ∀ c ∈ us, c.free = false)
    (hroom : (vringSize (q.setWidth 32) + 4095).toNat + 32 < n) :
    ∃ h' placed, virtioPlaceQueue h q = some (h', some placed) ∧
      placed.block = heapPtr + total us + 28 := by
  have hheader : sizeofAllocHeader = 4 := rfl
  have hvring : sizeofVring * 1 + sizeofAllocHeader = 24 := rfl
  have hfree : sizeofVring * 1 + sizeofAllocHeader + sizeofAllocHeader < n := by omega
  obtain ⟨h₁, hfirst, hwf₁⟩ := calloc_behind hwf hused hfree
  rw [hvring] at hwf₁
  have hused₁ : ∀ c ∈ us ++ [(⟨false, 24⟩ : Chunk)], c.free = false := by
    intro c hc
    rcases List.mem_append.mp hc with hc | hc
    · exact hused c hc
    · rw [List.mem_singleton.mp hc]
  have hfree₁ : (vringSize (q.setWidth 32) + 4095).toNat * 1 + sizeofAllocHeader +
      sizeofAllocHeader < n - 24 := by omega
  obtain ⟨h₂, hsecond, -⟩ := calloc_behind hwf₁ hused₁ hfree₁
  have haddr : heapPtr + total (us ++ [(⟨false, 24⟩ : Chunk)]) + sizeofAllocHeader =
      heapPtr + total us + 28 := by
    rw [total_append, Nat.add_assoc, Nat.add_assoc, Nat.add_assoc]
    rfl
  rw [haddr] at hsecond
  exact virtioPlaceQueue_of_calloc hfirst hsecond (Nat.succ_pos _)

theorem wellFormed_fresh :
    WellFormed (heapInit ⟨fun _ => 0, 0⟩).mem ([] ++ [⟨true, heapMaxSize⟩]) :=
  wellFormed_heapInit _

/-- For every heap and every queue size: where `calloc` puts the block, the rings are apart
from each other, on pages and in the block, unless the used ring but for its header
fills whole pages and the block starts one to four bytes behind a page. -/
theorem virtioPlaceQueue_placed_iff {h h' : Heap} {q : BitVec 16} {placed : PlacedQueue}
    (hcall : virtioPlaceQueue h q = some (h', some placed)) :
    RingsPlaced q.toNat placed.block ((vringSize (q.setWidth 32)).toNat + 4095) placed.queue ↔
      ¬ (512 ∣ q.toNat ∧ 1 ≤ placed.block % 4096 ∧ placed.block % 4096 ≤ 4) := by
  obtain ⟨hblock, hqueue⟩ := virtioPlaceQueue_spec hcall
  rw [hqueue]
  exact ringsPlaced_iff q hblock

/-- A queue of one descriptor in a fresh heap. -/
theorem virtioPlaceQueue_placed_iff_fresh :
    ∃ h' placed, virtioPlaceQueue (heapInit ⟨fun _ => 0, 0⟩) 1 = some (h', some placed) ∧
      (RingsPlaced (1 : BitVec 16).toNat placed.block
        ((vringSize ((1 : BitVec 16).setWidth 32)).toNat + 4095) placed.queue ↔
        ¬ (512 ∣ (1 : BitVec 16).toNat ∧ 1 ≤ placed.block % 4096 ∧ placed.block % 4096 ≤ 4)) := by
  obtain ⟨h', placed, hcall, -⟩ := exists_placed 1 wellFormed_fresh
    (fun _ hc => absurd hc List.not_mem_nil) (by decide)
  exact ⟨h', placed, hcall, virtioPlaceQueue_placed_iff hcall⟩

/-- Behind a block of 4068 bytes, the rings of 512 descriptors leave theirs. -/
theorem virtioPlaceQueue_leaves_block :
    ∃ h₀ ptr h' placed, malloc (heapInit ⟨fun _ => 0, 0⟩) 4068 = some (h₀, some ptr) ∧
      virtioPlaceQueue h₀ 512 = some (h', some placed) ∧
      ¬ RingsPlaced (512 : BitVec 16).toNat placed.block
        ((vringSize ((512 : BitVec 16).setWidth 32)).toNat + 4095) placed.queue := by
  have hused : ∀ c ∈ ([] : List Chunk), c.free = false := fun _ hc => absurd hc List.not_mem_nil
  have hfit : firstFit (4068 + sizeofAllocHeader) heapPtr ([] ++ [⟨true, heapMaxSize⟩]) =
      some (heapPtr + total [], heapMaxSize) := firstFit_append_free hused (by decide)
  obtain ⟨h₀, hmalloc, hwf, -, -⟩ := malloc_spec wellFormed_fresh
    (by decide : 4068 + sizeofAllocHeader < 2 ^ 32)
  rw [mallocChain_behind hused (Nat.le_refl _) (by decide)] at hwf
  rw [hfit, Option.map_some] at hmalloc
  have hfirst : ∀ c ∈ [] ++ [(⟨false, 4068 + sizeofAllocHeader⟩ : Chunk)], c.free = false :=
    fun c hc => by rw [List.mem_singleton.mp hc]
  obtain ⟨h', placed, hcall, hblock⟩ := exists_placed 512 hwf hfirst (by decide)
  obtain ⟨htop, hqueue⟩ := virtioPlaceQueue_spec hcall
  refine ⟨h₀, _, h', placed, hmalloc, hcall, ?_⟩
  rw [hqueue, ringsPlaced_iff 512 htop, hblock, not_not]
  decide

end DonutOS.Kernel
