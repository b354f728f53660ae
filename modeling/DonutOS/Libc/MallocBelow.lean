import DonutOS.Libc.MallocSpec

set_option autoImplicit false

/-!
# Libc: what `malloc` leaves alone (`libc/src/malloc.c`)

The allocator walks the heap upwards, so it neither writes below a chunk that follows
used chunks only nor hands out anything below it, whatever the rest of the heap holds.
-/

namespace DonutOS.Libc

open DonutOS.Foundation

variable {m m' : Memory} {fuel p q lo size : Nat}

theorem setIsFree_below {b : Nat} (f : Bool) (hb : b < p) : setIsFree m p f b = m b :=
  setIsFree_of_outside (Or.inl hb)

theorem setSize_below {b : Nat} (v : Nat) (hb : b < p) : setSize m p v b = m b :=
  setSize_of_outside (Or.inl hb)

theorem mallocFindEmptySpace_ge (h : mallocFindEmptySpace m fuel p = some q) : p ≤ q := by
  induction fuel generalizing p with
  | zero => exact nomatch h
  | succ fuel ih =>
      rw [mallocFindEmptySpace] at h
      split at h
      · exact Nat.le_trans (Nat.le_add_right _ _) (ih h)
      · exact Nat.le_of_eq (Option.some.inj h)

/-- The loop of `malloc_find_empty_space` goes over a used chunk. -/
theorem mallocFindEmptySpace_used {c : Chunk} {us : List Chunk}
    (htiles : Tiles (header m) p (c :: us) lo) (hused : c.free = false) (hlo : lo < stackBasePtr) :
    mallocFindEmptySpace m (fuel + 1) p = mallocFindEmptySpace m fuel (p + c.size) := by
  obtain ⟨hheader, hrest⟩ := htiles
  have hfree : allocIsFree m p = false := (congrArg Chunk.free hheader).trans hused
  have hsize : allocSize m p = c.size := congrArg Chunk.size hheader
  have hin : p < stackBasePtr := by
    have hend := hrest.end_eq
    omega
  rw [mallocFindEmptySpace, if_pos ⟨hin, hfree⟩, hsize]

/-- Used chunks are passed. -/
theorem mallocFindEmptySpace_past {us : List Chunk} (htiles : Tiles (header m) p us lo)
    (hused : ∀ c ∈ us, c.free = false) (hlo : lo < stackBasePtr)
    (h : mallocFindEmptySpace m fuel p = some q) : lo ≤ q := by
  induction us generalizing fuel p with
  | nil =>
      obtain rfl := htiles
      exact mallocFindEmptySpace_ge h
  | cons c us ih =>
      cases fuel with
      | zero => exact nomatch h
      | succ fuel =>
          rw [mallocFindEmptySpace_used htiles (hused c List.mem_cons_self) hlo] at h
          exact ih htiles.2 (fun d hd => hused d (List.mem_cons_of_mem _ hd)) h

/-- Behind used chunks, a used header whose length points behind the heap ends the walk. -/
theorem mallocFindEmptySpace_lost {us : List Chunk} (htiles : Tiles (header m) p us lo)
    (hused : ∀ c ∈ us, c.free = false) (hlo : lo < stackBasePtr) (hlost : allocIsFree m lo = false)
    (hend : stackBasePtr ≤ lo + allocSize m lo) (hfuel : us.length + 1 < fuel) :
    mallocFindEmptySpace m fuel p = some (lo + allocSize m lo) := by
  induction us generalizing fuel p with
  | nil =>
      obtain rfl := htiles
      rw [List.length_nil] at hfuel
      obtain ⟨fuel, rfl⟩ : ∃ k, fuel = k + 2 := ⟨fuel - 2, by omega⟩
      rw [mallocFindEmptySpace, if_pos ⟨hlo, hlost⟩, mallocFindEmptySpace,
        if_neg fun hin => Nat.not_lt.mpr hend hin.1]
  | cons c us ih =>
      rw [List.length_cons] at hfuel
      obtain ⟨fuel, rfl⟩ : ∃ k, fuel = k + 1 := ⟨fuel - 1, by omega⟩
      rw [mallocFindEmptySpace_used htiles (hused c List.mem_cons_self) hlo]
      exact ih htiles.2 (fun d hd => hused d (List.mem_cons_of_mem _ hd)) (by omega)

theorem mallocConcatLoop_below (h : mallocConcatLoop p fuel m q = some m') {b : Nat}
    (hb : b < p) : m' b = m b := by
  induction fuel generalizing m q with
  | zero => exact nomatch h
  | succ fuel ih =>
      rw [mallocConcatLoop] at h
      split at h
      · exact (ih h).trans (setSize_below _ hb)
      · rw [Option.some.inj h]

theorem mallocConcatFreeChunks_below (h : mallocConcatFreeChunks m p = some m') {b : Nat}
    (hb : b < p) : m' b = m b := by
  rw [mallocConcatFreeChunks] at h
  split at h
  · exact mallocConcatLoop_below h hb
  · rw [Option.some.inj h]

theorem mallocTake_below (heap : Heap) {b : Nat} (hb : b < p) :
    (mallocTake heap p size).mem b = heap.mem b := by
  have hnext : b < p + size := Nat.lt_of_lt_of_le hb (Nat.le_add_right _ _)
  simp only [mallocTake]
  split
  · simp only [setSize_below _ hnext, setIsFree_below _ hnext, setSize_below _ hb,
      setIsFree_below _ hb]
  · simp only [setSize_below _ hb, setIsFree_below _ hb]

/-- What a walk from `lo` on leaves alone. -/
structure Above (lo : Nat) (h h' : Heap) (taken : Option Nat) : Prop where
  mem : ∀ b < lo, h'.mem b = h.mem b
  taken : ∀ q ∈ taken, lo ≤ q

/-- A round that finds a chunk from `lo` on, when the rounds behind it are as expected. -/
theorem mallocLoop_round {h h' : Heap} {taken : Option Nat}
    (hrest : ∀ (h : Heap) (p : Nat), lo ≤ p →
      mallocLoop size fuel h p = some (h', taken) → Above lo h h' taken)
    (hfind : ∀ q, mallocFindEmptySpace h.mem loopFuel p = some q → lo ≤ q)
    (hcall : mallocLoop size (fuel + 1) h p = some (h', taken)) : Above lo h h' taken := by
  rw [mallocLoop] at hcall
  split at hcall
  · cases hq : mallocFindEmptySpace h.mem loopFuel p with
    | none =>
        rw [hq] at hcall
        cases hcall
    | some q =>
        have hlo := hfind q hq
        cases hm : mallocConcatFreeChunks h.mem q with
        | none =>
            simp only [hq, hm] at hcall
            cases hcall
        | some m =>
            have hbelow : ∀ b < lo, m b = h.mem b :=
              fun b hb => mallocConcatFreeChunks_below hm (Nat.lt_of_lt_of_le hb hlo)
            simp only [hq, hm] at hcall
            split at hcall
            · split at hcall
              · obtain ⟨rfl, rfl⟩ := Prod.mk.inj (Option.some.inj hcall)
                refine ⟨fun b hb => ?_, fun r hr => (Option.some.inj hr) ▸ hlo⟩
                rw [mallocTake_below _ (Nat.lt_of_lt_of_le hb hlo)]
                exact hbelow b hb
              · have habove := hrest _ _ (Nat.le_trans hlo (Nat.le_add_right _ _)) hcall
                exact ⟨fun b hb => (habove.mem b hb).trans (hbelow b hb), habove.taken⟩
            · have habove := hrest _ _ hlo hcall
              exact ⟨fun b hb => (habove.mem b hb).trans (hbelow b hb), habove.taken⟩
  · obtain ⟨rfl, rfl⟩ := Prod.mk.inj (Option.some.inj hcall)
    exact ⟨fun _ _ => rfl, fun q hq => absurd hq (Option.not_mem_none q)⟩

theorem mallocLoop_above {h h' : Heap} {taken : Option Nat} (hlo : lo ≤ p)
    (hcall : mallocLoop size fuel h p = some (h', taken)) : Above lo h h' taken := by
  induction fuel generalizing h p with
  | zero => exact nomatch hcall
  | succ fuel ih =>
      refine mallocLoop_round (fun h p hlo hcall => ih hlo hcall) (fun q hq => ?_) hcall
      exact Nat.le_trans hlo (mallocFindEmptySpace_ge hq)

/-- When the heap starts with used chunks up to `lo`, nothing below `lo` is written, and
no block below `lo` is returned. -/
theorem malloc_above {h h' : Heap} {answer : Option Nat} {us : List Chunk}
    (htiles : Tiles (header h.mem) heapPtr us lo) (hused : ∀ c ∈ us, c.free = false)
    (hlo : lo < stackBasePtr) (hcall : malloc h size = some (h', answer)) :
    Above lo h h' answer := by
  simp only [malloc] at hcall
  split at hcall
  · obtain ⟨rfl, rfl⟩ := Prod.mk.inj (Option.some.inj hcall)
    exact ⟨fun _ _ => rfl, fun _ hr => nomatch hr⟩
  · split at hcall
    · exact nomatch hcall
    · next taken hloop =>
        have habove := mallocLoop_round (fun h p hlo hcall => mallocLoop_above hlo hcall)
          (fun q hq => mallocFindEmptySpace_past htiles hused hlo hq) hloop
        obtain ⟨rfl, rfl⟩ := Prod.mk.inj (Option.some.inj hcall)
        refine ⟨habove.mem, fun q hq => ?_⟩
        obtain ⟨r, hr, rfl⟩ := Option.map_eq_some_iff.mp hq
        exact Nat.le_trans (habove.taken r hr) (Nat.le_add_right _ _)

/-- The same for `malloc`: every request is answered with `NULL`. -/
theorem malloc_lost {h : Heap} {us : List Chunk} (htiles : Tiles (header h.mem) heapPtr us lo)
    (hused : ∀ c ∈ us, c.free = false) (hlo : lo < stackBasePtr)
    (hlost : allocIsFree h.mem lo = false) (hend : stackBasePtr ≤ lo + allocSize h.mem lo)
    (hfuel : us.length + 1 < loopFuel) (size : Nat) : malloc h size = some (h, none) := by
  have hout : ¬ lo + allocSize h.mem lo < stackBasePtr := Nat.not_lt.mpr hend
  have hloop : ∀ need, mallocLoop need loopFuel h heapPtr = some (h, none) := by
    intro need
    have hconcat : mallocConcatFreeChunks h.mem (lo + allocSize h.mem lo) = some h.mem :=
      if_neg fun hin => hout hin.1
    obtain ⟨fuel, hfuelEq⟩ : ∃ k, loopFuel = k + 2 := ⟨loopFuel - 2, rfl⟩
    rw [hfuelEq, mallocLoop, if_pos (by decide),
      mallocFindEmptySpace_lost htiles hused hlo hlost hend hfuel]
    simp only [hconcat]
    rw [if_neg fun hin => hout hin.1, mallocLoop, if_neg hout]
  unfold malloc
  simp only
  split
  · rfl
  · rw [hloop]
    rfl

end DonutOS.Libc
