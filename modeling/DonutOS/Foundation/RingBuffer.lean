import Mathlib.Data.List.Basic
import Mathlib.Data.Nat.ModEq

set_option autoImplicit false

/-!
# Foundation: ring buffers

A ring of `size` slots in which the elements lie one behind the other, up to the slot
that the next one goes to.  What it means for a slot to hold an element is a relation,
so that the slots may be strings in memory as well as values.
-/

namespace DonutOS.Foundation

variable {α : Type} {size next k : Nat}

/-- The slot `k` places before the slot `next`. -/
def slotBefore (size next k : Nat) : Nat := (next + (size - k)) % size

theorem slotBefore_lt (hsize : 0 < size) (next k : Nat) : slotBefore size next k < size :=
  Nat.mod_lt _ hsize

/-- Without the modulus. -/
theorem slotBefore_eq (hnext : next < size) (hk : k < size) :
    slotBefore size next k = if k ≤ next then next - k else next + size - k := by
  unfold slotBefore
  split
  · have hwrap : next + (size - k) = next - k + size := by omega
    rw [hwrap, Nat.add_mod_right, Nat.mod_eq_of_lt (by omega)]
  · rw [Nat.mod_eq_of_lt (by omega)]
    omega

theorem slotBefore_zero (hnext : next < size) : slotBefore size next 0 = next := by
  rw [slotBefore_eq hnext (by omega), if_pos (Nat.zero_le _)]
  rfl

/-- When the ring goes on, every element is one place further back. -/
theorem slotBefore_succ (next : Nat) (hk : k < size) :
    slotBefore size ((next + 1) % size) (k + 1) = slotBefore size next k := by
  have hsum : next + 1 + (size - (k + 1)) = next + (size - k) := by omega
  unfold slotBefore
  rw [Nat.mod_add_mod, hsum]

theorem slotBefore_ne (hnext : next < size) (hpos : 0 < k) (hk : k < size) :
    slotBefore size next k ≠ next := by
  rw [slotBefore_eq hnext hk]
  split <;> omega

/-- Places less than a round apart have different slots. -/
theorem slotBefore_inj {j : Nat} (hnext : next < size) (hj : j < size) (hk : k < size) :
    slotBefore size next j = slotBefore size next k ↔ j = k := by
  constructor
  · intro heq
    rw [slotBefore_eq hnext hj, slotBefore_eq hnext hk] at heq
    split at heq <;> split at heq <;> omega
  · exact congrArg _

/-- When the ring goes on and runs into the slot of its oldest element, it gives that up. -/
theorem slotBefore_advance (hnext : next < size) (hk : k < size) :
    (if slotBefore size next k = (next + 1) % size then (slotBefore size next k + 1) % size
      else slotBefore size next k) =
      slotBefore size ((next + 1) % size) (min (size - 1) (k + 1)) := by
  have hlast : slotBefore size next (size - 1) = (next + 1) % size := by
    have hone : size - (size - 1) = 1 := by omega
    rw [slotBefore, hone]
  by_cases hfull : k = size - 1
  · have hmin : min (size - 1) (k + 1) = size - 1 := by omega
    have hone : size - (size - 1) = 1 := by omega
    rw [hmin, hfull, if_pos hlast, hlast, slotBefore, hone]
  · have hmin : min (size - 1) (k + 1) = k + 1 := by omega
    have hother : slotBefore size next k ≠ (next + 1) % size := by
      rw [← hlast]
      exact fun heq => hfull ((slotBefore_inj hnext hk (by omega)).mp heq)
    rw [if_neg hother, hmin, slotBefore_succ next hk]

/-- A step back from a slot. -/
theorem slotBefore_pred (next : Nat) (hk : k < size) :
    (slotBefore size next k + (size - 1)) % size = slotBefore size next (k + 1) := by
  have hsum : next + (size - k) + (size - 1) = next + (size - (k + 1)) + size := by omega
  unfold slotBefore
  rw [Nat.mod_add_mod, hsum, Nat.add_mod_right]

/-- A step forward to a slot. -/
theorem slotBefore_next (next : Nat) (hk : k < size) :
    (slotBefore size next (k + 1) + 1) % size = slotBefore size next k := by
  have hsum : next + (size - (k + 1)) + 1 = next + (size - k) := by omega
  unfold slotBefore
  rw [Nat.mod_add_mod, hsum]

/-! ## What the ring holds -/

/-- The elements `xs`, the newest first, are in the slots before `next`. -/
def RingHolds (size : Nat) (holds : Nat → α → Prop) (next : Nat) (xs : List α) : Prop :=
  ∀ i (hi : i < xs.length), holds (slotBefore size next (i + 1)) xs[i]

namespace RingHolds

variable {holds holds' : Nat → α → Prop} {xs : List α}

theorem nil (holds : Nat → α → Prop) (next : Nat) : RingHolds size holds next [] :=
  fun i hi => absurd hi (Nat.not_lt_zero i)

/-- A change of the slots that leaves those of the elements as they are. -/
theorem congr (h : RingHolds size holds next xs) (hnext : next < size) (hlen : xs.length < size)
    (hkeep : ∀ slot < size, slot ≠ next → ∀ x, holds slot x → holds' slot x) :
    RingHolds size holds' next xs := by
  intro i hi
  refine hkeep _ (slotBefore_lt (by omega) _ _) ?_ _ (h i hi)
  exact slotBefore_ne hnext (by omega) (by omega)

/-- A new element goes to the slot `next`, and at most `keep` elements stay. -/
theorem push {x : α} {keep : Nat} (h : RingHolds size holds next xs) (hnext : next < size)
    (hkeep : keep ≤ size) (hnew : holds' next x)
    (hold : ∀ slot < size, slot ≠ next → ∀ y, holds slot y → holds' slot y) :
    RingHolds size holds' ((next + 1) % size) ((x :: xs).take keep) := by
  intro i hi
  have hi' : i < keep ∧ i < xs.length + 1 := by
    rw [List.length_take, List.length_cons] at hi
    omega
  rw [List.getElem_take, slotBefore_succ next (by omega)]
  cases i with
  | zero =>
      rw [slotBefore_zero hnext]
      exact hnew
  | succ i =>
      refine hold _ (slotBefore_lt (by omega) _ _) (slotBefore_ne hnext (by omega) (by omega)) _ ?_
      exact h i (by omega)

end RingHolds

/-! ## Stretches of a ring

Positions are counted without end; the slot of a position is its remainder. -/

/-- The slots of `n` positions from `start` on. -/
def stretch (size start n : Nat) : List Nat := (List.range' start n).map (· % size)

theorem mem_stretch {start n slot : Nat} :
    slot ∈ stretch size start n ↔ ∃ q, start ≤ q ∧ q < start + n ∧ q % size = slot := by
  unfold stretch
  rw [List.mem_map]
  constructor
  · rintro ⟨q, hq, rfl⟩
    obtain ⟨hlo, hhi⟩ := List.mem_range'_1.mp hq
    exact ⟨q, hlo, hhi, rfl⟩
  · rintro ⟨q, hlo, hhi, rfl⟩
    exact ⟨q, List.mem_range'_1.mpr ⟨hlo, hhi⟩, rfl⟩

theorem stretch_succ (start n : Nat) :
    stretch size start (n + 1) = stretch size start n ++ [(start + n) % size] := by
  unfold stretch
  rw [List.range'_1_concat, List.map_append]
  rfl

theorem stretch_cons (start n : Nat) :
    stretch size start (n + 1) = start % size :: stretch size (start + 1) n := rfl

theorem length_stretch (size start n : Nat) : (stretch size start n).length = n := by
  unfold stretch
  rw [List.length_map, List.length_range']

theorem getElem_stretch (start : Nat) {n i : Nat} (hi : i < (stretch size start n).length) :
    (stretch size start n)[i] = (start + i) % size := by
  simp [stretch]

/-- Two positions less than a round apart have different slots. -/
theorem mod_ne_of_lt {q r : Nat} (hlt : q < r) (hround : r < q + size) : q % size ≠ r % size := by
  intro heq
  obtain ⟨d, rfl⟩ := Nat.exists_eq_add_of_lt hlt
  have hdvd : size ∣ q + d + 1 - q :=
    (Nat.modEq_iff_dvd' (Nat.le_of_lt hlt)).mp heq
  have hle := Nat.le_of_dvd (by omega) hdvd
  omega

/-- A stretch of a round or less has no slot twice. -/
theorem stretch_nodup {start n : Nat} (hround : n ≤ size) : (stretch size start n).Nodup := by
  rw [List.nodup_iff_pairwise_ne, List.pairwise_iff_getElem]
  intro i j hi hj hlt
  rw [length_stretch] at hi hj
  rw [getElem_stretch, getElem_stretch]
  exact mod_ne_of_lt (by omega) (by omega)

/-- A stretch that ends less than a round behind the start of an earlier one shares no
slot with it. -/
theorem stretch_disjoint {start n next k slot : Nat} (hbefore : start + n ≤ next)
    (hround : next + k ≤ start + size) (hslot : slot ∈ stretch size start n) :
    slot ∉ stretch size next k := by
  intro hslot'
  obtain ⟨q, hlo, hhi, rfl⟩ := mem_stretch.mp hslot
  obtain ⟨r, hlo', hhi', heq⟩ := mem_stretch.mp hslot'
  exact mod_ne_of_lt (by omega) (by omega) heq.symm

/-- One that goes further runs into its first slot. -/
theorem start_mem_stretch {start next k : Nat} (hbefore : next ≤ start + size)
    (hround : start + size < next + k) : start % size ∈ stretch size next k :=
  mem_stretch.mpr ⟨start + size, hbefore, hround, Nat.add_mod_right _ _⟩

end DonutOS.Foundation
