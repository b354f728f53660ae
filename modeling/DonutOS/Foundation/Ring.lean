import Mathlib.Algebra.Group.Int.Defs
import Mathlib.Algebra.Group.Nat.Defs
import Mathlib.Data.List.Basic
import Mathlib.Logic.Function.Basic
import Mathlib.Tactic.Common

set_option autoImplicit false

/-!
# Foundation: circular lists linked through a next function

Cells are addresses of any type and `next` is the link.  `Walk next x l y` says
that following the links from `x` visits the cells of `l` and arrives at `y`; a
ring is a walk that visits no cell twice and arrives where it started.  The
module has the two edits of such lists: a cell linked in at the end, and a
stretch of cells cut out behind a cell that stays.
-/

namespace DonutOS.Foundation

variable {α : Type}

/-- Following `next` from `x` visits `l` and arrives at `y`. -/
def Walk (next : α → α) : α → List α → α → Prop
  | x, [], y => x = y
  | x, a :: l, y => x = a ∧ Walk next (next a) l y

/-- A ring that starts at `fst` and whose last cell is `lst`. -/
structure IsRing (next : α → α) (fst : α) (ring : List α) (lst : α) : Prop where
  walk : Walk next fst ring fst
  nodup : ring.Nodup
  last : ring.getLast? = some lst

@[simp] theorem walk_nil {next : α → α} {x y : α} : Walk next x [] y ↔ x = y := Iff.rfl

@[simp] theorem walk_cons {next : α → α} {x y a : α} {l : List α} :
    Walk next x (a :: l) y ↔ x = a ∧ Walk next (next a) l y := Iff.rfl

theorem walk_append {next : α → α} {x y : α} {l m : List α} :
    Walk next x (l ++ m) y ↔ ∃ z, Walk next x l z ∧ Walk next z m y := by
  induction l generalizing x with
  | nil => simp
  | cons a l ih =>
      simp only [List.cons_append, walk_cons, ih]
      constructor
      · rintro ⟨rfl, z, hl, hm⟩
        exact ⟨z, ⟨rfl, hl⟩, hm⟩
      · rintro ⟨z, ⟨rfl, hl⟩, hm⟩
        exact ⟨rfl, z, hl, hm⟩

/-- Only the links of the visited cells matter. -/
theorem Walk.congr {next next' : α → α} {x y : α} {l : List α} (h : Walk next x l y)
    (hsame : ∀ a ∈ l, next' a = next a) : Walk next' x l y := by
  induction l generalizing x with
  | nil => exact h
  | cons a l ih =>
      refine ⟨h.1, ?_⟩
      rw [hsame a List.mem_cons_self]
      exact ih h.2 fun b hb => hsame b (List.mem_cons_of_mem _ hb)

/-- A walk arrives at one place only. -/
theorem Walk.end_unique {next : α → α} {x y z : α} {l : List α} (h : Walk next x l y)
    (h' : Walk next x l z) : y = z := by
  induction l generalizing x with
  | nil => exact h.symm.trans h'
  | cons a l ih => exact ih h.2 h'.2

/-- The first cell without `P` that a walk meets is determined by its start. -/
theorem Walk.stop_unique {next : α → α} {P : α → Prop} {x y z : α} {l m : List α}
    (h : Walk next x l y) (h' : Walk next x m z) (hl : ∀ a ∈ l, P a) (hm : ∀ a ∈ m, P a)
    (hy : ¬ P y) (hz : ¬ P z) : y = z := by
  induction l generalizing x m with
  | nil =>
      cases m with
      | nil => exact h.symm.trans h'
      | cons b m => exact absurd (hm b List.mem_cons_self) (h'.1 ▸ h.symm ▸ hy)
  | cons a l ih =>
      cases m with
      | nil => exact absurd (hl a List.mem_cons_self) (h.1 ▸ h'.symm ▸ hz)
      | cons b m =>
          obtain rfl : a = b := h.1.symm.trans h'.1
          exact ih h.2 h'.2 (fun c hc => hl c (List.mem_cons_of_mem _ hc))
            fun c hc => hm c (List.mem_cons_of_mem _ hc)

/-- Of two walks from one cell, one continues the other. -/
theorem Walk.prefix_or {next : α → α} {x y z : α} {l m : List α} (h : Walk next x l y)
    (h' : Walk next x m z) : l <+: m ∨ m <+: l := by
  induction l generalizing x m with
  | nil => exact Or.inl (List.nil_prefix)
  | cons a l ih =>
      cases m with
      | nil => exact Or.inr (List.nil_prefix)
      | cons b m =>
          obtain rfl : a = b := h.1.symm.trans h'.1
          exact (ih h.2 h'.2).imp (List.cons_prefix_cons.mpr ⟨rfl, ·⟩)
            (List.cons_prefix_cons.mpr ⟨rfl, ·⟩)

theorem Walk.head_eq {next : α → α} {x y : α} {l : List α} (h : Walk next x l y)
    (hne : l ≠ []) : ∃ m, l = x :: m := by
  cases l with
  | nil => exact absurd rfl hne
  | cons a m => exact ⟨m, by rw [h.1]⟩

theorem IsRing.ne_nil {next : α → α} {fst lst : α} {ring : List α}
    (h : IsRing next fst ring lst) : ring ≠ [] := by
  rintro rfl
  exact Option.noConfusion rfl (heq_of_eq h.last)

theorem IsRing.fst_mem {next : α → α} {fst lst : α} {ring : List α}
    (h : IsRing next fst ring lst) : fst ∈ ring := by
  obtain ⟨m, rfl⟩ := h.walk.head_eq h.ne_nil
  exact List.mem_cons_self

theorem IsRing.lst_mem {next : α → α} {fst lst : α} {ring : List α}
    (h : IsRing next fst ring lst) : lst ∈ ring := List.mem_of_getLast? h.last

/-- A ring cannot be continued: its first cell would be visited again. -/
theorem IsRing.eq_of_prefix {next : α → α} {fst lst : α} {ring m : List α}
    (h : IsRing next fst ring lst) (hwalk : Walk next fst m fst) (hnodup : m.Nodup)
    (hcont : ring <+: m) : m = ring := by
  obtain ⟨t, rfl⟩ := hcont
  obtain ⟨z, hring, hrest⟩ := walk_append.mp hwalk
  obtain rfl := h.walk.end_unique hring
  cases t with
  | nil => exact List.append_nil ring
  | cons a t =>
      have hfst : a ∈ ring := hrest.1 ▸ h.fst_mem
      exact absurd rfl ((List.nodup_append.mp hnodup).2.2 a hfst a List.mem_cons_self)

/-- The links determine the ring. -/
theorem IsRing.unique {next : α → α} {fst lst lst' : α} {ring ring' : List α}
    (h : IsRing next fst ring lst) (h' : IsRing next fst ring' lst') : ring = ring' := by
  rcases h.walk.prefix_or h'.walk with hcont | hcont
  · exact (h.eq_of_prefix h'.walk h'.nodup hcont).symm
  · exact h'.eq_of_prefix h.walk h.nodup hcont

/-- A ring decomposed at one of its cells: the rest of the list leads from that
cell's successor back to the first cell. -/
theorem IsRing.walk_behind {next : α → α} {fst lst c : α} {pre rest : List α}
    (h : IsRing next fst (pre ++ c :: rest) lst) : Walk next (next c) rest fst := by
  obtain ⟨w, _, _, hrest⟩ := walk_append.mp h.walk
  exact hrest

/-- The last cell of a ring is the last one behind any other of its cells. -/
theorem IsRing.last_behind {next : α → α} {fst lst c : α} {pre rest : List α}
    (h : IsRing next fst (pre ++ c :: rest) lst) (hne : rest ≠ []) :
    rest.getLast? = some lst := by
  rw [← h.last, List.append_cons, List.getLast?_append_of_ne_nil _ hne]

/-- Where the last cell of a ring is, seen from one of its cells. -/
theorem IsRing.last_cases {next : α → α} {fst lst c : α} {pre ds : List α}
    (h : IsRing next fst (pre ++ c :: ds) lst) : (ds = [] ∧ c = lst) ∨ lst ∈ ds := by
  cases ds with
  | nil =>
      have hlast := h.last
      rw [List.getLast?_concat, Option.some.injEq] at hlast
      exact Or.inl ⟨rfl, hlast⟩
  | cons d ds => exact Or.inr (List.mem_of_getLast? (h.last_behind (List.cons_ne_nil d ds)))

/-! ## The two edits -/

section Edits

variable [DecidableEq α]

/-- Changing the link of a cell that is not visited changes nothing. -/
theorem Walk.update {next : α → α} {x y c z : α} {l : List α} (h : Walk next x l y)
    (hc : c ∉ l) : Walk (Function.update next c z) x l y := by
  refine h.congr fun a ha => Function.update_of_ne ?_ _ _
  rintro rfl
  exact hc ha

/-- The ring with one more cell at its end. -/
theorem IsRing.insert {next : α → α} {fst lst c : α} {ring : List α}
    (h : IsRing next fst ring lst) (hc : c ∉ ring) :
    IsRing (Function.update (Function.update next lst c) c fst) fst (ring ++ [c]) c where
  walk := by
    obtain ⟨init, rfl⟩ : ∃ init, ring = init ++ [lst] :=
      ⟨_, (List.dropLast_append_getLast? lst h.last).symm⟩
    have hlst : lst ∉ init := by
      intro hmem
      exact (List.nodup_append.mp h.nodup).2.2 lst hmem lst List.mem_cons_self rfl
    rw [List.mem_append, List.mem_singleton, not_or] at hc
    obtain ⟨z, hinit, hz⟩ := walk_append.mp h.walk
    obtain ⟨rfl, _⟩ := hz
    rw [walk_append]
    refine ⟨c, ?_, ?_⟩
    · rw [walk_append]
      refine ⟨z, (hinit.update hlst).update hc.1, rfl, ?_⟩
      rw [Function.update_of_ne (Ne.symm hc.2), Function.update_self]
      rfl
    · refine ⟨rfl, ?_⟩
      rw [Function.update_self]
      rfl
  nodup := by
    rw [List.nodup_append]
    refine ⟨h.nodup, List.nodup_cons.mpr ⟨List.not_mem_nil, List.nodup_nil⟩, fun a ha b hb => ?_⟩
    rw [List.mem_singleton.mp hb]
    rintro rfl
    exact hc ha
  last := List.getLast?_concat

/-- Cutting out the cells `ds` behind `c`: the walk goes on where they ended. -/
theorem Walk.cut {next : α → α} {x y z c : α} {pre ds post : List α}
    (h : Walk next x (pre ++ c :: (ds ++ post)) y)
    (hnodup : (pre ++ c :: (ds ++ post)).Nodup) (hds : Walk next (next c) ds z) :
    Walk (Function.update next c z) x (pre ++ c :: post) y := by
  obtain ⟨w, hpre, hw, hrest⟩ := walk_append.mp h
  obtain ⟨u, hds', hpost⟩ := walk_append.mp hrest
  obtain rfl := hds.end_unique hds'
  rw [List.nodup_append, List.nodup_cons] at hnodup
  obtain ⟨_, ⟨hc, _⟩, hdisj⟩ := hnodup
  have hcpre : c ∉ pre := fun hmem => hdisj c hmem c List.mem_cons_self rfl
  have hcpost : c ∉ post := fun hmem => hc (List.mem_append_right _ hmem)
  rw [walk_append]
  refine ⟨w, hpre.update hcpre, hw, ?_⟩
  rw [Function.update_self]
  exact hpost.update hcpost

/-- The ring with the cells `ds` behind `c` cut out.  When they reached up to the
end of the ring, `c` is its last cell now. -/
theorem IsRing.cut {next : α → α} {fst lst z c : α} {pre ds post : List α}
    (h : IsRing next fst (pre ++ c :: (ds ++ post)) lst) (hds : Walk next (next c) ds z) :
    IsRing (Function.update next c z) fst (pre ++ c :: post)
      (if post = [] then c else lst) where
  walk := h.walk.cut h.nodup hds
  nodup := by
    refine h.nodup.sublist ((List.append_sublist_append_left pre).mpr ?_)
    exact List.Sublist.cons_cons c (List.sublist_append_right ds post)
  last := by
    cases post with
    | nil => exact List.getLast?_concat
    | cons a post =>
        have hne : a :: post ≠ [] := List.cons_ne_nil a post
        have hlast := h.last_behind (List.append_ne_nil_of_right_ne_nil ds hne)
        rw [List.getLast?_append_of_ne_nil _ hne] at hlast
        rw [if_neg hne, List.append_cons, List.getLast?_append_of_ne_nil _ hne, hlast]

end Edits

end DonutOS.Foundation
