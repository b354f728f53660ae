import Mathlib.Logic.Function.Basic
import Mathlib.Order.Lattice
import Mathlib.Tactic.Common

set_option autoImplicit false

/-!
# Foundation: a picture drawn with a depth buffer

Samples are drawn one after another.  Each has a cell, a depth and a colour, and takes
its cell if it is nearer than what the cell shows.  In the end a cell shows the nearest
of its samples, the first one among equals, however the samples were ordered.
-/

namespace DonutOS.Foundation

variable {κ δ γ : Type} [LinearOrder δ]

/-- A point of the scene as it falls on the picture. -/
structure Sample (κ δ γ : Type) where
  cell : κ
  depth : δ
  colour : γ

/-- What the cells show, and how far that is. -/
structure DepthBuffer (κ δ γ : Type) where
  depth : κ → δ
  colour : κ → γ

namespace DepthBuffer

/-- The first among the nearest samples of its cell. -/
def IsNearest (samples : List (Sample κ δ γ)) (s : Sample κ δ γ) : Prop :=
  ∃ before after, samples = before ++ s :: after ∧
    (∀ t ∈ before, t.cell = s.cell → s.depth < t.depth) ∧
    ∀ t ∈ after, t.cell = s.cell → s.depth ≤ t.depth

/-- The cells show the samples, on the ground of the picture `blank`. -/
def Shows (blank : DepthBuffer κ δ γ) (samples : List (Sample κ δ γ))
    (b : DepthBuffer κ δ γ) : Prop :=
  ∀ c, (∃ s, IsNearest samples s ∧ s.cell = c ∧ s.depth < blank.depth c ∧
      b.depth c = s.depth ∧ b.colour c = s.colour) ∨
    ((∀ s ∈ samples, s.cell = c → blank.depth c ≤ s.depth) ∧
      b.depth c = blank.depth c ∧ b.colour c = blank.colour c)

theorem shows_blank (blank : DepthBuffer κ δ γ) : blank.Shows [] blank :=
  fun _ => .inr ⟨fun _ hs => absurd hs List.not_mem_nil, rfl, rfl⟩

/-- A sample that is not nearer than what its cell shows changes nothing. -/
theorem IsNearest.append_of_le {samples : List (Sample κ δ γ)} {s t : Sample κ δ γ}
    (h : IsNearest samples s) (ht : t.cell = s.cell → s.depth ≤ t.depth) :
    IsNearest (samples ++ [t]) s := by
  obtain ⟨before, after, rfl, hbefore, hafter⟩ := h
  refine ⟨before, after ++ [t], by simp, hbefore, fun u hu hcell => ?_⟩
  rcases List.mem_append.mp hu with hu | hu
  · exact hafter u hu hcell
  · rw [List.mem_singleton] at hu
    subst hu
    exact ht hcell

/-- The nearest sample of a cell is no farther than any other of that cell. -/
theorem IsNearest.le {samples : List (Sample κ δ γ)} {s t : Sample κ δ γ}
    (h : IsNearest samples s) (ht : t ∈ samples) (hcell : t.cell = s.cell) :
    s.depth ≤ t.depth := by
  obtain ⟨before, after, rfl, hbefore, hafter⟩ := h
  rcases List.mem_append.mp ht with ht | ht
  · exact le_of_lt (hbefore t ht hcell)
  · rcases List.mem_cons.mp ht with rfl | ht
    · exact le_refl _
    · exact hafter t ht hcell

variable [DecidableEq κ]

/-- Draw one sample. -/
def draw (s : Sample κ δ γ) (b : DepthBuffer κ δ γ) : DepthBuffer κ δ γ :=
  if s.depth < b.depth s.cell then
    ⟨Function.update b.depth s.cell s.depth, Function.update b.colour s.cell s.colour⟩
  else b

/-- Draw one sample after another. -/
def drawAll (samples : List (Sample κ δ γ)) (b : DepthBuffer κ δ γ) : DepthBuffer κ δ γ :=
  samples.foldl (fun b s => b.draw s) b

theorem drawAll_append (b : DepthBuffer κ δ γ) (samples more : List (Sample κ δ γ)) :
    b.drawAll (samples ++ more) = (b.drawAll samples).drawAll more :=
  List.foldl_append

theorem draw_of_nearer {t : Sample κ δ γ} {b : DepthBuffer κ δ γ}
    (h : t.depth < b.depth t.cell) :
    (b.draw t).depth t.cell = t.depth ∧ (b.draw t).colour t.cell = t.colour := by
  rw [draw, if_pos h]
  exact ⟨Function.update_self _ _ _, Function.update_self _ _ _⟩

theorem draw_of_not_nearer {t : Sample κ δ γ} {b : DepthBuffer κ δ γ} {c : κ}
    (h : t.cell = c → b.depth c ≤ t.depth) :
    (b.draw t).depth c = b.depth c ∧ (b.draw t).colour c = b.colour c := by
  unfold draw
  split
  next hnear =>
    have hc : c ≠ t.cell := fun heq => (h heq.symm).not_gt (heq ▸ hnear)
    exact ⟨Function.update_of_ne hc _ _, Function.update_of_ne hc _ _⟩
  next => exact ⟨rfl, rfl⟩

/-- One sample more. -/
theorem Shows.draw {blank b : DepthBuffer κ δ γ} {samples : List (Sample κ δ γ)}
    (h : blank.Shows samples b) (t : Sample κ δ γ) :
    blank.Shows (samples ++ [t]) (b.draw t) := by
  intro c
  by_cases hnear : t.cell = c ∧ t.depth < b.depth c
  · -- the sample comes to the front of its cell
    obtain ⟨rfl, hnear⟩ := hnear
    obtain ⟨hdepth, hcolour⟩ := draw_of_nearer hnear
    have hfront : t.depth < blank.depth t.cell ∧
        ∀ u ∈ samples, u.cell = t.cell → t.depth < u.depth := by
      rcases h t.cell with ⟨s, hs, hsc, hsfront, hsdepth, -⟩ | ⟨hfar, hblank, -⟩
      · rw [hsdepth] at hnear
        exact ⟨hnear.trans hsfront, fun u hu hcell =>
          lt_of_lt_of_le hnear (hs.le hu (hcell.trans hsc.symm))⟩
      · rw [hblank] at hnear
        exact ⟨hnear, fun u hu hcell => lt_of_lt_of_le hnear (hfar u hu hcell)⟩
    exact .inl ⟨t, ⟨samples, [], rfl, hfront.2, fun u hu => absurd hu List.not_mem_nil⟩, rfl,
      hfront.1, hdepth, hcolour⟩
  · -- the cell keeps what it shows
    have hback : t.cell = c → b.depth c ≤ t.depth := fun hc =>
      not_lt.mp fun hlt => hnear ⟨hc, hlt⟩
    obtain ⟨hdepth, hcolour⟩ := draw_of_not_nearer hback
    rw [hdepth, hcolour]
    rcases h c with ⟨s, hs, rfl, hfront, hsdepth, hscolour⟩ | ⟨hfar, hblank, hground⟩
    · rw [hsdepth] at hback
      exact .inl ⟨s, hs.append_of_le hback, rfl, hfront, hsdepth, hscolour⟩
    · refine .inr ⟨fun u hu hcell => ?_, hblank, hground⟩
      rw [hblank] at hback
      rcases List.mem_append.mp hu with hu | hu
      · exact hfar u hu hcell
      · rw [List.mem_singleton] at hu
        subst hu
        exact hback hcell

/-- The picture after all samples. -/
theorem Shows.drawAll {blank b : DepthBuffer κ δ γ} {samples : List (Sample κ δ γ)}
    (h : blank.Shows samples b) (more : List (Sample κ δ γ)) :
    blank.Shows (samples ++ more) (b.drawAll more) := by
  induction more generalizing samples b with
  | nil =>
      rw [List.append_nil]
      exact h
  | cons t more ih =>
      rw [List.append_cons]
      exact ih (h.draw t)

theorem shows_drawAll (blank : DepthBuffer κ δ γ) (samples : List (Sample κ δ γ)) :
    blank.Shows samples (blank.drawAll samples) :=
  (shows_blank blank).drawAll samples

end DepthBuffer

end DonutOS.Foundation
