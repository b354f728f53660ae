import Mathlib.Algebra.Group.Int.Defs
import Mathlib.Algebra.Group.Nat.Defs
import Mathlib.Data.List.Basic

set_option autoImplicit false

/-!
# Foundation: a cursor in a list that grows

The cursor is on an element of the list, or on the place of the first one while the list
is empty.  A window of the list is shown that starts some elements before it.
-/

namespace DonutOS.Foundation

structure ListCursor where
  size : Nat
  sel : Nat
  valid : sel = 0 ∨ sel < size

inductive CursorMove
  | stay
  | up
  | down
  /-- the list has at least so many elements now -/
  | grow (size : Nat)
  deriving DecidableEq

/-- It moves the cursor. -/
def CursorMove.moves : CursorMove → Bool
  | .up | .down => true
  | .stay | .grow _ => false

namespace ListCursor

theorem valid_up {size sel : Nat} (h : sel = 0 ∨ sel < size) : sel - 1 = 0 ∨ sel - 1 < size := by
  omega

theorem valid_down {size sel : Nat} (h : sel = 0 ∨ sel < size) :
    (if sel + 1 < size then sel + 1 else sel) = 0 ∨
      (if sel + 1 < size then sel + 1 else sel) < size := by
  split
  · next hlt => exact .inr hlt
  · exact h

theorem valid_grow {size sel : Nat} (h : sel = 0 ∨ sel < size) (n : Nat) :
    sel = 0 ∨ sel < max size n :=
  h.imp_right fun hlt => Nat.lt_of_lt_of_le hlt (Nat.le_max_left _ _)

/-- One move; at the ends of the list the cursor stays. -/
def move (c : ListCursor) : CursorMove → ListCursor
  | .stay => c
  | .up => ⟨c.size, c.sel - 1, valid_up c.valid⟩
  | .down => ⟨c.size, if c.sel + 1 < c.size then c.sel + 1 else c.sel, valid_down c.valid⟩
  | .grow n => ⟨max c.size n, c.sel, valid_grow c.valid n⟩

end ListCursor

/-! ## The window -/

variable {back height size sel : Nat}

/-- The elements that are shown: `height` of them at most, from `back` before the cursor. -/
def window (back height size sel : Nat) : List Nat :=
  List.range' (sel - back) (min height (size - (sel - back)))

theorem mem_window {i : Nat} :
    i ∈ window back height size sel ↔ sel - back ≤ i ∧ i < size ∧ i < sel - back + height := by
  rw [window, List.mem_range'_1]
  omega

/-- The cursor is shown. -/
theorem sel_mem_window (hback : back < height) (hsel : sel < size) :
    sel ∈ window back height size sel :=
  mem_window.mpr (by omega)

/-- A loop over the window that has come to `i`, and goes no further. -/
theorem range'_eq_window {i : Nat} (hfirst : sel - back ≤ i) (hbound : i ≤ sel - back + height)
    (hsize : i ≤ size ∨ i = sel - back) (hstop : ¬(i < size ∧ i < sel - back + height)) :
    List.range' (sel - back) (i - (sel - back)) = window back height size sel := by
  have hlen : i - (sel - back) = min height (size - (sel - back)) := by omega
  rw [window, hlen]

end DonutOS.Foundation
