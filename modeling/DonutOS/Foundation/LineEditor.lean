import Mathlib.Algebra.Group.Int.Defs
import Mathlib.Algebra.Group.Nat.Defs
import Mathlib.Data.List.Basic

set_option autoImplicit false

/-!
# Foundation: a line editor

A line is a text with a cursor between two of its characters or at an end.  The
second half is about a line kept in an array, where an edit moves what is behind
the cursor by one place.
-/

namespace DonutOS.Foundation

variable {α : Type}

/-- A text, and how many of its characters are before the cursor. -/
structure Line (α : Type) where
  text : List α
  cursor : Nat
  inside : cursor ≤ text.length

/-- What the user of a line editor asks for. -/
inductive Edit (α : Type)
  | insert (c : α)
  | deleteBefore
  | deleteAt
  | left
  | right
  | home
  | toEnd
  deriving DecidableEq, Repr

namespace Line

def empty : Line α := ⟨[], 0, Nat.le_refl 0⟩

def insert (c : α) (l : Line α) : Line α where
  text := l.text.insertIdx l.cursor c
  cursor := l.cursor + 1
  inside := by
    rw [List.length_insertIdx_of_le_length l.inside]
    exact Nat.succ_le_succ l.inside

/-- The character before the cursor goes; at the start of the line none does. -/
def deleteBefore (l : Line α) : Line α :=
  if h : 0 < l.cursor then
    { text := l.text.eraseIdx (l.cursor - 1)
      cursor := l.cursor - 1
      inside := by
        have hin := l.inside
        rw [List.length_eraseIdx_of_lt (by omega)]
        omega }
  else l

/-- The character behind the cursor goes; at the end of the line none does. -/
def deleteAt (l : Line α) : Line α where
  text := l.text.eraseIdx l.cursor
  cursor := l.cursor
  inside := by
    have hin := l.inside
    rw [List.length_eraseIdx]
    split <;> omega

def left (l : Line α) : Line α :=
  ⟨l.text, l.cursor - 1, Nat.le_trans (Nat.sub_le _ _) l.inside⟩

def right (l : Line α) : Line α := ⟨l.text, min (l.cursor + 1) l.text.length, Nat.min_le_right _ _⟩

def home (l : Line α) : Line α := ⟨l.text, 0, Nat.zero_le _⟩

def toEnd (l : Line α) : Line α := ⟨l.text, l.text.length, Nat.le_refl _⟩

/-- One edit. -/
def apply : Edit α → Line α → Line α
  | .insert c => insert c
  | .deleteBefore => deleteBefore
  | .deleteAt => deleteAt
  | .left => left
  | .right => right
  | .home => home
  | .toEnd => toEnd

/-- A run of the editor. -/
def run (edits : List (Edit α)) (l : Line α) : Line α := edits.foldl (fun l e => l.apply e) l

theorem text_deleteBefore {l : Line α} (h : 0 < l.cursor) :
    l.deleteBefore.text = l.text.eraseIdx (l.cursor - 1) := by
  rw [deleteBefore, dif_pos h]

theorem cursor_deleteBefore (l : Line α) : l.deleteBefore.cursor = l.cursor - 1 := by
  unfold deleteBefore
  split
  · rfl
  · omega

theorem text_insert (c : α) (l : Line α) : (l.insert c).text = l.text.insertIdx l.cursor c := rfl

theorem length_apply_insert (c : α) (l : Line α) :
    (l.apply (.insert c)).text.length = l.text.length + 1 :=
  List.length_insertIdx_of_le_length l.inside c

/-- Only an insertion makes a line longer. -/
theorem length_apply_le {e : Edit α} (h : ∀ c, e ≠ .insert c) (l : Line α) :
    (l.apply e).text.length ≤ l.text.length := by
  cases e with
  | insert c => exact absurd rfl (h c)
  | deleteBefore =>
      change l.deleteBefore.text.length ≤ _
      unfold deleteBefore
      split
      · exact List.length_eraseIdx_le _ _
      · exact Nat.le_refl _
  | deleteAt => exact List.length_eraseIdx_le _ _
  | left => exact Nat.le_refl _
  | right => exact Nat.le_refl _
  | home => exact Nat.le_refl _
  | toEnd => exact Nat.le_refl _

/-- A character typed at the end of a line is appended. -/
theorem insert_at_end (c : α) {l : Line α} (hend : l.cursor = l.text.length) :
    (l.insert c).text = l.text ++ [c] ∧ (l.insert c).cursor = (l.insert c).text.length := by
  have happend : (l.insert c).text = l.text ++ [c] := by
    rw [text_insert, hend, List.insertIdx_length_self]
  refine ⟨happend, ?_⟩
  rw [happend, List.length_append]
  exact congrArg (· + 1) hend

theorem run_insert_at_end (cs : List α) {l : Line α} (hend : l.cursor = l.text.length) :
    (l.run (cs.map .insert)).text = l.text ++ cs := by
  induction cs generalizing l with
  | nil => exact (List.append_nil _).symm
  | cons c cs ih =>
      obtain ⟨happend, hend'⟩ := insert_at_end c hend
      calc ((l.insert c).run (cs.map .insert)).text = (l.insert c).text ++ cs := ih hend'
        _ = l.text ++ c :: cs := by rw [happend, List.append_assoc, List.singleton_append]

end Line

/-! ## Lines in an array -/

/-- The characters `cs` are in the array from `a` on. -/
def TextAt (m : Nat → α) (a : Nat) (cs : List α) : Prop :=
  ∀ i (hi : i < cs.length), m (a + i) = cs[i]

namespace TextAt

variable {m m' : Nat → α} {a : Nat} {cs ds : List α}

theorem nil (m : Nat → α) (a : Nat) : TextAt m a [] := fun i hi => absurd hi (Nat.not_lt_zero i)

theorem congr (h : TextAt m a cs) (hsame : ∀ i < cs.length, m' (a + i) = m (a + i)) :
    TextAt m' a cs := fun i hi => (hsame i hi).trans (h i hi)

/-- An array holds one text of each length. -/
theorem unique (h : TextAt m a cs) (h' : TextAt m a ds) (hlen : cs.length = ds.length) :
    cs = ds :=
  List.ext_getElem hlen fun i hi hi' => (h i hi).symm.trans (h' i hi')

theorem append_singleton {c : α} (h : TextAt m a cs) (hc : m (a + cs.length) = c) :
    TextAt m a (cs ++ [c]) := by
  intro i hi
  rw [List.length_append, List.length_singleton] at hi
  rcases Nat.lt_or_eq_of_le (Nat.le_of_lt_succ hi) with hlt | rfl
  · rw [List.getElem_append_left hlt]
    exact h i hlt
  · rw [List.getElem_append_right (Nat.le_refl _)]
    simpa using hc

/-- The characters from the cursor on have moved up, and `c` is in their place. -/
theorem insert {c : α} {p : Nat} (h : TextAt m a cs) (hp : p ≤ cs.length)
    (hbefore : ∀ i < p, m' (a + i) = m (a + i)) (hat : m' (a + p) = c)
    (hmoved : ∀ i, p ≤ i → i < cs.length → m' (a + (i + 1)) = m (a + i)) :
    TextAt m' a (cs.insertIdx p c) := by
  intro i hi
  rw [List.length_insertIdx_of_le_length hp] at hi
  rcases Nat.lt_trichotomy i p with hlt | rfl | hgt
  · rw [List.getElem_insertIdx_of_lt hlt, hbefore i hlt]
    exact h i (by omega)
  · rw [List.getElem_insertIdx_self]
    exact hat
  · obtain ⟨j, rfl⟩ : ∃ j, i = j + 1 := ⟨i - 1, by omega⟩
    rw [List.getElem_insertIdx_of_gt hgt, hmoved j (by omega) (by omega)]
    exact h j (by omega)

/-- The characters behind the place `p` have moved down onto it. -/
theorem erase {p : Nat} (h : TextAt m a cs) (hp : p < cs.length)
    (hbefore : ∀ i < p, m' (a + i) = m (a + i))
    (hmoved : ∀ i, p ≤ i → i + 1 < cs.length → m' (a + i) = m (a + (i + 1))) :
    TextAt m' a (cs.eraseIdx p) := by
  intro i hi
  have hlen : i < cs.length - 1 := by
    rwa [List.length_eraseIdx_of_lt hp] at hi
  by_cases hlt : i < p
  · rw [List.getElem_eraseIdx_of_lt hi hlt, hbefore i hlt]
    exact h i (by omega)
  · rw [List.getElem_eraseIdx_of_ge hi (Nat.not_lt.mp hlt), hmoved i (by omega) (by omega)]
    exact h (i + 1) (by omega)

end TextAt

/-- A text in an array, with padding behind it up to `stop`. -/
structure PaddedText (pad : α → Prop) (m : Nat → α) (a stop : Nat) (cs : List α) : Prop where
  text : TextAt m a cs
  inside : a + cs.length < stop
  rest : ∀ i, a + cs.length ≤ i → i < stop → pad (m i)

namespace PaddedText

variable {pad : α → Prop} {m m' : Nat → α} {a stop : Nat} {cs : List α}

theorem congr (h : PaddedText pad m a stop cs) (hsame : ∀ i, a ≤ i → i < stop → m' i = m i) :
    PaddedText pad m' a stop cs where
  text := h.text.congr fun i hi => hsame _ (Nat.le_add_right _ _) (by have := h.inside; omega)
  inside := h.inside
  rest := by
    intro i hlo hhi
    rw [hsame i (by omega) hhi]
    exact h.rest i hlo hhi

/-- The characters from the place `p` on have moved up, and `c` is in their place. -/
theorem insert {c : α} {p : Nat} (h : PaddedText pad m a stop cs) (hp : p ≤ cs.length)
    (hinside : a + cs.length + 1 < stop)
    (hcells : ∀ j, m' j =
      if j = a + p then c else if a + p < j ∧ j ≤ a + cs.length then m (j - 1) else m j) :
    PaddedText pad m' a stop (cs.insertIdx p c) := by
  have hlen := List.length_insertIdx_of_le_length hp c
  refine ⟨h.text.insert hp (fun i hi => ?_) ?_ fun i hlo hhi => ?_, ?_, fun i hlo hhi => ?_⟩
  · rw [hcells, if_neg (by omega), if_neg (by omega)]
  · rw [hcells, if_pos rfl]
  · rw [hcells, if_neg (by omega), if_pos (by omega)]
    rfl
  · rw [hlen]
    exact hinside
  · rw [hlen] at hlo
    rw [hcells, if_neg (by omega), if_neg (by omega)]
    exact h.rest i (by omega) hhi

/-- What is behind the place `p` has moved down onto it, up to `hi`, and the place `b`
is filled with padding. -/
theorem erase {d : α} {p hi b : Nat} (h : PaddedText pad m a stop cs) (hp : p < cs.length)
    (hd : pad d) (hhi : a + cs.length ≤ hi + 1) (hb : b = hi ∨ a + cs.length ≤ hi ∧ hi < b)
    (hpulled : hi < stop ∨ pad (m stop))
    (hcells : ∀ j, m' j = if j = b then d else if a + p ≤ j ∧ j < hi then m (j + 1) else m j) :
    PaddedText pad m' a stop (cs.eraseIdx p) := by
  have hlen := List.length_eraseIdx_of_lt hp
  have hinside := h.inside
  refine ⟨h.text.erase hp (fun i hlt => ?_) fun i hlo hnext => ?_, ?_, fun i hlo hlt => ?_⟩
  · rw [hcells, if_neg (by omega), if_neg (by omega)]
  · rw [hcells, if_neg (by omega), if_pos (by omega)]
    rfl
  · rw [hlen]
    omega
  · rw [hlen] at hlo
    rw [hcells]
    split
    · exact hd
    split
    · next hmoved =>
        rcases Nat.lt_or_ge (i + 1) stop with hnext | hlast
        · exact h.rest (i + 1) (by omega) hnext
        · obtain rfl : i + 1 = stop := by omega
          exact hpulled.resolve_left (by omega)
    · exact h.rest i (by omega) hlt

end PaddedText

end DonutOS.Foundation
