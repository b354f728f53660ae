import Mathlib.Algebra.Group.Int.Defs
import Mathlib.Algebra.Group.Nat.Defs
import Mathlib.Data.List.Basic
import Mathlib.Tactic.Common

set_option autoImplicit false

/-!
# Foundation: heaps that are a chain of adjacent chunks

A chain stores, at the first address of every chunk, whether the chunk is free
and how long it is; the next chunk starts where this one ends.  `Tiles` says
that the headers found by walking from `p` spell out the list `cs` and end at
`q`.  The rest of the module is the theory of such lists: where each chunk lies
(`spans`) and first-fit allocation with lazy merging of free neighbours
(`allocate`, `release`).  The header length and all addresses are arbitrary.
-/

namespace DonutOS.Foundation

/-- One chunk: its free flag and its length in bytes, header included. -/
structure Chunk where
  free : Bool
  size : Nat
  deriving DecidableEq, Repr, Inhabited

/-- The summed length of a list of chunks. -/
def total : List Chunk → Nat
  | [] => 0
  | c :: cs => c.size + total cs

/-- Walking from `p`, the headers read by `hdr` are those of `cs`, and the walk
ends at `q`. -/
def Tiles (hdr : Nat → Chunk) : Nat → List Chunk → Nat → Prop
  | p, [], q => p = q
  | p, c :: cs, q => hdr p = c ∧ Tiles hdr (p + c.size) cs q

/-- The chunks of a chain that starts at `p`, each with its first address. -/
def spans : Nat → List Chunk → List (Nat × Chunk)
  | _, [] => []
  | p, c :: cs => (p, c) :: spans (p + c.size) cs

@[simp] theorem total_nil : total [] = 0 := rfl

@[simp] theorem total_cons (c : Chunk) (cs : List Chunk) :
    total (c :: cs) = c.size + total cs := rfl

@[simp] theorem total_append (cs ds : List Chunk) :
    total (cs ++ ds) = total cs + total ds := by
  induction cs with
  | nil => simp
  | cons c cs ih => simp [ih, Nat.add_assoc]

@[simp] theorem tiles_nil {hdr : Nat → Chunk} {p q : Nat} :
    Tiles hdr p [] q ↔ p = q := Iff.rfl

@[simp] theorem tiles_cons {hdr : Nat → Chunk} {p q : Nat} {c : Chunk}
    {cs : List Chunk} :
    Tiles hdr p (c :: cs) q ↔ hdr p = c ∧ Tiles hdr (p + c.size) cs q := Iff.rfl

@[simp] theorem spans_nil (p : Nat) : spans p [] = [] := rfl

@[simp] theorem spans_cons (p : Nat) (c : Chunk) (cs : List Chunk) :
    spans p (c :: cs) = (p, c) :: spans (p + c.size) cs := rfl

theorem spans_append (p : Nat) (cs ds : List Chunk) :
    spans p (cs ++ ds) = spans p cs ++ spans (p + total cs) ds := by
  induction cs generalizing p with
  | nil => simp
  | cons c cs ih => simp [ih, Nat.add_assoc]

/-- A chain ends where its lengths say. -/
theorem Tiles.end_eq {hdr : Nat → Chunk} {p q : Nat} {cs : List Chunk}
    (h : Tiles hdr p cs q) : q = p + total cs := by
  induction cs generalizing p with
  | nil => simpa using h.symm
  | cons c cs ih =>
      have := ih h.2
      simp only [total_cons]
      omega

theorem tiles_append {hdr : Nat → Chunk} {p q : Nat} {cs ds : List Chunk} :
    Tiles hdr p (cs ++ ds) q ↔
      Tiles hdr p cs (p + total cs) ∧ Tiles hdr (p + total cs) ds q := by
  induction cs generalizing p with
  | nil => simp
  | cons c cs ih =>
      simp only [List.cons_append, tiles_cons, ih, total_cons, ← Nat.add_assoc,
        and_assoc]

/-- Only the headers of the chain itself matter. -/
theorem Tiles.congr {hdr hdr' : Nat → Chunk} {p q : Nat} {cs : List Chunk}
    (h : Tiles hdr p cs q) (hsame : ∀ x ∈ spans p cs, hdr' x.1 = hdr x.1) :
    Tiles hdr' p cs q := by
  induction cs generalizing p with
  | nil => exact h
  | cons c cs ih =>
      refine ⟨(hsame (p, c) List.mem_cons_self).trans h.1, ih h.2 ?_⟩
      intro x hx
      exact hsame x (List.mem_cons_of_mem _ hx)

/-- The header found at a chunk's address is that chunk's. -/
theorem Tiles.header_eq {hdr : Nat → Chunk} {p q : Nat} {cs : List Chunk}
    (h : Tiles hdr p cs q) {x : Nat × Chunk} (hx : x ∈ spans p cs) :
    hdr x.1 = x.2 := by
  induction cs generalizing p with
  | nil => simp at hx
  | cons c cs ih =>
      rcases List.mem_cons.mp hx with rfl | hx
      · exact h.1
      · exact ih h.2 hx

/-- With chunks of positive length, the headers determine the chain. -/
theorem Tiles.unique {hdr : Nat → Chunk} {p q : Nat} {cs ds : List Chunk}
    (hc : Tiles hdr p cs q) (hd : Tiles hdr p ds q)
    (hcpos : ∀ c ∈ cs, 0 < c.size) (hdpos : ∀ d ∈ ds, 0 < d.size) : cs = ds := by
  induction cs generalizing p ds with
  | nil =>
      cases ds with
      | nil => rfl
      | cons d ds =>
          have hend := hd.end_eq
          have hstart : p = q := hc
          have := hdpos d List.mem_cons_self
          simp only [total_cons] at hend
          omega
  | cons c cs ih =>
      cases ds with
      | nil =>
          have hend := hc.end_eq
          have hstart : p = q := hd
          have := hcpos c List.mem_cons_self
          simp only [total_cons] at hend
          omega
      | cons d ds =>
          have hcd : c = d := hc.1.symm.trans hd.1
          subst hcd
          rw [ih hc.2 hd.2 (fun x hx => hcpos x (List.mem_cons_of_mem _ hx))
            (fun x hx => hdpos x (List.mem_cons_of_mem _ hx))]

/-! ## Where the chunks lie -/

theorem chunk_mem_of_mem_spans {p : Nat} {cs : List Chunk} {x : Nat × Chunk}
    (hx : x ∈ spans p cs) : x.2 ∈ cs := by
  induction cs generalizing p with
  | nil => simp at hx
  | cons c cs ih =>
      rcases List.mem_cons.mp hx with rfl | hx
      · exact List.mem_cons_self
      · exact List.mem_cons_of_mem _ (ih hx)

/-- Every chunk lies inside its chain. -/
theorem mem_spans_bounds {p : Nat} {cs : List Chunk} {x : Nat × Chunk}
    (hx : x ∈ spans p cs) : p ≤ x.1 ∧ x.1 + x.2.size ≤ p + total cs := by
  induction cs generalizing p with
  | nil => simp at hx
  | cons c cs ih =>
      rcases List.mem_cons.mp hx with rfl | hx
      · simp only [total_cons]; omega
      · have := ih hx
        simp only [total_cons]
        omega

/-- Two chunks of one chain do not overlap. -/
theorem spans_pairwise (p : Nat) (cs : List Chunk) :
    (spans p cs).Pairwise (fun x y => x.1 + x.2.size ≤ y.1) := by
  induction cs generalizing p with
  | nil => exact List.Pairwise.nil
  | cons c cs ih =>
      refine List.pairwise_cons.mpr ⟨?_, ih (p + c.size)⟩
      intro y hy
      exact (mem_spans_bounds hy).1

/-- Members of a list ordered by `R` are equal or related one way round. -/
theorem eq_or_rel_of_pairwise {α : Type} {R : α → α → Prop} {l : List α}
    (h : l.Pairwise R) {x y : α} (hx : x ∈ l) (hy : y ∈ l) :
    x = y ∨ R x y ∨ R y x := by
  induction h with
  | nil => simp at hx
  | @cons a l hall _ ih =>
      rcases List.mem_cons.mp hx with rfl | hx' <;>
        rcases List.mem_cons.mp hy with rfl | hy'
      · exact Or.inl rfl
      · exact Or.inr (Or.inl (hall y hy'))
      · exact Or.inr (Or.inr (hall x hx'))
      · exact ih hx' hy'

theorem eq_or_apart_of_mem_spans {p : Nat} {cs : List Chunk} {x y : Nat × Chunk}
    (hx : x ∈ spans p cs) (hy : y ∈ spans p cs) :
    x = y ∨ x.1 + x.2.size ≤ y.1 ∨ y.1 + y.2.size ≤ x.1 :=
  eq_or_rel_of_pairwise (spans_pairwise p cs) hx hy

/-- With chunks of positive length an address starts at most one of them. -/
theorem eq_of_mem_spans_of_fst_eq {p : Nat} {cs : List Chunk}
    (hpos : ∀ c ∈ cs, 0 < c.size) {x y : Nat × Chunk}
    (hx : x ∈ spans p cs) (hy : y ∈ spans p cs) (hxy : x.1 = y.1) : x = y := by
  have hxpos := hpos x.2 (chunk_mem_of_mem_spans hx)
  have hypos := hpos y.2 (chunk_mem_of_mem_spans hy)
  rcases eq_or_apart_of_mem_spans hx hy with h | h | h
  · exact h
  · omega
  · omega

end DonutOS.Foundation
