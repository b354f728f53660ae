import Mathlib.Algebra.Group.Int.Defs
import Mathlib.Algebra.Group.Nat.Defs
import Mathlib.Data.List.Basic

set_option autoImplicit false

/-!
# Foundation: labelled runs of a step relation

A run is kept as the list of the labels taken, each with the state it led to,
so that a property "of every state reached" and a condition "on every step,
read in the state before it" can both be stated about one object.  Nothing here
mentions a particular system.
-/

namespace DonutOS.Foundation

variable {σ α : Type}

/-- `IsPath step s path`: starting in `s`, the labels of `path` are taken one
after another and lead to the states recorded beside them. -/
def IsPath (step : σ → α → σ → Prop) : σ → List (α × σ) → Prop
  | _, [] => True
  | s, (a, t) :: rest => step s a t ∧ IsPath step t rest

/-- The state a path ends in. -/
def endState : σ → List (α × σ) → σ
  | s, [] => s
  | _, (_, t) :: rest => endState t rest

/-- Every state a path reaches, its start included. -/
def visited (s : σ) (path : List (α × σ)) : List σ := s :: path.map Prod.snd

/-- Every step of the path satisfies `ok`, read in the state before the step. -/
def StepsMeet (ok : σ → α → Prop) : σ → List (α × σ) → Prop
  | _, [] => True
  | s, (a, t) :: rest => ok s a ∧ StepsMeet ok t rest

instance StepsMeet.decidable (ok : σ → α → Prop) [∀ s a, Decidable (ok s a)] :
    ∀ s path, Decidable (StepsMeet ok s path)
  | _, [] => .isTrue trivial
  | s, (a, t) :: rest =>
      have := StepsMeet.decidable ok t rest
      inferInstanceAs (Decidable (ok s a ∧ StepsMeet ok t rest))

@[simp] theorem isPath_nil (step : σ → α → σ → Prop) (s : σ) :
    IsPath step s [] := trivial

@[simp] theorem isPath_cons {step : σ → α → σ → Prop} {s t : σ} {a : α}
    {rest : List (α × σ)} :
    IsPath step s ((a, t) :: rest) ↔ step s a t ∧ IsPath step t rest := Iff.rfl

@[simp] theorem stepsMeet_nil (ok : σ → α → Prop) (s : σ) :
    StepsMeet ok s [] := trivial

@[simp] theorem stepsMeet_cons {ok : σ → α → Prop} {s t : σ} {a : α}
    {rest : List (α × σ)} :
    StepsMeet ok s ((a, t) :: rest) ↔ ok s a ∧ StepsMeet ok t rest := Iff.rfl

@[simp] theorem visited_nil (s : σ) :
    visited s ([] : List (α × σ)) = [s] := rfl

@[simp] theorem visited_cons (s t : σ) (a : α) (rest : List (α × σ)) :
    visited s ((a, t) :: rest) = s :: visited t rest := rfl

theorem isPath_append {step : σ → α → σ → Prop} {s : σ} {path rest : List (α × σ)} :
    IsPath step s (path ++ rest) ↔ IsPath step s path ∧ IsPath step (endState s path) rest := by
  induction path generalizing s with
  | nil => exact (and_iff_right trivial).symm
  | cons head path ih =>
      obtain ⟨a, t⟩ := head
      rw [List.cons_append, isPath_cons, isPath_cons, ih, and_assoc]
      rfl

theorem endState_append (s : σ) (path rest : List (α × σ)) :
    endState s (path ++ rest) = endState (endState s path) rest := by
  induction path generalizing s with
  | nil => rfl
  | cons head path ih => exact ih head.2

theorem start_mem_visited (s : σ) (path : List (α × σ)) : s ∈ visited s path :=
  List.mem_cons_self

theorem endState_mem_visited (s : σ) (path : List (α × σ)) :
    endState s path ∈ visited s path := by
  induction path generalizing s with
  | nil => simp [endState]
  | cons head rest ih =>
      obtain ⟨a, t⟩ := head
      rw [visited_cons]
      exact List.mem_cons_of_mem _ (ih t)

/-- The invariant rule, with a condition on the steps: an invariant kept by
every step that meets `ok` holds in every state of a run whose steps all meet
it. -/
theorem IsPath.invariant_of_stepsMeet {step : σ → α → σ → Prop}
    {ok : σ → α → Prop} {Inv : σ → Prop}
    (hstep : ∀ s a t, Inv s → ok s a → step s a t → Inv t) :
    ∀ {s : σ} {path : List (α × σ)}, Inv s → IsPath step s path →
      StepsMeet ok s path → ∀ t ∈ visited s path, Inv t := by
  intro s path
  induction path generalizing s with
  | nil =>
      intro hs _ _ t ht
      rw [visited_nil, List.mem_singleton] at ht
      exact ht ▸ hs
  | cons head rest ih =>
      obtain ⟨a, u⟩ := head
      intro hs hpath hmeet t ht
      rw [visited_cons, List.mem_cons] at ht
      rcases ht with rfl | ht
      · exact hs
      · exact ih (hstep s a u hs hmeet.1 hpath.1) hpath.2 hmeet.2 t ht

/-- The invariant rule: what holds at the start and is kept by every step holds
in every state of every run. -/
theorem IsPath.invariant {step : σ → α → σ → Prop} {Inv : σ → Prop}
    (hstep : ∀ s a t, Inv s → step s a t → Inv t)
    {s : σ} {path : List (α × σ)} (hs : Inv s) (hpath : IsPath step s path) :
    ∀ t ∈ visited s path, Inv t := by
  have hmeet : StepsMeet (fun _ _ => True) s path := by
    clear hs hpath
    induction path generalizing s with
    | nil => trivial
    | cons head rest ih => exact ⟨trivial, ih⟩
  exact hpath.invariant_of_stepsMeet (fun s a t hs _ => hstep s a t hs) hs hmeet

/-- The rule for properties of single steps: what every step does from a state of
the invariant, every step of a run does. -/
theorem IsPath.steps_of_invariant {step Q : σ → α → σ → Prop} {Inv : σ → Prop}
    (hstep : ∀ s a t, Inv s → step s a t → Inv t ∧ Q s a t)
    {s : σ} {path : List (α × σ)} (hs : Inv s) (hpath : IsPath step s path) :
    IsPath Q s path := by
  induction path generalizing s with
  | nil => trivial
  | cons head rest ih =>
      obtain ⟨a, t⟩ := head
      obtain ⟨hinv, hq⟩ := hstep s a t hs hpath.1
      exact ⟨hq, ih hinv hpath.2⟩

/-- Its exact form: a step from a state of the invariant satisfies `Q` exactly when it
meets `ok`, and then keeps the invariant.  So do runs. -/
theorem IsPath.steps_iff_of_ok {step Q : σ → α → σ → Prop} {ok : σ → α → Prop}
    {Inv : σ → Prop}
    (hstep : ∀ s a t, Inv s → step s a t → (Q s a t ↔ ok s a) ∧ (ok s a → Inv t))
    {s : σ} {path : List (α × σ)} (hs : Inv s) (hpath : IsPath step s path) :
    IsPath Q s path ↔ StepsMeet ok s path := by
  induction path generalizing s with
  | nil => exact Iff.rfl
  | cons head rest ih =>
      obtain ⟨a, t⟩ := head
      obtain ⟨hiff, hinv⟩ := hstep s a t hs hpath.1
      rw [isPath_cons, stepsMeet_cons, hiff]
      exact and_congr_right fun hok => ih (hinv hok) hpath.2

/-- The case of an invariant that every step keeps. -/
theorem IsPath.steps_iff_stepsMeet {step Q : σ → α → σ → Prop} {ok : σ → α → Prop}
    {Inv : σ → Prop} (hstep : ∀ s a t, Inv s → step s a t → Inv t ∧ (Q s a t ↔ ok s a))
    {s : σ} {path : List (α × σ)} (hs : Inv s) (hpath : IsPath step s path) :
    IsPath Q s path ↔ StepsMeet ok s path :=
  hpath.steps_iff_of_ok (fun s a t hinv hone =>
    ⟨(hstep s a t hinv hone).2, fun _ => (hstep s a t hinv hone).1⟩) hs

/-- The exact form of the conditional rule.  When a step outside `ok` breaks
`P` at once, `P` holds all along a run exactly when all its steps meet `ok`. -/
theorem IsPath.forall_iff_stepsMeet {step : σ → α → σ → Prop}
    {ok : σ → α → Prop} {Inv P : σ → Prop}
    (himp : ∀ s, Inv s → P s)
    (hstep : ∀ s a t, Inv s → ok s a → step s a t → Inv t)
    (hbad : ∀ s a t, Inv s → ¬ ok s a → step s a t → ¬ P t) :
    ∀ {s : σ} {path : List (α × σ)}, Inv s → IsPath step s path →
      ((∀ t ∈ visited s path, P t) ↔ StepsMeet ok s path) := by
  intro s path hs hpath
  constructor
  · intro hall
    induction path generalizing s with
    | nil => trivial
    | cons head rest ih =>
        obtain ⟨a, t⟩ := head
        have hP : P t := hall t (List.mem_cons_of_mem _ (start_mem_visited t rest))
        have hok : ok s a := by
          by_contra hnot
          exact hbad s a t hs hnot hpath.1 hP
        refine ⟨hok, ih (hstep s a t hs hok hpath.1) hpath.2 ?_⟩
        intro u hu
        exact hall u (List.mem_cons_of_mem _ hu)
  · intro hmeet t ht
    exact himp t (hpath.invariant_of_stepsMeet hstep hs hmeet t ht)

/-! ## Simulation -/

variable {τ β : Type}

/-- What `obs` tells of each step of a path, in order. -/
def observed (obs : σ → α → σ → β) : σ → List (α × σ) → List β
  | _, [] => []
  | s, (a, t) :: rest => obs s a t :: observed obs t rest

theorem observed_append (obs : σ → α → σ → β) (s : σ) (path rest : List (α × σ)) :
    observed obs s (path ++ rest) = observed obs s path ++ observed obs (endState s path) rest := by
  induction path generalizing s with
  | nil => rfl
  | cons head path ih => exact congrArg (obs s head.1 head.2 :: ·) (ih head.2)

/-- Where every step is matched by one with the label observed, every run is matched by
one with the labels observed. -/
theorem IsPath.simulate {step : σ → α → σ → Prop} {step' : τ → β → τ → Prop}
    {R : σ → τ → Prop} {obs : σ → α → σ → β}
    (hsim : ∀ s a t u, R s u → step s a t → ∃ u', step' u (obs s a t) u' ∧ R t u')
    {s : σ} {u : τ} {path : List (α × σ)} (hs : R s u) (hpath : IsPath step s path) :
    ∃ path', IsPath step' u path' ∧ path'.map Prod.fst = observed obs s path ∧
      R (endState s path) (endState u path') := by
  induction path generalizing s u with
  | nil => exact ⟨[], trivial, rfl, hs⟩
  | cons head rest ih =>
      obtain ⟨a, t⟩ := head
      obtain ⟨u', hstep, ht⟩ := hsim s a t u hs hpath.1
      obtain ⟨path', hpath', hlabels, hend⟩ := ih ht hpath.2
      exact ⟨(obs s a t, u') :: path', ⟨hstep, hpath'⟩, congrArg (obs s a t :: ·) hlabels, hend⟩

/-! ## Runs of a function -/

/-- The path of a system whose labels determine the next state. -/
def trace (next : α → σ → σ) : List α → σ → List (α × σ)
  | [], _ => []
  | a :: labels, s => (a, next a s) :: trace next labels (next a s)

/-- Every label is possible where it is taken. -/
def Traceable (ready : α → σ → Prop) (next : α → σ → σ) : List α → σ → Prop
  | [], _ => True
  | a :: labels, s => ready a s ∧ Traceable ready next labels (next a s)

instance Traceable.decidable (ready : α → σ → Prop) [∀ a s, Decidable (ready a s)]
    (next : α → σ → σ) : ∀ labels s, Decidable (Traceable ready next labels s)
  | [], _ => .isTrue trivial
  | a :: labels, s =>
      have := Traceable.decidable ready next labels (next a s)
      inferInstanceAs (Decidable (ready a s ∧ Traceable ready next labels (next a s)))

theorem isPath_trace {step : σ → α → σ → Prop} {ready : α → σ → Prop} {next : α → σ → σ}
    (hstep : ∀ a s, ready a s → step s a (next a s)) {labels : List α} {s : σ}
    (h : Traceable ready next labels s) : IsPath step s (trace next labels s) := by
  induction labels generalizing s with
  | nil => trivial
  | cons a labels ih => exact ⟨hstep a s h.1, ih h.2⟩

end DonutOS.Foundation
