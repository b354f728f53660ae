import DonutOS.Foundation.Path
import Mathlib.Data.List.Nodup
import Mathlib.Data.List.ReduceOption

set_option autoImplicit false

/-!
# Foundation: taking turns on a queue that loses members

A turn goes to the first live member of the queue, which then moves to the end; the
dead ones in front of it are dropped.  Members die at any time and never come back.
Seen on those that stay alive, the queue only rotates, so between two turns of one of
them each of the others has exactly one turn.
-/

namespace DonutOS.Foundation

variable {α : Type}

/-- The queue, and which of its members are dead. -/
structure Rota (α : Type) where
  queue : List α
  dead : α → Prop

/-- A turn, labelled with the member that has it, or a change of who is dead. -/
inductive RotaStep : Rota α → Option α → Rota α → Prop
  | turn {dead : α → Prop} {ds rest : List α} {z : α} (hdead : ∀ d ∈ ds, dead d)
      (halive : ¬ dead z) : RotaStep ⟨ds ++ z :: rest, dead⟩ (some z) ⟨rest ++ [z], dead⟩
  | wane {queue : List α} {dead dead' : α → Prop} (hmono : ∀ a, dead a → dead' a) :
      RotaStep ⟨queue, dead⟩ none ⟨queue, dead'⟩

/-- The members that had a turn, in order. -/
def turns (path : List (Option α × Rota α)) : List α := (path.map Prod.fst).reduceOption

@[simp] theorem turns_nil : turns ([] : List (Option α × Rota α)) = [] := rfl

@[simp] theorem turns_cons_none (s : Rota α) (path : List (Option α × Rota α)) :
    turns ((none, s) :: path) = turns path := rfl

@[simp] theorem turns_cons_some (z : α) (s : Rota α) (path : List (Option α × Rota α)) :
    turns ((some z, s) :: path) = z :: turns path := rfl

section Steps

variable {s t : Rota α} {label : Option α}

theorem RotaStep.dead_mono (h : RotaStep s label t) {a : α} (ha : s.dead a) : t.dead a := by
  cases h with
  | turn hdead halive => exact ha
  | wane hmono => exact hmono a ha

theorem RotaStep.not_dead {z : α} (h : RotaStep s (some z) t) : ¬ t.dead z := by
  cases h with
  | turn hdead halive => exact halive

theorem RotaStep.nodup (h : RotaStep s label t) (hs : s.queue.Nodup) : t.queue.Nodup := by
  cases h with
  | turn hdead halive =>
      have hrest := (List.nodup_append.mp hs).2.1
      rw [List.nodup_cons] at hrest
      exact List.nodup_append.mpr ⟨hrest.2, List.nodup_singleton _, fun a ha b hb => by
        rw [List.mem_singleton.mp hb]
        rintro rfl
        exact hrest.1 ha⟩
  | wane hmono => exact hs

/-- On members that live a step rotates the queue by one, or leaves it alone. -/
theorem RotaStep.filter {keep : α → Bool} (h : RotaStep s label t)
    (hkeep : ∀ a, keep a = true → ¬ t.dead a) :
    ∃ rest, s.queue.filter keep = label.toList.filter keep ++ rest ∧
      t.queue.filter keep = rest ++ label.toList.filter keep := by
  cases h with
  | @turn dead ds rest z hdead halive =>
      have hnone : ds.filter keep = [] := by
        rw [List.filter_eq_nil_iff]
        intro d hd hkept
        exact hkeep d hkept (hdead d hd)
      refine ⟨rest.filter keep, ?_, List.filter_append _ _⟩
      change (ds ++ z :: rest).filter keep = [z].filter keep ++ rest.filter keep
      rw [List.filter_append, hnone, List.nil_append, ← List.filter_append]
      rfl
  | wane hmono => exact ⟨_, rfl, (List.append_nil _).symm⟩

end Steps

/-! ## Runs -/

section Runs

variable {s : Rota α} {path : List (Option α × Rota α)}

theorem rota_dead_mono (hpath : IsPath RotaStep s path) {a : α} (ha : s.dead a) :
    (endState s path).dead a := by
  have hstep : ∀ u label v, Rota.dead u a → RotaStep u label v → Rota.dead v a :=
    fun _ _ _ hu hstep => hstep.dead_mono hu
  exact hpath.invariant hstep ha _ (endState_mem_visited s path)

theorem rota_nodup (hpath : IsPath RotaStep s path) (hs : s.queue.Nodup) :
    (endState s path).queue.Nodup := by
  have hstep : ∀ (u : Rota α) label v, u.queue.Nodup → RotaStep u label v → v.queue.Nodup :=
    fun _ _ _ hu hstep => hstep.nodup hu
  exact hpath.invariant hstep hs _ (endState_mem_visited s path)

/-- As long as `p` has no turn, those in front of it have theirs, in order, and line up
behind it. -/
theorem turns_filter {keep : α → Bool} {p : α} (hpath : IsPath RotaStep s path)
    (hkeep : ∀ a, keep a = true → ¬ (endState s path).dead a) (hp : p ∉ turns path)
    {front back : List α} (hqueue : s.queue.filter keep = front ++ p :: back) :
    ∃ left, front = (turns path).filter keep ++ left ∧
      (endState s path).queue.filter keep =
        left ++ p :: (back ++ (turns path).filter keep) := by
  induction path generalizing s front back with
  | nil =>
      rw [turns_nil, List.filter_nil, List.append_nil]
      exact ⟨front, rfl, hqueue⟩
  | cons head path ih =>
      obtain ⟨label, t⟩ := head
      obtain ⟨hstep, hrest⟩ := hpath
      obtain ⟨rest, hold, hnew⟩ :=
        hstep.filter fun a ha hdead => hkeep a ha (rota_dead_mono hrest hdead)
      cases label with
      | none =>
          rw [Option.toList_none, List.filter_nil, List.nil_append] at hold
          rw [Option.toList_none, List.filter_nil, List.append_nil, ← hold, hqueue] at hnew
          exact ih hrest hkeep hp hnew
      | some z =>
          rw [turns_cons_some, List.mem_cons, not_or] at hp
          rw [Option.toList_some] at hold hnew
          cases hz : keep z with
          | false =>
              have hnone : [z].filter keep = [] := by simp [hz]
              rw [hnone, List.nil_append] at hold
              rw [hnone, List.append_nil, ← hold, hqueue] at hnew
              obtain ⟨left, hfront, hend⟩ := ih hrest hkeep hp.2 hnew
              rw [turns_cons_some, List.filter_cons_of_neg (by simp [hz])]
              exact ⟨left, hfront, hend⟩
          | true =>
              have hone : [z].filter keep = [z] := by simp [hz]
              rw [hone] at hold hnew
              rw [hqueue] at hold
              cases front with
              | nil => exact absurd (List.cons.inj hold).1 hp.1
              | cons a front =>
                  obtain ⟨rfl, hfront⟩ : a = z ∧ front ++ p :: back = rest := List.cons.inj hold
                  rw [← hfront, List.append_assoc, List.cons_append] at hnew
                  obtain ⟨left, hfront', hend⟩ := ih hrest hkeep hp.2 hnew
                  rw [turns_cons_some, List.filter_cons_of_pos hz]
                  refine ⟨left, congrArg (a :: ·) hfront', hend.trans ?_⟩
                  rw [List.append_assoc]
                  rfl

/-- Between two turns of `p` the members that live have one turn each, in the order of
the queue. -/
theorem turns_between {keep : α → Bool} {p : α} {others : List α} {t : Rota α}
    (hpath : IsPath RotaStep s path) (hqueue : s.queue = others ++ [p])
    (hnodup : s.queue.Nodup) (hp : p ∉ turns path)
    (hlast : RotaStep (endState s path) (some p) t)
    (hkeep : ∀ a, keep a = true → ¬ t.dead a) (hkept : keep p = true) :
    (turns path).filter keep = others.filter keep := by
  have hone : [p].filter keep = [p] := by simp [hkept]
  have hstart : s.queue.filter keep = others.filter keep ++ p :: [] := by
    rw [hqueue, List.filter_append, hone]
  obtain ⟨left, hleft, hend⟩ :=
    turns_filter hpath (fun a ha hdead => hkeep a ha (hlast.dead_mono hdead)) hp hstart
  obtain ⟨rest, hold, -⟩ := hlast.filter hkeep
  rw [Option.toList_some, hone, hend] at hold
  -- `p` is at the front now, so nothing is left in front of it
  cases left with
  | nil => rw [hleft, List.append_nil]
  | cons a left =>
      have hfilter := (rota_nodup hpath hnodup).filter keep
      obtain ⟨rfl, -⟩ := List.cons.inj hold
      rw [hend, List.cons_append, List.nodup_cons] at hfilter
      exact absurd (List.mem_append_right left List.mem_cons_self) hfilter.1

/-- A turn of another member brings a live one forward. -/
theorem RotaStep.front {t : Rota α} {z q : α} {front back : List α}
    (h : RotaStep s (some z) t) (hq : ¬ s.dead q) (hne : q ≠ z)
    (hqueue : s.queue = front ++ q :: back) :
    ∃ front', t.queue = front' ++ q :: (back ++ [z]) ∧ front'.length < front.length := by
  cases h with
  | @turn dead ds rest z hdead halive =>
      rcases List.append_eq_append_iff.mp hqueue with ⟨mid, hfront, hrest⟩ | ⟨mid, hds, hrest⟩
      · cases mid with
        | nil => exact absurd (List.cons.inj hrest).1.symm hne
        | cons a front' =>
            obtain ⟨rfl, rfl⟩ : z = a ∧ rest = front' ++ q :: back := List.cons.inj hrest
            refine ⟨front', List.append_assoc _ _ _, ?_⟩
            rw [hfront, List.length_append, List.length_cons]
            omega
      · cases mid with
        | nil => exact absurd (List.cons.inj hrest).1 hne
        | cons a mid =>
            obtain ⟨rfl, -⟩ := List.cons.inj hrest
            refine absurd (hdead q ?_) hq
            rw [hds]
            exact List.mem_append_right _ List.mem_cons_self

/-- A member that lives waits for no more turns than there are members in front of it. -/
theorem turns_length_le {q : α} {front back : List α} (hpath : IsPath RotaStep s path)
    (hq : ¬ (endState s path).dead q) (hnot : q ∉ turns path)
    (hqueue : s.queue = front ++ q :: back) : (turns path).length ≤ front.length := by
  induction path generalizing s front back with
  | nil => exact Nat.zero_le _
  | cons head path ih =>
      obtain ⟨label, t⟩ := head
      obtain ⟨hstep, hrest⟩ := hpath
      cases label with
      | none =>
          cases hstep with
          | wane hmono => exact ih hrest hq hnot hqueue
      | some z =>
          rw [turns_cons_some, List.mem_cons, not_or] at hnot
          have hlive : ¬ s.dead q :=
            fun hdead => hq (rota_dead_mono hrest (hstep.dead_mono hdead))
          obtain ⟨front', hqueue', hlt⟩ := hstep.front hlive hnot.1 hqueue
          have hle := ih hrest hq hnot.2 hqueue'
          rw [turns_cons_some, List.length_cons]
          omega

variable [DecidableEq α]

/-- Each of them has exactly one turn. -/
theorem count_turns_between {keep : α → Bool} {p q : α} {others : List α} {t : Rota α}
    (hpath : IsPath RotaStep s path) (hqueue : s.queue = others ++ [p])
    (hnodup : s.queue.Nodup) (hp : p ∉ turns path)
    (hlast : RotaStep (endState s path) (some p) t)
    (hkeep : ∀ a, keep a = true → ¬ t.dead a) (hkept : keep p = true)
    (hq : q ∈ others) (hqkept : keep q = true) : (turns path).count q = 1 := by
  have hothers : others.Nodup := by
    rw [hqueue] at hnodup
    exact (List.nodup_append.mp hnodup).1
  rw [← List.count_filter hqkept, turns_between hpath hqueue hnodup hp hlast hkeep hkept,
    List.count_filter hqkept]
  exact List.count_eq_one_of_mem hothers hq

end Runs

end DonutOS.Foundation
