import DonutOS.Foundation.InterruptController
import DonutOS.Foundation.Path
import Mathlib.Logic.Function.Basic

set_option autoImplicit false

/-!
# Foundation: interrupt lines

What a pair of interrupt controllers is for: the lines that devices have raised,
the lines that are masked, and the line that is being served.  One line is served
at a time, the one of highest priority first.
-/

namespace DonutOS.Foundation

open Cascade (priorityOrder)

structure Lines where
  raised : Nat → Bool
  masked : Nat → Bool
  serving : Option Nat

inductive LineEvent
  | request (line : Nat)
  | mask (line : Nat)
  | unmask (line : Nat)
  | enter (line : Nat)
  | finish
  | other
  deriving DecidableEq, Repr

namespace Lines

/-- The requests of `line` reach the processor. -/
def enabled (s : Lines) (line : Nat) : Bool :=
  !s.masked line && (decide (line < 8) || !s.masked 2)

/-- The line that an interrupt is asked for. -/
def asks (s : Lines) : Option Nat :=
  priorityOrder.find? fun line => s.raised line && s.enabled line

end Lines

inductive LineStep : Lines → LineEvent → Lines → Prop
  | request {s : Lines} {line : Nat} :
      LineStep s (.request line) { s with raised := Function.update s.raised line true }
  | mask {s : Lines} {line : Nat} :
      LineStep s (.mask line) { s with masked := Function.update s.masked line true }
  | unmask {s : Lines} {line : Nat} :
      LineStep s (.unmask line) { s with masked := Function.update s.masked line false }
  | enter {s : Lines} {line : Nat} (hfree : s.serving = none) (hasks : s.asks = some line) :
      LineStep s (.enter line)
        { s with raised := Function.update s.raised line false, serving := some line }
  | finish {s : Lines} {line : Nat} (hserving : s.serving = some line) :
      LineStep s .finish { s with serving := none }
  | other {s : Lines} : LineStep s .other s

/-! ## Runs of the lines -/

/-- Whether `line` has a request after the events, when it had one before them or not. -/
def owed (line : Nat) : Bool → List LineEvent → Bool
  | b, [] => b
  | b, .request l :: rest => owed line (b || decide (l = line)) rest
  | b, .enter l :: rest => owed line (b && decide (l ≠ line)) rest
  | b, .mask _ :: rest => owed line b rest
  | b, .unmask _ :: rest => owed line b rest
  | b, .finish :: rest => owed line b rest
  | b, .other :: rest => owed line b rest

/-- No request is lost and none is served twice: a line has a request exactly when one
came after it was last served. -/
theorem raised_endState {s : Lines} {path : List (LineEvent × Lines)}
    (hpath : IsPath LineStep s path) (line : Nat) :
    (endState s path).raised line = owed line (s.raised line) (path.map Prod.fst) := by
  induction path generalizing s with
  | nil => rfl
  | cons head rest ih =>
      obtain ⟨event, t⟩ := head
      obtain ⟨hstep, hrest⟩ := hpath
      rw [endState, ih hrest, List.map_cons]
      cases hstep with
      | @request l =>
          by_cases h : line = l
          · simp [owed, h]
          · simp [owed, h, Ne.symm h]
      | @enter l _ _ =>
          by_cases h : line = l
          · simp [owed, h]
          · simp [owed, h, Ne.symm h]
      | mask => rfl
      | unmask => rfl
      | finish _ => rfl
      | other => rfl

/-- The times that `line` is served, and those that it is requested. -/
theorem count_enter_le {s : Lines} {path : List (LineEvent × Lines)}
    (hpath : IsPath LineStep s path) (line : Nat) :
    (path.map Prod.fst).count (.enter line) + ((endState s path).raised line).toNat ≤
      (path.map Prod.fst).count (.request line) + (s.raised line).toNat := by
  induction path generalizing s with
  | nil => simp [endState]
  | cons head rest ih =>
      obtain ⟨event, t⟩ := head
      obtain ⟨hstep, hrest⟩ := hpath
      have hih := ih hrest
      rw [endState, List.map_cons, List.count_cons, List.count_cons]
      cases hstep with
      | @request l =>
          by_cases h : line = l
          · have := Bool.toNat_le (s.raised l)
            simp [h] at hih ⊢
            omega
          · simpa [h, Ne.symm h] using hih
      | @enter l _ hasks =>
          by_cases h : line = l
          · subst h
            have hraised : s.raised line = true := by
              have := List.find?_some hasks
              rw [Bool.and_eq_true] at this
              exact this.1
            simp [hraised] at hih ⊢
            omega
          · simpa [h, Ne.symm h] using hih
      | mask => simpa using hih
      | unmask => simpa using hih
      | finish _ => simpa using hih
      | other => simpa using hih

/-- The lines that wait, in the order of priority. -/
def Lines.waiting (s : Lines) : List Nat :=
  priorityOrder.filter fun line => s.raised line && s.enabled line

theorem Lines.waiting_of_asks {s : Lines} {line : Nat} (hasks : s.asks = some line)
    (serving : Option Nat) :
    s.waiting = line ::
      Lines.waiting ⟨Function.update s.raised line false, s.masked, serving⟩ := by
  have hhead : s.waiting.head? = some line := by rw [waiting, List.head?_filter]; exact hasks
  obtain ⟨rest, hrest⟩ := List.head?_eq_some_iff.mp hhead
  have hnodup : (line :: rest).Nodup := hrest ▸ Cascade.nodup_priorityOrder.filter _
  have hothers : Lines.waiting ⟨Function.update s.raised line false, s.masked, serving⟩ =
      s.waiting.filter fun l => decide (l ≠ line) := by
    rw [waiting, waiting, List.filter_filter]
    apply List.filter_congr
    intro l _
    by_cases h : l = line <;> simp [h, enabled]
  rw [hothers, hrest, List.filter_cons_of_neg (by simp), List.cons_inj_right, eq_comm,
    List.filter_eq_self]
  intro l hl
  exact decide_eq_true fun heq => (List.nodup_cons.mp hnodup).1 (heq ▸ hl)

/-- The line that an event enters. -/
def LineEvent.entered : LineEvent → Option Nat
  | .enter line => some line
  | _ => none

/-- Neither a request nor a change of the masks. -/
def LineEvent.Quiet : LineEvent → Prop
  | .request _ | .mask _ | .unmask _ => False
  | _ => True

/-- While no device and no mask interferes, the lines that wait are served one after
another in the order of priority. -/
theorem waiting_of_quiet {s : Lines} {path : List (LineEvent × Lines)}
    (hpath : IsPath LineStep s path) (hquiet : ∀ e ∈ path.map Prod.fst, e.Quiet) :
    s.waiting = (path.map Prod.fst).filterMap LineEvent.entered ++ (endState s path).waiting := by
  induction path generalizing s with
  | nil => rfl
  | cons head rest ih =>
      obtain ⟨event, t⟩ := head
      obtain ⟨hstep, hrest⟩ := hpath
      have hih := ih hrest fun e he => hquiet e (List.mem_cons_of_mem _ he)
      have hnow : event.Quiet := hquiet event List.mem_cons_self
      cases hstep with
      | request => exact hnow.elim
      | mask => exact hnow.elim
      | unmask => exact hnow.elim
      | @enter line _ hasks =>
          rw [Lines.waiting_of_asks hasks (some line), List.map_cons]
          exact congrArg (line :: ·) hih
      | finish _ => exact hih
      | other => exact hih

/-! ## The pair of controllers -/

/-- A mask register with the bit of a line set, or cleared. -/
def maskBit (b : Bool) (line : Nat) (v : BitVec 8) : BitVec 8 :=
  if b then v ||| BitVec.twoPow 8 line else v &&& ~~~BitVec.twoPow 8 line

/-- The pair with one line masked, or unmasked. -/
def Cascade.withMask (b : Bool) (line : Nat) (p : Cascade) : Cascade :=
  if line < 8 then { p with master := { p.master with imr := maskBit b line p.master.imr } }
  else { p with slave := { p.slave with imr := maskBit b (line - 8) p.slave.imr } }

theorem getLsbD_maskBit (b : Bool) (line : Nat) (v : BitVec 8) {j : Nat} (hj : j < 8) :
    (maskBit b line v).getLsbD j = if j = line then b else v.getLsbD j := by
  cases b
  · rw [maskBit, if_neg Bool.false_ne_true, getLsbD_clear hj]
    by_cases h : j = line <;> simp [h]
  · rw [maskBit, if_pos rfl, getLsbD_raise hj]
    by_cases h : j = line <;> simp [h]

theorem Cascade.masked_withMask (b : Bool) {line l : Nat} (p : Cascade) (hline : line < 16)
    (hl : l < 16) :
    (p.withMask b line).masked l = if l = line then b else p.masked l := by
  unfold masked withMask
  by_cases hlow : l < 8
  · rw [if_pos hlow, if_pos hlow]
    split
    · exact getLsbD_maskBit b line _ hlow
    · rw [if_neg (by omega)]
  · rw [if_neg hlow, if_neg hlow]
    split
    · rw [if_neg (by omega)]
    · have hiff : l - 8 = line - 8 ↔ l = line := by omega
      exact (getLsbD_maskBit b (line - 8) _ (by omega)).trans (if_congr hiff rfl rfl)

/-- The pair shows the lines: its registers say what is raised, masked and served. -/
structure Shows (base₁ base₂ : Nat) (p : Cascade) (s : Lines) : Prop where
  ready : p.Ready base₁ base₂
  raised : ∀ l ∈ priorityOrder, p.raised l = s.raised l
  masked : ∀ l, l < 16 → p.masked l = s.masked l
  idle : s.serving = none → p.Idle
  inService : ∀ l, s.serving = some l → l ∈ priorityOrder ∧ p.InService l

namespace Shows

variable {base₁ base₂ : Nat} {p q : Cascade} {s : Lines} {line v : Nat}

theorem request (h : Shows base₁ base₂ p s) (hline : line ∈ priorityOrder) :
    Shows base₁ base₂ (p.request line)
      { s with raised := Function.update s.raised line true } := by
  refine ⟨h.ready.request line, fun l hl => ?_, fun l hl => ?_, fun hs => (h.idle hs).request line,
    fun l hs => ⟨(h.inService l hs).1, (h.inService l hs).2.request line⟩⟩
  · have hlt := (Cascade.mem_priorityOrder.mp hl).1
    rw [Cascade.raised_request hlt (Cascade.mem_priorityOrder.mp hline).1, h.raised l hl]
    by_cases heq : l = line <;> simp [heq]
  · rw [Cascade.masked_request, h.masked l hl]

theorem withMask (h : Shows base₁ base₂ p s) (b : Bool) (hline : line < 16) :
    Shows base₁ base₂ (p.withMask b line)
      { s with masked := Function.update s.masked line b } := by
  have hsame : (p.withMask b line).Ready base₁ base₂ ∧
      (p.withMask b line).raised = p.raised ∧
      (p.withMask b line).master.isr = p.master.isr ∧
      (p.withMask b line).slave.isr = p.slave.isr := by
    obtain ⟨⟨he, hb, h8, hx⟩, ⟨he', hb', h8', hx'⟩, hw, hn⟩ := h.ready
    unfold Cascade.withMask
    split
    · exact ⟨⟨⟨he, hb, h8, hx⟩, ⟨he', hb', h8', hx'⟩, hw, hn⟩, rfl, rfl, rfl⟩
    · exact ⟨⟨⟨he, hb, h8, hx⟩, ⟨he', hb', h8', hx'⟩, hw, hn⟩, rfl, rfl, rfl⟩
  obtain ⟨hready, hraised, hmaster, hslave⟩ := hsame
  refine ⟨hready, fun l hl => by rw [hraised, h.raised l hl], fun l hl => ?_, fun hs => ?_,
    fun l hs => ⟨(h.inService l hs).1, ?_⟩⟩
  · rw [Cascade.masked_withMask b p hline hl, h.masked l hl]
    by_cases heq : l = line <;> simp [heq]
  · rw [Cascade.Idle, hmaster, hslave]
    exact h.idle hs
  · rw [Cascade.InService, hmaster, hslave]
    exact (h.inService l hs).2

theorem pending (h : Shows base₁ base₂ p s) (hline : line ∈ priorityOrder) :
    p.pending line = (s.raised line && s.enabled line) := by
  have hlt := (Cascade.mem_priorityOrder.mp hline).1
  rw [Cascade.pending_eq p hlt, h.raised line hline, Cascade.enabled, h.masked line hlt,
    h.masked 2 (by decide), Lines.enabled]

/-- While nothing is served, the processor is asked for the line that the lines ask
for. -/
theorem acknowledge (h : Shows base₁ base₂ p s) (hfree : s.serving = none) :
    p.acknowledge = s.asks.map fun line =>
      (Cascade.vectorOf base₁ base₂ line, p.serve line) := by
  rw [Cascade.acknowledge_eq h.ready (h.idle hfree), Lines.asks]
  exact congrArg _ (List.find?_congr fun l hl => h.pending hl)

theorem serve (h : Shows base₁ base₂ p s) (hfree : s.serving = none)
    (hasks : s.asks = some line) :
    Shows base₁ base₂ (p.serve line)
      { s with raised := Function.update s.raised line false, serving := some line } := by
  have hline : line ∈ priorityOrder := List.mem_of_find?_eq_some hasks
  have hlt := (Cascade.mem_priorityOrder.mp hline).1
  refine ⟨h.ready.serve line, fun l hl => ?_, fun l hl => ?_, fun hs => absurd hs (by simp),
    fun l hs => ?_⟩
  · rw [Cascade.raised_serve hl hlt, h.raised l hl]
    by_cases heq : l = line <;> simp [heq]
  · rw [Cascade.masked_serve, h.masked l hl]
  · cases hs
    exact ⟨hline, Cascade.inService_serve h.ready (h.idle hfree) line⟩

theorem finish (h : Shows base₁ base₂ p s) (hserving : s.serving = some line) :
    Shows base₁ base₂ (p.finish line) { s with serving := none } := by
  obtain ⟨hline, hservice⟩ := h.inService line hserving
  rw [Cascade.finish_of_inService (Cascade.mem_priorityOrder.mp hline).1 hservice]
  obtain ⟨⟨he, hb, h8, hx⟩, ⟨he', hb', h8', hx'⟩, hw, hn⟩ := h.ready
  exact ⟨⟨⟨he, hb, h8, hx⟩, ⟨he', hb', h8', hx'⟩, hw, hn⟩, h.raised, h.masked,
    fun _ => ⟨rfl, rfl⟩, fun l hs => absurd hs (by simp)⟩

/-- The bit of a line in the registers of what is in service. -/
theorem served (h : Shows base₁ base₂ p s) (hline : line ∈ priorityOrder) :
    (if line < 8 then p.master.isr.getLsbD line else p.slave.isr.getLsbD (line - 8)) =
      decide (s.serving = some line) := by
  obtain ⟨hlt, hne⟩ := Cascade.mem_priorityOrder.mp hline
  cases hserving : s.serving with
  | none =>
      obtain ⟨hmaster, hslave⟩ := h.idle hserving
      simp [hmaster, hslave]
  | some l =>
      obtain ⟨hl, hservice⟩ := h.inService l hserving
      have hl16 := (Cascade.mem_priorityOrder.mp hl).1
      unfold Cascade.InService at hservice
      by_cases hlow : l < 8
      · rw [if_pos hlow] at hservice
        simp only [hservice.1, hservice.2, BitVec.getLsbD_twoPow, BitVec.getLsbD_zero,
          Option.some.injEq]
        split <;> grind
      · rw [if_neg hlow] at hservice
        simp only [hservice.1, hservice.2, BitVec.getLsbD_twoPow, Option.some.injEq]
        split <;> grind

/-- Which register is read next is nothing to the lines. -/
theorem reads (h : Shows base₁ base₂ p s) (b b' : Bool) :
    Shows base₁ base₂
      ⟨{ p.master with readsIsr := b }, { p.slave with readsIsr := b' }⟩ s :=
  ⟨⟨⟨h.ready.master.expects, h.ready.master.base_eq, h.ready.master.is8086,
      h.ready.master.explicit⟩, ⟨h.ready.slave.expects, h.ready.slave.base_eq,
      h.ready.slave.is8086, h.ready.slave.explicit⟩, h.ready.wire, h.ready.name⟩,
    h.raised, h.masked, h.idle, h.inService⟩

end Shows

end DonutOS.Foundation
