import DonutOS.Foundation.Ring
import DonutOS.Kernel.Ctx
import Mathlib.Data.List.Nodup
import Mathlib.Data.List.Perm.Subperm
import Mathlib.Data.List.TakeWhile

set_option autoImplicit false

/-!
# Kernel: what the process functions do to the ring

The control blocks of the processes form a ring through their `next` fields.
`OnRing` is what every function of `Kernel.Ctx` may rely on and keeps; the
specifications say which cells a call links in, cuts out, and switches between.
-/

namespace DonutOS.Kernel

open DonutOS.Foundation

/-- The `next` field, as a function of the address. -/
def nextOf (c : Ctx) (p : Nat) : Nat := (c.tcbs p).next

/-- The control blocks of `ring` form a ring of allocated blocks from
`fst_proc` on, the current process is one of them, and the first is the kernel,
which never dies.  `lst` is the last cell, whatever `lst_proc` says. -/
structure OnRing (ring : List Nat) (lst : Nat) (c : Ctx) : Prop where
  isRing : IsRing (nextOf c) c.fstProc ring lst
  curr : c.currProc ∈ ring
  nonzero : ∀ p ∈ ring, p ≠ 0
  allocated : ∀ p ∈ ring, p ∈ c.allocated
  kernel : (c.tcbs c.fstProc).dead = false

theorem readTcb_of_ne {c : Ctx} {p : Nat} (h : p ≠ 0) : readTcb c p = .ok (c.tcbs p) :=
  if_neg h

theorem modifyTcb_of_ne {c : Ctx} {p : Nat} {f : Tcb → Tcb} (h : p ≠ 0) :
    modifyTcb p f c = .ok { c with tcbs := Function.update c.tcbs p (f (c.tcbs p)) } :=
  if_neg h

theorem bind_ok {β γ : Type} (b : β) (f : β → Except Fault γ) :
    (Except.ok b >>= f) = f b := rfl

theorem bind_eq_ok {β γ : Type} {x : Except Fault β} {f : β → Except Fault γ} {r : γ} :
    (x >>= f) = .ok r ↔ ∃ b, x = .ok b ∧ f b = .ok r := by
  cases x with
  | error e => simp [bind, Except.bind]
  | ok b => simp [bind, Except.bind]

theorem nextOf_eq_comp (c : Ctx) : nextOf c = Tcb.next ∘ c.tcbs := rfl

/-- A link changed in one block is the next function changed at one address. -/
theorem nextOf_update (c : Ctx) (p : Nat) (t : Tcb) :
    nextOf { c with tcbs := Function.update c.tcbs p t } =
      Function.update (nextOf c) p t.next :=
  Function.comp_update Tcb.next c.tcbs p t

/-! ## Reaping -/

/-- The state after the dead blocks `ds` behind the current process were reaped
and the block at `z` follows it. -/
def reaped (ds : List Nat) (z : Nat) (bm : PageBitmap) (c : Ctx) : Ctx :=
  { c with
    tcbs := Function.update c.tcbs c.currProc { c.tcbs c.currProc with next := z }
    allocated := c.allocated.filter fun p => p ∉ ds
    pageBitmap := bm }

/-- The state after one round of the loop freed the block at `d`. -/
def reapOne (d : Nat) (c : Ctx) : Ctx :=
  { c with
    tcbs := Function.update c.tcbs c.currProc
      { c.tcbs c.currProc with next := (c.tcbs d).next }
    allocated := c.allocated.filter fun p => p ≠ d
    pageBitmap := freePages (c.tcbs d).fstPage (c.tcbs d).nPages c.pageBitmap }

theorem reapLoop_of_dead {fuel d : Nat} {c : Ctx} (hcurr : c.currProc ≠ 0) (hd : d ≠ 0)
    (hnext : nextOf c c.currProc = d) (hdead : (c.tcbs d).dead = true) :
    reapLoop (fuel + 1) c = reapLoop fuel (reapOne d c) := by
  have hnext' : (c.tcbs c.currProc).next = d := hnext
  rw [reapLoop, readTcb_of_ne hcurr, bind_ok, hnext', readTcb_of_ne hd, bind_ok, hdead,
    if_pos rfl]
  simp only [modifyTcb_of_ne hcurr, bind_ok]
  rfl

theorem reapLoop_of_alive {fuel d : Nat} {c : Ctx} (hcurr : c.currProc ≠ 0) (hd : d ≠ 0)
    (hnext : nextOf c c.currProc = d) (halive : (c.tcbs d).dead = false) :
    reapLoop (fuel + 1) c = .ok c := by
  have hnext' : (c.tcbs c.currProc).next = d := hnext
  rw [reapLoop, readTcb_of_ne hcurr, bind_ok, hnext', readTcb_of_ne hd, bind_ok, halive]
  rfl

theorem reapOne_tcbs_of_ne {c : Ctx} {d q : Nat} (hq : q ≠ c.currProc) :
    (reapOne d c).tcbs q = c.tcbs q := Function.update_of_ne hq _ _

theorem reapOne_tcbs_curr (c : Ctx) (d : Nat) :
    (reapOne d c).tcbs c.currProc = { c.tcbs c.currProc with next := (c.tcbs d).next } :=
  Function.update_self _ _ _

/-- A round of the loop touches no `dead` flag. -/
theorem reapOne_dead (c : Ctx) (d q : Nat) :
    ((reapOne d c).tcbs q).dead = (c.tcbs q).dead := by
  by_cases hq : q = c.currProc
  · rw [hq, reapOne_tcbs_curr]
  · rw [reapOne_tcbs_of_ne hq]

theorem reaped_reapOne (c : Ctx) (d z : Nat) (ds : List Nat) (bm : PageBitmap) :
    reaped ds z bm (reapOne d c) = reaped (d :: ds) z bm c := by
  have hallocated : (c.allocated.filter fun p => p ≠ d).filter (fun p => p ∉ ds) =
      c.allocated.filter fun p => p ∉ d :: ds := by
    rw [List.filter_filter]
    refine List.filter_congr fun p _ => ?_
    simp only [List.mem_cons, not_or, ne_eq, Bool.decide_and]
    exact Bool.and_comm _ _
  unfold reaped reapOne
  simp only [Function.update_self, Function.update_idem, hallocated]

/-- The bitmap after `free_pages` was called for each of the blocks `ds` in turn. -/
def pagesFreed (ds : List Nat) (c : Ctx) : PageBitmap :=
  ds.foldl (fun bm d => freePages (c.tcbs d).fstPage (c.tcbs d).nPages bm) c.pageBitmap

/-- A round of the loop touches no field but one `next`. -/
theorem reapOne_pages (c : Ctx) (d q : Nat) :
    ((reapOne d c).tcbs q).fstPage = (c.tcbs q).fstPage ∧
      ((reapOne d c).tcbs q).nPages = (c.tcbs q).nPages := by
  by_cases hq : q = c.currProc
  · rw [hq, reapOne_tcbs_curr]
    exact ⟨rfl, rfl⟩
  · rw [reapOne_tcbs_of_ne hq]
    exact ⟨rfl, rfl⟩

theorem pagesFreed_reapOne (d : Nat) (ds : List Nat) (c : Ctx) :
    pagesFreed ds (reapOne d c) = pagesFreed (d :: ds) c := by
  unfold pagesFreed
  simp only [reapOne_pages]
  rfl

/-- Following the links from the current block: `ds`, all dead, and then `z`, alive. -/
structure ReapShape (ds : List Nat) (z : Nat) (c : Ctx) : Prop where
  walk : Walk (nextOf c) (nextOf c c.currProc) ds z
  curr : c.currProc ≠ 0
  not_mem : c.currProc ∉ ds
  dead : ∀ d ∈ ds, d ≠ 0 ∧ (c.tcbs d).dead = true
  target : z ≠ 0
  alive : (c.tcbs z).dead = false

/-- A round of the loop brings the next block up behind the current one. -/
theorem ReapShape.reapOne {d : Nat} {ds : List Nat} {z : Nat} {c : Ctx}
    (h : ReapShape (d :: ds) z c) : ReapShape ds z (reapOne d c) where
  walk := by
    have hstart : nextOf (Kernel.reapOne d c) c.currProc = nextOf c d := by
      rw [nextOf, reapOne_tcbs_curr]
      rfl
    change Walk _ (nextOf (Kernel.reapOne d c) c.currProc) ds z
    rw [hstart]
    refine h.walk.2.congr fun q hq => congrArg Tcb.next (reapOne_tcbs_of_ne ?_)
    rintro rfl
    exact h.not_mem (List.mem_cons_of_mem _ hq)
  curr := h.curr
  not_mem := fun hmem => h.not_mem (List.mem_cons_of_mem _ hmem)
  dead := by
    intro q hq
    rw [reapOne_dead]
    exact h.dead q (List.mem_cons_of_mem _ hq)
  target := h.target
  alive := (reapOne_dead c d z).trans h.alive

/-- The loop makes one round for each dead block behind the current process, up to the
first one that is alive. -/
theorem reapLoop_eq_foldl {ds : List Nat} {z : Nat} :
    ∀ {fuel : Nat} {c : Ctx}, ReapShape ds z c → ds.length < fuel →
      reapLoop fuel c = .ok (ds.foldl (fun c d => reapOne d c) c) := by
  induction ds with
  | nil =>
      intro fuel c h hfuel
      obtain ⟨fuel, rfl⟩ : ∃ k, fuel = k + 1 := ⟨fuel - 1, by simp at hfuel; omega⟩
      exact reapLoop_of_alive h.curr h.target h.walk h.alive
  | cons d ds ih =>
      intro fuel c h hfuel
      obtain ⟨fuel, rfl⟩ : ∃ k, fuel = k + 1 := ⟨fuel - 1, by simp at hfuel; omega⟩
      obtain ⟨hd, hdead⟩ := h.dead d List.mem_cons_self
      simp only [List.length_cons] at hfuel
      have hfuel' : ds.length < fuel := by omega
      rw [reapLoop_of_dead h.curr hd h.walk.1 hdead, ih h.reapOne hfuel']
      rfl

/-- What the rounds come to. -/
theorem foldl_reapOne {ds : List Nat} {z : Nat} :
    ∀ {c : Ctx}, ReapShape ds z c →
      ds.foldl (fun c d => reapOne d c) c = reaped ds z (pagesFreed ds c) c := by
  induction ds with
  | nil =>
      intro c h
      rw [reaped, ← walk_nil.mp h.walk]
      simp [nextOf, pagesFreed]
  | cons d ds ih =>
      intro c h
      rw [List.foldl_cons, ih h.reapOne, reaped_reapOne, pagesFreed_reapOne]

/-! ## The scheduler -/

/-- The outer guard of `scheduler`: it is on and the quantum has expired. -/
def Due (c : Ctx) : Prop :=
  c.schedulerOn = true ∧ (c.lastTicks + quantum) % 2 ^ 32 < c.ticks

instance (c : Ctx) : Decidable (Due c) := inferInstanceAs (Decidable (_ ∧ _))

/-- The globals as `timer_handler` has them when it calls `scheduler`. -/
def Ctx.atTick (c : Ctx) (lock : Nat) : Ctx :=
  { c with lockCtx := lock, ticks := (c.ticks + 1) % 2 ^ 32 }

/-- Both guards of `scheduler`: the call reaps and switches. -/
def Switches (c : Ctx) : Prop :=
  Due c ∧ c.lockCtx = 0 ∧ nextOf c c.currProc ≠ c.currProc

instance (c : Ctx) : Decidable (Switches c) := inferInstanceAs (Decidable (_ ∧ _ ∧ _))

/-- The state after a call that does not switch. -/
def ticked (c : Ctx) : Ctx := { c with lastTicks := if Due c then c.ticks else c.lastTicks }

/-- The state after a call that reaped `ds` and switched to `z`, where `rs` is
the frame of the process switched out. -/
def switched (ds : List Nat) (z : Nat) (bm : PageBitmap) (rs : Regs) (c : Ctx) : Ctx :=
  { c with
    lastTicks := c.ticks
    currProc := z
    tcbs := Function.update c.tcbs c.currProc
      { c.tcbs c.currProc with next := z, regs := rs }
    allocated := c.allocated.filter fun p => p ∉ ds
    pageBitmap := bm }

theorem scheduler_of_not_due {c : Ctx} (rs : Regs) (hdue : ¬ Due c) :
    scheduler rs c = .ok (rs, ticked c) := by
  rw [ticked, if_neg hdue]
  exact if_neg hdue

theorem scheduler_of_due {c : Ctx} (rs : Regs) (hdue : Due c) :
    scheduler rs c =
      if c.lockCtx = 0 then do
        let curr ← readTcb (ticked c) c.currProc
        if curr.next ≠ c.currProc then
          let c ← reapLoop (c.allocated.length + 1) (ticked c)
          switchCtx rs c
        else .ok (rs, ticked c)
      else .ok (rs, ticked c) := by
  rw [ticked, if_pos hdue]
  exact if_pos hdue

@[simp] theorem ticked_tcbs (c : Ctx) : (ticked c).tcbs = c.tcbs := rfl

@[simp] theorem ticked_currProc (c : Ctx) : (ticked c).currProc = c.currProc := rfl

/-- A call that does not switch leaves the frame alone. -/
theorem scheduler_of_not_switches {c : Ctx} (rs : Regs) (hcurr : c.currProc ≠ 0)
    (h : ¬ Switches c) : scheduler rs c = .ok (rs, ticked c) := by
  by_cases hdue : Due c
  · rw [scheduler_of_due rs hdue]
    by_cases hlock : c.lockCtx = 0
    · have hself : (c.tcbs c.currProc).next = c.currProc := by
        by_contra hne
        exact h ⟨hdue, hlock, hne⟩
      rw [if_pos hlock, readTcb_of_ne hcurr, bind_ok, ticked_tcbs, hself]
      exact if_neg (not_not_intro rfl)
    · exact if_neg hlock
  · exact scheduler_of_not_due rs hdue

/-- How the ring looks to a call that switches: the dead blocks `ds` behind the
current one, then `z`, which is alive, and the rest up to the end of the ring. -/
structure SwitchShape (ring : List Nat) (c : Ctx) (pre ds post : List Nat) (z : Nat) :
    Prop where
  split : ring = pre ++ c.currProc :: (ds ++ post)
  walk : Walk (nextOf c) (nextOf c c.currProc) ds z
  dead : ∀ d ∈ ds, (c.tcbs d).dead = true
  alive : (c.tcbs z).dead = false
  rest : Walk (nextOf c) z post c.fstProc

/-- The kernel never dies, so the search for a live process ends on the ring. -/
theorem OnRing.shape {ring : List Nat} {lst : Nat} {c : Ctx} (h : OnRing ring lst c) :
    ∃ pre ds post z, SwitchShape ring c pre ds post z := by
  obtain ⟨pre, rest, hring⟩ := List.append_of_mem h.curr
  have hwalk : Walk (nextOf c) (nextOf c c.currProc) rest c.fstProc := by
    have hisRing := h.isRing
    rw [hring] at hisRing
    exact hisRing.walk_behind
  let isDead : Nat → Bool := fun p => (c.tcbs p).dead
  have hsplit : rest = rest.takeWhile isDead ++ rest.dropWhile isDead :=
    List.takeWhile_append_dropWhile.symm
  rw [hsplit] at hwalk
  obtain ⟨z, hds, hpost⟩ := walk_append.mp hwalk
  refine ⟨pre, rest.takeWhile isDead, rest.dropWhile isDead, z, ?_, hds, ?_, ?_, hpost⟩
  · rw [← hsplit]
    exact hring
  · intro d hd
    exact List.mem_takeWhile_imp (p := isDead) hd
  · cases hdrop : rest.dropWhile isDead with
    | nil =>
        rw [hdrop] at hpost
        rw [walk_nil.mp hpost]
        exact h.kernel
    | cons a post =>
        rw [hdrop] at hpost
        have hhead := List.head?_dropWhile_not isDead rest
        rw [hdrop] at hhead
        rw [hpost.1]
        simpa using hhead

/-- The process switched to is on the ring, and is not one of those reaped. -/
theorem SwitchShape.target_mem {ring : List Nat} {lst : Nat} {c : Ctx}
    {pre ds post : List Nat} {z : Nat} (hs : SwitchShape ring c pre ds post z)
    (h : OnRing ring lst c) : z ∈ pre ++ c.currProc :: post := by
  cases post with
  | cons a post =>
      rw [hs.rest.1]
      exact List.mem_append_right _ (List.mem_cons_of_mem _ List.mem_cons_self)
  | nil =>
      rw [walk_nil.mp hs.rest]
      have hmem := h.isRing.fst_mem
      rw [hs.split, List.append_nil, List.mem_append, List.mem_cons] at hmem
      have hkernel : c.fstProc ∉ ds := by
        intro hd
        have hdead := hs.dead _ hd
        rw [h.kernel] at hdead
        exact Bool.noConfusion hdead
      rw [List.mem_append, List.mem_singleton]
      exact hmem.imp_right fun hor => hor.resolve_right hkernel

theorem SwitchShape.mem_ring {ring : List Nat} {c : Ctx} {pre ds post : List Nat}
    {z p : Nat} (hs : SwitchShape ring c pre ds post z)
    (hp : p ∈ pre ++ c.currProc :: post) : p ∈ ring := by
  rw [hs.split]
  simp only [List.mem_append, List.mem_cons] at hp ⊢
  rcases hp with hp | hp | hp
  · exact Or.inl hp
  · exact Or.inr (Or.inl hp)
  · exact Or.inr (Or.inr (Or.inr hp))

/-- The blocks reaped and the blocks that stay are different blocks. -/
theorem SwitchShape.not_reaped {ring : List Nat} {lst : Nat} {c : Ctx}
    {pre ds post : List Nat} {z p : Nat} (hs : SwitchShape ring c pre ds post z)
    (h : OnRing ring lst c) (hp : p ∈ pre ++ c.currProc :: post) : p ∉ ds := by
  have hnodup := h.isRing.nodup
  rw [hs.split, List.nodup_append, List.nodup_cons, List.nodup_append] at hnodup
  obtain ⟨_, ⟨hcurr, _, _, hdisj⟩, hpre⟩ := hnodup
  intro hd
  simp only [List.mem_append, List.mem_cons] at hp
  rcases hp with hp | rfl | hp
  · exact hpre p hp p (List.mem_cons_of_mem _ (List.mem_append_left _ hd)) rfl
  · exact hcurr (List.mem_append_left _ hd)
  · exact hdisj p hd p hp rfl

/-- The end of the ring stays its end, unless it is among the blocks reaped. -/
theorem SwitchShape.last_cases {ring : List Nat} {lst : Nat} {c : Ctx}
    {pre ds post : List Nat} {z : Nat} (hs : SwitchShape ring c pre ds post z)
    (h : OnRing ring lst c) :
    (if post = [] then c.currProc else lst) = lst ∨ (post = [] ∧ lst ∈ ds) := by
  split
  · next hpost =>
      have hring := h.isRing
      rw [hs.split, hpost, List.append_nil] at hring
      rcases hring.last_cases with ⟨_, hcurr⟩ | hmem
      · exact Or.inl hcurr
      · exact Or.inr ⟨hpost, hmem⟩
  · exact Or.inl rfl

/-- The state after `switch_ctx`. -/
def swapped (rs : Regs) (c : Ctx) : Ctx :=
  { c with
    currProc := nextOf c c.currProc
    tcbs := Function.update c.tcbs c.currProc { c.tcbs c.currProc with regs := rs } }

theorem switchCtx_of_ne {c : Ctx} (rs : Regs) (hcurr : c.currProc ≠ 0)
    (hnext : nextOf c c.currProc ≠ 0) :
    switchCtx rs c =
      .ok (((swapped rs c).tcbs (nextOf c c.currProc)).regs, swapped rs c) := by
  have hnext' : (c.tcbs c.currProc).next ≠ 0 := hnext
  rw [switchCtx, modifyTcb_of_ne hcurr, bind_ok, readTcb_of_ne hcurr, bind_ok]
  simp only [Function.update_self]
  rw [readTcb_of_ne hnext']
  rfl

theorem swapped_reaped {c : Ctx} (ds : List Nat) (z : Nat) (bm : PageBitmap) (rs : Regs)
    (hdue : Due c) : swapped rs (reaped ds z bm (ticked c)) = switched ds z bm rs c := by
  simp only [swapped, reaped, ticked, switched, nextOf, Function.update_self,
    Function.update_idem, if_pos hdue]

theorem SwitchShape.mem_of_reaped {ring : List Nat} {c : Ctx} {pre ds post : List Nat}
    {z d : Nat} (hs : SwitchShape ring c pre ds post z) (hd : d ∈ ds) : d ∈ ring := by
  rw [hs.split]
  exact List.mem_append_right _ (List.mem_cons_of_mem _ (List.mem_append_left _ hd))

/-- What the reaping loop meets in a call that switches. -/
theorem SwitchShape.reapShape {ring : List Nat} {lst : Nat} {c : Ctx}
    {pre ds post : List Nat} {z : Nat} (hs : SwitchShape ring c pre ds post z)
    (h : OnRing ring lst c) : ReapShape ds z (ticked c) where
  walk := hs.walk
  curr := h.nonzero _ h.curr
  not_mem := hs.not_reaped h (List.mem_append_right _ List.mem_cons_self)
  dead := by
    intro d hd
    exact ⟨h.nonzero d (hs.mem_of_reaped hd), hs.dead d hd⟩
  target := h.nonzero z (hs.mem_ring (hs.target_mem h))
  alive := hs.alive

theorem SwitchShape.reaped_nodup {ring : List Nat} {lst : Nat} {c : Ctx}
    {pre ds post : List Nat} {z : Nat} (hs : SwitchShape ring c pre ds post z)
    (h : OnRing ring lst c) : ds.Nodup := by
  have hnodup := h.isRing.nodup
  rw [hs.split, List.nodup_append, List.nodup_cons, List.nodup_append] at hnodup
  exact hnodup.2.1.2.1

/-- There are no more dead blocks than allocated ones, so the loop ends. -/
theorem SwitchShape.length_lt {ring : List Nat} {lst : Nat} {c : Ctx}
    {pre ds post : List Nat} {z : Nat} (hs : SwitchShape ring c pre ds post z)
    (h : OnRing ring lst c) : ds.length < c.allocated.length + 1 := by
  have hsub := List.subperm_of_subset (hs.reaped_nodup h)
    fun d hd => h.allocated d (hs.mem_of_reaped hd)
  exact Nat.lt_succ_of_le hsub.length_le

/-- A call that switches, with the bitmap it leaves. -/
theorem scheduler_switches {ring : List Nat} {lst : Nat} {c : Ctx}
    {pre ds post : List Nat} {z : Nat} (rs : Regs) (h : OnRing ring lst c)
    (hs : SwitchShape ring c pre ds post z) (hsw : Switches c) :
    scheduler rs c =
      .ok (((switched ds z (pagesFreed ds c) rs c).tcbs z).regs,
        switched ds z (pagesFreed ds c) rs c) := by
  have hcurr : c.currProc ≠ 0 := h.nonzero _ h.curr
  have hshape := hs.reapShape h
  have hloop := reapLoop_eq_foldl hshape (hs.length_lt h)
  rw [foldl_reapOne hshape] at hloop
  have hpages : pagesFreed ds (ticked c) = pagesFreed ds c := rfl
  rw [hpages] at hloop
  have hne : (c.tcbs c.currProc).next ≠ c.currProc := hsw.2.2
  rw [scheduler_of_due rs hsw.1, if_pos hsw.2.1, readTcb_of_ne hcurr, bind_ok,
    ticked_tcbs, if_pos hne, hloop, bind_ok]
  have hnext : nextOf (reaped ds z (pagesFreed ds c) (ticked c)) c.currProc = z := by
    simp [nextOf, reaped]
  have hswitch := switchCtx_of_ne rs (c := reaped ds z (pagesFreed ds c) (ticked c)) hcurr
    (hnext.symm ▸ hshape.target)
  rw [hswitch, swapped_reaped ds z _ rs hsw.1]
  exact congrArg
    (fun p => Except.ok (((switched ds z (pagesFreed ds c) rs c).tcbs p).regs, _)) hnext

/-- A call that switches: the dead blocks are reaped, the frame is saved, and
the frame left is the one saved for the process switched to. -/
theorem scheduler_of_switches {ring : List Nat} {lst : Nat} {c : Ctx}
    {pre ds post : List Nat} {z : Nat} (rs : Regs) (h : OnRing ring lst c)
    (hs : SwitchShape ring c pre ds post z) (hsw : Switches c) :
    ∃ bm, scheduler rs c =
      .ok (((switched ds z bm rs c).tcbs z).regs, switched ds z bm rs c) :=
  ⟨pagesFreed ds c, scheduler_switches rs h hs hsw⟩

/-- A call of `scheduler` from a sound ring: it returns, and either it leaves the
frame and the blocks alone, or it switches as the ring dictates. -/
theorem scheduler_cases {ring : List Nat} {lst : Nat} {c : Ctx} (h : OnRing ring lst c)
    (rs : Regs) :
    (¬ Switches c ∧ scheduler rs c = .ok (rs, ticked c)) ∨
      (Switches c ∧ ∃ pre ds post z bm, SwitchShape ring c pre ds post z ∧
        scheduler rs c =
          .ok (((switched ds z bm rs c).tcbs z).regs, switched ds z bm rs c)) := by
  by_cases hsw : Switches c
  · obtain ⟨pre, ds, post, z, hs⟩ := h.shape
    obtain ⟨bm, hcall⟩ := scheduler_of_switches rs h hs hsw
    exact Or.inr ⟨hsw, pre, ds, post, z, bm, hs, hcall⟩
  · exact Or.inl ⟨hsw, scheduler_of_not_switches rs (h.nonzero _ h.curr) hsw⟩

/-! ## What keeps the ring -/

/-- `OnRing` speaks of the links, the `dead` flags, three pointers and the
allocated blocks only. -/
theorem OnRing.congr {ring : List Nat} {lst : Nat} {c c' : Ctx} (h : OnRing ring lst c)
    (hnext : nextOf c' = nextOf c) (hfst : c'.fstProc = c.fstProc)
    (hcurr : c'.currProc = c.currProc) (halloc : c'.allocated = c.allocated)
    (hkernel : (c'.tcbs c.fstProc).dead = (c.tcbs c.fstProc).dead) :
    OnRing ring lst c' where
  isRing := by
    rw [hnext, hfst]
    exact h.isRing
  curr := by
    rw [hcurr]
    exact h.curr
  nonzero := h.nonzero
  allocated := by
    rw [halloc]
    exact h.allocated
  kernel := by
    rw [hfst, hkernel]
    exact h.kernel

theorem OnRing.atTick {ring : List Nat} {lst : Nat} {c : Ctx} (h : OnRing ring lst c)
    (lock : Nat) : OnRing ring lst (c.atTick lock) :=
  h.congr rfl rfl rfl rfl rfl

theorem OnRing.ticked {ring : List Nat} {lst : Nat} {c : Ctx} (h : OnRing ring lst c) :
    OnRing ring lst (ticked c) :=
  h.congr rfl rfl rfl rfl rfl

theorem nextOf_switched (ds : List Nat) (z : Nat) (bm : PageBitmap) (rs : Regs) (c : Ctx) :
    nextOf (switched ds z bm rs c) = Function.update (nextOf c) c.currProc z :=
  nextOf_update c c.currProc _

theorem dead_switched (ds : List Nat) (z : Nat) (bm : PageBitmap) (rs : Regs) (c : Ctx)
    (p : Nat) : ((switched ds z bm rs c).tcbs p).dead = (c.tcbs p).dead := by
  by_cases hp : p = c.currProc
  · simp [switched, hp]
  · simp [switched, Function.update_of_ne hp]

/-- A call that switches keeps the ring, without the blocks it reaped. -/
theorem OnRing.switched {ring : List Nat} {lst : Nat} {c : Ctx}
    {pre ds post : List Nat} {z : Nat} (h : OnRing ring lst c)
    (hs : SwitchShape ring c pre ds post z) (bm : PageBitmap) (rs : Regs) :
    OnRing (pre ++ c.currProc :: post) (if post = [] then c.currProc else lst)
      (switched ds z bm rs c) where
  isRing := by
    have hisRing := h.isRing
    rw [hs.split] at hisRing
    rw [nextOf_switched]
    exact hisRing.cut hs.walk
  curr := hs.target_mem h
  nonzero := fun p hp => h.nonzero p (hs.mem_ring hp)
  allocated := by
    intro p hp
    refine List.mem_filter.mpr ⟨h.allocated p (hs.mem_ring hp), ?_⟩
    exact decide_eq_true (hs.not_reaped h hp)
  kernel := (dead_switched _ _ _ _ _ _).trans h.kernel

/-- The ring after `spawn_kernel_process` is the kernel alone. -/
theorem onRing_spawnKernelProcess {answer : Nat} (hanswer : answer ≠ 0) (rs : Regs)
    (c : Ctx) : OnRing [answer] answer (spawnKernelProcess answer rs c).2 := by
  rw [spawnKernelProcess, if_neg hanswer]
  refine ⟨⟨⟨rfl, ?_⟩, List.nodup_cons.mpr ⟨List.not_mem_nil, List.nodup_nil⟩, rfl⟩,
    List.mem_cons_self, ?_, ?_, ?_⟩
  · simp [nextOf]
  · intro p hp
    rw [List.mem_singleton.mp hp]
    exact hanswer
  · intro p hp
    rw [List.mem_singleton.mp hp]
    exact List.mem_cons_self
  · simp

/-- The state after a process was spawned on the pages at `page`. -/
def spawned (stub answer page : Nat) (bm : PageBitmap) (rs : Regs) (fn nPages : Nat)
    (c : Ctx) : Ctx :=
  let newProc : Tcb :=
    { pid := c.nextPid, dead := false, fn := fn, nPages := nPages, fstPage := page
      next := c.fstProc, regs := spawnRegs stub page nPages rs }
  { c with
    pageBitmap := bm
    allocated := answer :: c.allocated
    nextPid := (c.nextPid + 1) % 2 ^ 32
    lstProc := answer
    tcbs := Function.update
      (Function.update c.tcbs c.lstProc { c.tcbs c.lstProc with next := answer })
      answer newProc }

/-- With pages and a block to be had, `spawn_process` links the block in behind
`lst_proc`. -/
theorem spawnProcess_of_allocPages {stub answer fn nPages page : Nat} {rs : Regs} {c : Ctx}
    {bm : PageBitmap} (halloc : allocPages nPages c.pageBitmap = (some page, bm))
    (hanswer : answer ≠ 0) (hlst : c.lstProc ≠ 0) :
    spawnProcess stub answer rs fn nPages c =
      .ok (0, spawned stub answer page bm rs fn nPages c) := by
  unfold spawnProcess
  by_cases hne : answer = c.lstProc
  · -- `malloc` returned the block that `lst_proc` still points to
    simp only [halloc, modifyTcb_of_ne hanswer, bind_ok, ← hne, spawned, Function.update_self,
      Function.update_idem]
  · simp only [halloc, modifyTcb_of_ne hanswer, bind_ok, modifyTcb_of_ne hlst, spawned,
      Function.update_of_ne (Ne.symm hne), Function.update_self, Function.update_comm hne,
      Function.update_idem]

/-- A call of `spawn_process` that returns `0` got its pages and its block. -/
theorem spawnProcess_ok {stub answer fn nPages : Nat} {rs : Regs} {c c' : Ctx}
    (h : spawnProcess stub answer rs fn nPages c = .ok (0, c')) :
    ∃ page bm, allocPages nPages c.pageBitmap = (some page, bm) ∧ answer ≠ 0 ∧
      c.lstProc ≠ 0 ∧ c' = spawned stub answer page bm rs fn nPages c := by
  cases halloc : allocPages nPages c.pageBitmap with
  | mk answer? bm =>
      cases answer? with
      | none => simp [spawnProcess, halloc] at h
      | some page =>
          by_cases hanswer : answer = 0
          · simp [spawnProcess, halloc, modifyTcb, hanswer, bind, Except.bind] at h
          · by_cases hlst : c.lstProc = 0
            · simp [spawnProcess, halloc, modifyTcb, hanswer, hlst, bind, Except.bind] at h
            · rw [spawnProcess_of_allocPages halloc hanswer hlst, Except.ok.injEq,
                Prod.mk.injEq] at h
              exact ⟨page, bm, rfl, hanswer, hlst, h.2.symm⟩

theorem nextOf_spawned (stub answer page : Nat) (bm : PageBitmap) (rs : Regs)
    (fn nPages : Nat) (c : Ctx) :
    nextOf (spawned stub answer page bm rs fn nPages c) =
      Function.update (Function.update (nextOf c) c.lstProc answer) answer c.fstProc := by
  rw [nextOf_eq_comp, spawned, Function.comp_update, Function.comp_update]
  rfl

/-- Spawning touches no `dead` flag of another block. -/
theorem dead_spawned {stub answer page fn nPages : Nat} {bm : PageBitmap} {rs : Regs}
    {c : Ctx} {p : Nat} (hp : p ≠ answer) :
    ((spawned stub answer page bm rs fn nPages c).tcbs p).dead = (c.tcbs p).dead := by
  by_cases hlst : p = c.lstProc
  · rw [hlst] at hp ⊢
    simp [spawned, Function.update_of_ne hp]
  · simp [spawned, Function.update_of_ne hp, Function.update_of_ne hlst]

/-- Spawning links the new block in at the end, when `lst_proc` is the end. -/
theorem OnRing.spawned {ring : List Nat} {c : Ctx} (h : OnRing ring c.lstProc c)
    {stub answer page fn nPages : Nat} {bm : PageBitmap} {rs : Regs}
    (hfresh : answer ∉ ring) (hanswer : answer ≠ 0) :
    OnRing (ring ++ [answer]) answer (spawned stub answer page bm rs fn nPages c) where
  isRing := by
    rw [nextOf_spawned]
    exact h.isRing.insert hfresh
  curr := List.mem_append_left _ h.curr
  nonzero := by
    intro p hp
    rcases List.mem_append.mp hp with hp | hp
    · exact h.nonzero p hp
    · rw [List.mem_singleton.mp hp]
      exact hanswer
  allocated := by
    intro p hp
    rcases List.mem_append.mp hp with hp | hp
    · exact List.mem_cons_of_mem _ (h.allocated p hp)
    · rw [List.mem_singleton.mp hp]
      exact List.mem_cons_self
  kernel := by
    have hne : c.fstProc ≠ answer := by
      rintro rfl
      exact hfresh h.isRing.fst_mem
    exact (dead_spawned hne).trans h.kernel

/-- A successful call of `spawn_process` links its block in at the end. -/
theorem spawnProcess_ring {stub answer fn nPages : Nat} {rs : Regs} {c c' : Ctx}
    {ring : List Nat} (h : OnRing ring c.lstProc c) (hfresh : answer ∉ c.allocated)
    (hcall : spawnProcess stub answer rs fn nPages c = .ok (0, c')) :
    OnRing (ring ++ [answer]) c'.lstProc c' ∧ c'.allocated = answer :: c.allocated := by
  have hout : answer ∉ ring := fun hmem => hfresh (h.allocated answer hmem)
  obtain ⟨page, bm, _, hanswer, _, rfl⟩ := spawnProcess_ok hcall
  exact ⟨h.spawned hout hanswer, rfl⟩

/-- The state after the current process finished. -/
def finished (c : Ctx) : Ctx :=
  { c with tcbs := Function.update c.tcbs c.currProc { c.tcbs c.currProc with dead := true } }

theorem stubFinish_ok {c c' : Ctx} (h : stubFinish c = .ok c') : c' = finished c := by
  unfold stubFinish modifyTcb at h
  split at h
  · simp at h
  · rw [← Except.ok.inj h]
    rfl

theorem nextOf_finished (c : Ctx) : nextOf (finished c) = nextOf c := by
  rw [finished, nextOf_update]
  exact Function.update_eq_self _ _

theorem OnRing.finished {ring : List Nat} {lst : Nat} {c : Ctx} (h : OnRing ring lst c)
    (hkernel : c.currProc ≠ c.fstProc) : OnRing ring lst (finished c) := by
  refine h.congr (nextOf_finished c) rfl rfl rfl ?_
  exact congrArg Tcb.dead (Function.update_of_ne hkernel.symm _ _)

end DonutOS.Kernel
