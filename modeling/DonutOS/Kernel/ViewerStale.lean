import DonutOS.Kernel.ViewerKeys

set_option autoImplicit false

/-!
# Kernel: the first key of the viewer of packets (`__pctprint_command`)

The Enter behind the name of the command is still in `tty_last_key` when the viewer begins.
No key is pressed, and still the viewer takes one.
-/

namespace DonutOS.Kernel

open DonutOS.Foundation DonutOS.Libc

/-- In front of the first list `lastNHeaders` is still 0. -/
def ViewerPc.atHead : ViewerPc → Bool
  | .head | .compare => true
  | _ => false

/-- The viewer has not taken the Enter yet. -/
structure EnterWaits (s : Viewer) : Prop where
  before : s.pc.beforeSwitch = true
  lastKey : s.lastKey = keyEnter
  ready : s.hasKeyReady = false
  handled : s.handled = []
  selectedIndex : s.selectedIndex = 0
  lastSelectedIndex : s.lastSelectedIndex = 0
  lastNHeaders : s.pc.atHead = true → s.lastNHeaders = 0

/-- It has, and waits for the next key, or is about to. -/
structure EnterTaken (s : Viewer) : Prop where
  pc : s.pc = .enter ∨ s.pc = .details ∨ s.pc = .wait ∧ s.details = some 0
  ready : s.hasKeyReady = false
  handled : s.handled = [keyEnter]
  selectedIndex : s.selectedIndex = 0

theorem EnterWaits.choose {s : Viewer} (h : EnterWaits s) (hpc : s.pc = .choose) :
    EnterTaken s.next := by
  have hnext : s.next =
      { s with
        selectedIndex := nextSelected s.lastKey s, pc := nextPc s.lastKey
        handled := handledKeys s.lastKey s.handled } := by
    unfold Viewer.next
    rw [hpc]
  rw [hnext, h.lastKey, h.handled]
  exact ⟨.inl rfl, h.ready, rfl, h.selectedIndex⟩

theorem EnterWaits.next {s : Viewer} (h : EnterWaits s) (hpc : s.pc ≠ .choose) :
    EnterWaits s.next := by
  obtain ⟨hbefore, hkey, hready, hhandled, hsel, hlastSel, hlastN⟩ := h
  unfold Viewer.next
  cases hcase : s.pc with
  | head =>
      refine ⟨?_, hkey, hready, hhandled, hsel, hlastSel, fun _ => hlastN (hcase ▸ rfl)⟩
      dsimp only
      split <;> rfl
  | compare =>
      refine ⟨?_, hkey, hready, hhandled, hsel, hlastSel, fun _ => hlastN (hcase ▸ rfl)⟩
      dsimp only
      split <;> rfl
  | snapshot => exact ⟨rfl, hkey, hready, hhandled, hsel, hsel, Bool.noConfusion⟩
  | heading => exact ⟨rfl, hkey, hready, hhandled, hsel, hlastSel, Bool.noConfusion⟩
  | test i =>
      dsimp only
      split
      · exact ⟨rfl, hkey, hready, hhandled, hsel, hlastSel, Bool.noConfusion⟩
      · exact ⟨rfl, hkey, hready, hhandled, hsel, hlastSel, Bool.noConfusion⟩
  | row i =>
      dsimp only
      split
      · exact ⟨rfl, hkey, hready, hhandled, hsel, hlastSel, Bool.noConfusion⟩
      · exact ⟨rfl, hkey, hready, hhandled, hsel, hlastSel, Bool.noConfusion⟩
  | choose => exact absurd hcase hpc
  | _ => rw [hcase] at hbefore; cases hbefore

theorem EnterTaken.next {s : Viewer} (h : EnterTaken s) : EnterTaken s.next := by
  obtain ⟨hpc, hready, hhandled, hsel⟩ := h
  unfold Viewer.next
  rcases hpc with hpc | hpc | ⟨hpc, hdetails⟩
  · rw [hpc]
    exact ⟨.inr (.inl rfl), rfl, hhandled, hsel⟩
  · rw [hpc]
    exact ⟨.inr (.inr ⟨rfl, congrArg some hsel⟩), hready, hhandled, hsel⟩
  · rw [hpc]
    dsimp only
    rw [hready]
    exact ⟨.inr (.inr ⟨rfl, hdetails⟩), rfl, hhandled, hsel⟩

/-- While no key has come, the Enter waits or is taken. -/
def OnlyEnter (s : Viewer) : Prop := s.delivered = [] → EnterWaits s ∨ EnterTaken s

theorem OnlyEnter.next {s : Viewer} (h : OnlyEnter s) : OnlyEnter s.next := by
  intro hnone
  have hdelivered : s.next.delivered = s.delivered := by
    unfold Viewer.next
    cases s.pc with
    | row i =>
        dsimp only
        split <;> rfl
    | _ => rfl
  rw [hdelivered] at hnone
  rcases h hnone with hwaits | htaken
  · by_cases hpc : s.pc = .choose
    · exact .inr (hwaits.choose hpc)
    · exact .inl (hwaits.next hpc)
  · exact .inr htaken.next

theorem OnlyEnter.scancode {s : Viewer} (h : OnlyEnter s) (code : Byte) :
    OnlyEnter (s.scancode code) := by
  unfold Viewer.scancode
  cases keyOf code s.kb with
  | none =>
      intro hnone
      rcases h hnone with ⟨hbefore, hkey, hready, hhandled, hsel, hlastSel, hlastN⟩ | htaken
      · exact .inl ⟨hbefore, hkey, hready, hhandled, hsel, hlastSel, hlastN⟩
      · exact .inr ⟨htaken.pc, htaken.ready, htaken.handled, htaken.selectedIndex⟩
  | some key => exact fun hnone => absurd hnone (List.append_ne_nil_of_right_ne_nil _ (by simp))

theorem ViewerStep.onlyEnter {process : PacketParser} {s t : Viewer} {event : ViewerEvent}
    (h : OnlyEnter s) (hstep : ViewerStep process s event t) : OnlyEnter t := by
  cases hstep with
  | scancode code => exact h.scancode code
  | nic _ =>
      intro hnone
      rcases h hnone with ⟨hbefore, hkey, hready, hhandled, hsel, hlastSel, hlastN⟩ | htaken
      · exact .inl ⟨hbefore, hkey, hready, hhandled, hsel, hlastSel, hlastN⟩
      · exact .inr ⟨htaken.pc, htaken.ready, htaken.handled, htaken.selectedIndex⟩
  | next _ => exact h.next

/-! ## The details open -/

/-- The steps of the viewer lead to the details of index 0, and there it waits. -/
def OpensFirst (s : Viewer) : Prop :=
  ∃ n, (Viewer.next^[n] s).pc = .wait ∧ (Viewer.next^[n] s).details = some 0

theorem OpensFirst.of_next {s : Viewer} (h : OpensFirst s.next) : OpensFirst s := by
  obtain ⟨n, hopen⟩ := h
  exact ⟨n + 1, hopen⟩

theorem EnterTaken.opens {s : Viewer} (h : EnterTaken s) : OpensFirst s := by
  have hwait : ∀ t : Viewer, EnterTaken t → t.pc = .details → OpensFirst t := by
    intro t ht hpc
    refine ⟨1, ?_⟩
    change t.next.pc = .wait ∧ t.next.details = some 0
    unfold Viewer.next
    rw [hpc]
    exact ⟨rfl, congrArg some ht.selectedIndex⟩
  rcases h.pc with hpc | hpc | hopen
  · refine (hwait _ h.next ?_).of_next
    unfold Viewer.next
    rw [hpc]
  · exact hwait s h hpc
  · exact ⟨0, hopen⟩

theorem EnterWaits.opens_of_choose {s : Viewer} (h : EnterWaits s) (hpc : s.pc = .choose) :
    OpensFirst s := (h.choose hpc).opens.of_next

/-- The step to a row, or behind the list. -/
theorem next_test {s : Viewer} {i : Nat} (hpc : s.pc = .test i) :
    s.next.pc = if i < s.ring.nic.nHeaders ∧ i < s.viewOffset + 11 then .row i else .choose := by
  unfold Viewer.next
  rw [hpc]

theorem next_row {s : Viewer} {i : Nat} (hpc : s.pc = .row i) :
    s.next.pc = .choose ∨ s.next.pc = .test (i + 1) := by
  unfold Viewer.next
  rw [hpc]
  dsimp only
  split
  · exact .inl rfl
  · exact .inr rfl

/-- The rows are drawn: at most 11 from index 0 on, and `k` are left. -/
theorem EnterWaits.opens_of_test {s : Viewer} {i k : Nat} (h : EnterWaits s)
    (hpc : s.pc = .test i) (hk : 11 ≤ i + k) : OpensFirst s := by
  induction k generalizing s i with
  | zero =>
      have hoffset : s.viewOffset = 0 := congrArg (· - 6) h.selectedIndex
      have hnext := next_test hpc
      rw [if_neg (by omega)] at hnext
      exact ((h.next (by rw [hpc]; exact nofun)).opens_of_choose hnext).of_next
  | succ k ih =>
      have hwaits := h.next (by rw [hpc]; exact nofun)
      refine OpensFirst.of_next ?_
      by_cases hrow : i < s.ring.nic.nHeaders ∧ i < s.viewOffset + 11
      · have hnext := (next_test hpc).trans (if_pos hrow)
        have hdrawn := hwaits.next (by rw [hnext]; exact nofun)
        refine OpensFirst.of_next ?_
        rcases next_row hnext with hchoose | htest
        · exact hdrawn.opens_of_choose hchoose
        · exact ih hdrawn htest (by omega)
      · exact hwaits.opens_of_choose ((next_test hpc).trans (if_neg hrow))

theorem EnterWaits.opens_of_heading {s : Viewer} (h : EnterWaits s) (hpc : s.pc = .heading) :
    OpensFirst s := by
  have hnext : s.next.pc = .test s.viewOffset := by
    unfold Viewer.next
    rw [hpc]
  exact ((h.next (by rw [hpc]; exact nofun)).opens_of_test hnext (Nat.le_add_left 11 _)).of_next

theorem EnterWaits.opens_of_snapshot {s : Viewer} (h : EnterWaits s) (hpc : s.pc = .snapshot) :
    OpensFirst s := by
  have hnext : s.next.pc = .heading := by
    unfold Viewer.next
    rw [hpc]
  exact ((h.next (by rw [hpc]; exact nofun)).opens_of_heading hnext).of_next

/-- There is a packet, and `lastNHeaders` is 0. -/
theorem EnterWaits.opens_of_compare {s : Viewer} (h : EnterWaits s) (hpc : s.pc = .compare)
    (hpacket : 0 < s.ring.nic.nHeaders) : OpensFirst s := by
  have hlast : s.lastNHeaders = 0 := h.lastNHeaders (hpc ▸ rfl)
  have hnext : s.next.pc = .snapshot := by
    unfold Viewer.next
    rw [hpc]
    exact if_neg fun hsame => by omega
  exact ((h.next (by rw [hpc]; exact nofun)).opens_of_snapshot hnext).of_next

theorem EnterWaits.opens {s : Viewer} (h : EnterWaits s) (hpacket : 0 < s.ring.nic.nHeaders) :
    OpensFirst s := by
  cases hpc : s.pc with
  | head =>
      have hnext : s.next.pc = .compare := by
        unfold Viewer.next
        rw [hpc]
        dsimp only
        rw [h.ready]
        rfl
      have hring : s.next.ring = s.ring := by
        unfold Viewer.next
        rw [hpc]
      exact ((h.next (by rw [hpc]; exact nofun)).opens_of_compare hnext (hring ▸ hpacket)).of_next
  | compare => exact h.opens_of_compare hpc hpacket
  | snapshot => exact h.opens_of_snapshot hpc
  | heading => exact h.opens_of_heading hpc
  | test i => exact h.opens_of_test hpc (Nat.le_add_left 11 i)
  | row i =>
      have hdrawn := h.next (by rw [hpc]; exact nofun)
      refine OpensFirst.of_next ?_
      rcases next_row hpc with hchoose | htest
      · exact hdrawn.opens_of_choose hchoose
      · exact hdrawn.opens_of_test htest (Nat.le_add_left 11 _)
  | choose => exact h.opens_of_choose hpc
  | _ =>
      have hbefore := h.before
      rw [hpc] at hbefore
      cases hbefore

/-! ## Every run -/

theorem onlyEnter_start (ring : NicState) (kb : Kb) :
    OnlyEnter (viewerStart ring kb false keyEnter) :=
  fun _ => .inl ⟨rfl, rfl, rfl, rfl, rfl, rfl, fun _ => rfl⟩

/-- The viewer that its own Enter has started, in every run in which no key is pressed:
it takes no other key, it never goes back to the list, and as soon as there is a packet it
is on its way to the details of index 0, where it waits. -/
theorem viewerRuns_stale {process : PacketParser} {ring : NicState} {kb : Kb}
    {path : List (ViewerEvent × Viewer)}
    (hpath : IsPath (ViewerStep process) (viewerStart ring kb false keyEnter) path)
    (hnone : (endState (viewerStart ring kb false keyEnter) path).delivered = []) :
    let s := endState (viewerStart ring kb false keyEnter) path
    (s.handled = [] ∧ s.pc.beforeSwitch = true ∨
        s.handled = [keyEnter] ∧ s.pc.beforeSwitch = false) ∧
      (0 < s.ring.nic.nHeaders → OpensFirst s) := by
  have hinv : OnlyEnter (endState (viewerStart ring kb false keyEnter) path) :=
    hpath.invariant (fun _ _ _ hinv hstep => hstep.onlyEnter hinv) (onlyEnter_start ring kb) _
      (endState_mem_visited _ _)
  rcases hinv hnone with hwaits | htaken
  · exact ⟨.inl ⟨hwaits.handled, hwaits.before⟩, hwaits.opens⟩
  · refine ⟨.inr ⟨htaken.handled, ?_⟩, fun _ => htaken.opens⟩
    rcases htaken.pc with hpc | hpc | ⟨hpc, -⟩
    · rw [hpc]
      rfl
    · rw [hpc]
      rfl
    · rw [hpc]
      rfl

/-- With two packets it opens the first, though nobody has pressed a key in it. -/
theorem viewerRuns_stale_two : ∃ u, twoPackets = some u ∧ OpensFirst (promptedViewer u) := by
  have htwo : twoPackets.any (fun u => 0 < u.nic.nHeaders) = true := by decide +kernel
  obtain ⟨u, hu, hpackets⟩ := (Option.any_eq_true _ _).mp htwo
  have hpath : IsPath (ViewerStep frontParser) (promptedViewer u) [] := trivial
  exact ⟨u, hu, (viewerRuns_stale hpath rfl).2 (of_decide_eq_true hpackets)⟩

end DonutOS.Kernel
