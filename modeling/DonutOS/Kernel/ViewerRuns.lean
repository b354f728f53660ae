import DonutOS.Foundation.Path
import DonutOS.Kernel.PacketViewer

set_option autoImplicit false

/-!
# Kernel: the list while packets come in (`__pctprint_command`)

The viewer reads `nHeaders` and the ring again and again while it draws one list.  A packet
that comes between may shift the rows that are still to come, but never back.
-/

namespace DonutOS.Kernel

open DonutOS.Foundation DonutOS.Libc

/-! ## What interrupts do to the ring -/

/-- The ring goes on: it has no fewer headers, has dropped no fewer, and the header of a
packet stays what it is. -/
structure RingGrows (s t : NicState) : Prop where
  count : s.nic.nHeaders ≤ t.nic.nHeaders
  dropped : s.received.length - s.nic.nHeaders ≤ t.received.length - t.nic.nHeaders
  packet : ∀ number header, 0 < number → headerOfPacket number s = some header →
    headerOfPacket number t = some header
  ethHeaders : t.nic.ethHeaders = s.nic.ethHeaders

theorem RingGrows.refl (s : NicState) : RingGrows s s :=
  ⟨Nat.le_refl _, Nat.le_refl _, fun _ _ _ h => h, rfl⟩

theorem headerOfPacket_cons {s t : NicState} {header new : EthernetHeader}
    (h : t.received = new :: s.received) {number : Nat}
    (hheader : headerOfPacket number s = some header) :
    headerOfPacket number t = some header := by
  unfold headerOfPacket at *
  rw [h, List.reverse_cons]
  rw [List.getElem?_append_left (List.getElem?_eq_some_iff.mp hheader).1]
  exact hheader

theorem NicStep.grows {process : PacketParser} {s t : NicState} {event : NicEvent}
    (hs : RingKept s) (hstep : NicStep process s event t) : RingGrows s t := by
  cases hstep with
  | packet hreceive =>
      obtain ⟨_, _, header, hreceived⟩ := nicReceive_received hreceive
      have hcount := hs.count
      have hnew := hreceived.nHeaders
      rw [makeSlot_nHeaders] at hnew
      have hlength := congrArg List.length hreceived.received
      rw [List.length_cons] at hlength
      have hsize : 0 < ethHeadersSize := by decide
      refine ⟨?_, ?_, fun _ _ _ h => headerOfPacket_cons hreceived.received h,
        hreceived.ethHeaders⟩
      · split at hnew <;> omega
      · split at hnew <;> omega
  | other _ _ _ => exact ⟨Nat.le_refl _, Nat.le_refl _, fun _ _ _ h => h, rfl⟩

/-! ## The rows drawn so far -/

/-- What is right about rows: their colours, the packets that they show, and the order. -/
structure RowsRight (ring : NicState) (selectedIndex : Nat) (rows : List Row) : Prop where
  colors : ∀ row ∈ rows, row.color = rowColor selectedIndex row.index
  headers : ∀ row ∈ rows, 0 < row.number ∧ ∃ header,
    row.header = some header ∧ headerOfPacket row.number ring = some header
  order : (rows.map Row.number).Pairwise (· < ·)

/-- The loop has come to `i`. -/
structure RowsUpTo (i : Nat) (s : Viewer) : Prop where
  right : RowsRight s.ring s.selectedIndex s.rows
  indices : s.rows.map Row.index = List.range' s.viewOffset (i - s.viewOffset)
  first : s.viewOffset ≤ i
  bound : i ≤ s.viewOffset + 11
  size : i ≤ s.ring.nic.nHeaders ∨ i = s.viewOffset
  below : ∀ row ∈ s.rows, row.number ≤ s.ring.received.length - s.ring.nic.nHeaders + i
  number : s.number ≤ s.ring.nic.nHeaders
  sel : s.selectedIndex = 0 ∨ s.selectedIndex < s.number

/-- The whole list: the window of a size that `nHeaders` had since the heading. -/
structure ListShown (s : Viewer) : Prop where
  right : RowsRight s.ring s.selectedIndex s.rows
  rows : s.ring.nic.ethHeaders ≠ 0 → ∃ size, s.number ≤ size ∧ size ≤ s.ring.nic.nHeaders ∧
    s.rows.map Row.index = window 6 11 size s.selectedIndex
  sel : s.selectedIndex = 0 ∨ s.selectedIndex < s.number

/-- What holds where the viewer is. -/
def ViewerPc.Kept (s : Viewer) : ViewerPc → Prop
  | .test i => RowsUpTo i s
  | .row i => RowsUpTo i s ∧ i < s.ring.nic.nHeaders ∧ i < s.viewOffset + 11
  | .choose => ListShown s
  | _ => True

structure ViewerKept (s : Viewer) : Prop where
  ring : RingKept s.ring
  sel : s.selectedIndex = 0 ∨ s.selectedIndex < s.ring.nic.nHeaders
  pc : s.pc.Kept s

theorem RowsRight.grows {ring ring' : NicState} {sel : Nat} {rows : List Row}
    (h : RowsRight ring sel rows) (hgrows : RingGrows ring ring') : RowsRight ring' sel rows := by
  refine ⟨h.colors, fun row hrow => ?_, h.order⟩
  obtain ⟨hpos, header, hheader, hpacket⟩ := h.headers row hrow
  exact ⟨hpos, header, hheader, hgrows.packet _ _ hpos hpacket⟩

/-- Nothing is drawn yet. -/
theorem RowsUpTo.start {s : Viewer} {i : Nat} (hi : i = s.viewOffset) (hrows : s.rows = [])
    (hnumber : s.number = s.ring.nic.nHeaders)
    (hsel : s.selectedIndex = 0 ∨ s.selectedIndex < s.ring.nic.nHeaders) : RowsUpTo i s := by
  have hnone : ∀ P : Row → Prop, ∀ row ∈ s.rows, P row := by
    rw [hrows]
    exact fun _ _ h => absurd h List.not_mem_nil
  refine ⟨⟨hnone _, hnone _, ?_⟩, ?_, hi.ge, hi ▸ Nat.le_add_right _ _, .inr hi, hnone _,
    hnumber.le, hnumber ▸ hsel⟩
  · rw [hrows]
    exact List.Pairwise.nil
  · rw [hrows, hi, Nat.sub_self]
    rfl

/-- The row of `i` is drawn: the packets of the rows above it came before its own, even
when the ring has moved on since. -/
theorem RowsUpTo.draw {s : Viewer} {i : Nat} (hring : RingKept s.ring) (h : RowsUpTo i s)
    (hi : i < s.ring.nic.nHeaders) (hwindow : i < s.viewOffset + 11) :
    RowsUpTo (i + 1) { s with rows := s.rows ++ [s.rowAt i], pc := .test (i + 1) } := by
  have hfirst := h.first
  obtain ⟨header, hpacket, hassigned⟩ := hring.lastHeaders.slots i hi
  refine ⟨⟨?_, ?_, ?_⟩, ?_, Nat.le_succ_of_le hfirst, hwindow, .inl hi, ?_, h.number, h.sel⟩
  · rw [List.forall_mem_append, List.forall_mem_singleton]
    exact ⟨h.right.colors, rfl⟩
  · rw [List.forall_mem_append, List.forall_mem_singleton]
    exact ⟨h.right.headers, Nat.succ_pos _, header, hassigned, hpacket⟩
  · rw [List.map_append, List.map_singleton, List.pairwise_append]
    refine ⟨h.right.order, List.pairwise_singleton _ _, ?_⟩
    rintro number hnumber _ hlast
    obtain ⟨row, hrow, rfl⟩ := List.mem_map.mp hnumber
    rw [List.mem_singleton] at hlast
    rw [hlast]
    exact Nat.lt_succ_of_le (h.below row hrow)
  · have hlength : i + 1 - s.viewOffset = i - s.viewOffset + 1 := Nat.succ_sub hfirst
    change (s.rows ++ [s.rowAt i]).map Row.index = List.range' s.viewOffset (i + 1 - s.viewOffset)
    rw [hlength, List.range'_concat, List.map_append, h.indices, Nat.one_mul,
      Nat.add_sub_cancel' hfirst]
    rfl
  · rw [List.forall_mem_append, List.forall_mem_singleton]
    exact ⟨fun row hrow => Nat.le_succ_of_le (h.below row hrow), Nat.le_refl _⟩

/-- The loop ends. -/
theorem RowsUpTo.stop {s : Viewer} {i : Nat} (h : RowsUpTo i s)
    (hstop : ¬(i < s.ring.nic.nHeaders ∧ i < s.viewOffset + 11)) : ListShown s := by
  refine ⟨h.right, fun _ => ⟨s.ring.nic.nHeaders, h.number, Nat.le_refl _, ?_⟩, h.sel⟩
  rw [h.indices]
  exact range'_eq_window h.first h.bound h.size hstop

/-- A row whose header has the address 0 ends it too; then the ring was not allocated. -/
theorem RowsUpTo.broken {s : Viewer} {i : Nat} (h : RowsUpTo i s)
    (hnull : rtl8139GetEthHeader i s.ring.nic = 0) : ListShown s := by
  refine ⟨h.right, fun hne => absurd ?_ hne, h.sel⟩
  exact Nat.eq_zero_of_add_eq_zero_right hnull

/-- The list is left alone, and the ring goes on. -/
structure LeavesList (s t : Viewer) : Prop where
  ring : RingGrows s.ring t.ring
  selectedIndex : t.selectedIndex = s.selectedIndex
  number : t.number = s.number
  rows : t.rows = s.rows

section Leaves

variable {s t : Viewer}

theorem RowsUpTo.leaves {i : Nat} (h : RowsUpTo i s) (hleaves : LeavesList s t) :
    RowsUpTo i t := by
  obtain ⟨hring, hsel, hnumber, hrows⟩ := hleaves
  have hoffset : t.viewOffset = s.viewOffset := congrArg (· - 6) hsel
  constructor
  · rw [hsel, hrows]
    exact h.right.grows hring
  · rw [hrows, hoffset]
    exact h.indices
  · rw [hoffset]
    exact h.first
  · rw [hoffset]
    exact h.bound
  · rw [hoffset]
    exact h.size.imp_left fun hle => hle.trans hring.count
  · rw [hrows]
    exact fun row hrow => (h.below row hrow).trans (Nat.add_le_add_right hring.dropped i)
  · rw [hnumber]
    exact h.number.trans hring.count
  · rw [hsel, hnumber]
    exact h.sel

theorem ListShown.leaves (h : ListShown s) (hleaves : LeavesList s t) : ListShown t := by
  obtain ⟨hring, hsel, hnumber, hrows⟩ := hleaves
  constructor
  · rw [hsel, hrows]
    exact h.right.grows hring
  · rw [hsel, hnumber, hrows, hring.ethHeaders]
    intro hne
    obtain ⟨size, hlow, hhigh, hwindow⟩ := h.rows hne
    exact ⟨size, hlow, hhigh.trans hring.count, hwindow⟩
  · rw [hsel, hnumber]
    exact h.sel

theorem ViewerPc.Kept.leaves {pc : ViewerPc} (h : pc.Kept s) (hleaves : LeavesList s t) :
    pc.Kept t := by
  cases pc with
  | test i => exact RowsUpTo.leaves h hleaves
  | row i =>
      have hoffset : t.viewOffset = s.viewOffset := congrArg (· - 6) hleaves.selectedIndex
      obtain ⟨hrows, hi, hwindow⟩ := h
      exact ⟨hrows.leaves hleaves, Nat.lt_of_lt_of_le hi hleaves.ring.count, hoffset ▸ hwindow⟩
  | choose => exact ListShown.leaves h hleaves
  | _ => trivial

/-- Only other variables change. -/
theorem leavesList_of_eq (hring : t.ring = s.ring) (hsel : t.selectedIndex = s.selectedIndex)
    (hnumber : t.number = s.number) (hrows : t.rows = s.rows) : LeavesList s t := by
  refine ⟨?_, hsel, hnumber, hrows⟩
  rw [hring]
  exact .refl _

end Leaves

/-! ## One step -/

theorem nextSelected_valid {s : Viewer} (key : Byte)
    (h : s.selectedIndex = 0 ∨ s.selectedIndex < s.ring.nic.nHeaders) :
    nextSelected key s = 0 ∨ nextSelected key s < s.ring.nic.nHeaders := by
  unfold nextSelected
  split
  · split <;> omega
  · split
    · split <;> omega
    · exact h

theorem nextPc_kept (key : Byte) (s : Viewer) : (nextPc key).Kept s := by
  unfold nextPc
  split
  · trivial
  · split <;> trivial

theorem ViewerKept.next {s : Viewer} (h : ViewerKept s) : ViewerKept s.next := by
  obtain ⟨hring, hsel, hkept⟩ := h
  unfold Viewer.next
  cases hpc : s.pc with
  | head =>
      refine ⟨hring, hsel, ?_⟩
      dsimp only
      split <;> trivial
  | compare =>
      refine ⟨hring, hsel, ?_⟩
      dsimp only
      split <;> trivial
  | snapshot => exact ⟨hring, hsel, trivial⟩
  | heading => exact ⟨hring, hsel, RowsUpTo.start rfl rfl rfl hsel⟩
  | test i =>
      rw [hpc] at hkept
      dsimp only
      split
      · next hin => exact ⟨hring, hsel, hkept.leaves (leavesList_of_eq rfl rfl rfl rfl), hin⟩
      · next hstop =>
          have hlist := hkept.stop hstop
          exact ⟨hring, hsel, hlist.leaves (leavesList_of_eq rfl rfl rfl rfl)⟩
  | row i =>
      rw [hpc] at hkept
      obtain ⟨hrows, hi, hwindow⟩ := hkept
      dsimp only
      split
      · next hnull =>
          have hlist := hrows.broken hnull
          exact ⟨hring, hsel, hlist.leaves (leavesList_of_eq rfl rfl rfl rfl)⟩
      · exact ⟨hring, hsel, hrows.draw hring hi hwindow⟩
  | choose => exact ⟨hring, nextSelected_valid _ hsel, nextPc_kept _ _⟩
  | enter => exact ⟨hring, hsel, trivial⟩
  | details => exact ⟨hring, hsel, trivial⟩
  | wait =>
      refine ⟨hring, hsel, ?_⟩
      dsimp only
      split <;> trivial
  | clearReady => exact ⟨hring, hsel, trivial⟩
  | clearKey => exact ⟨hring, hsel, trivial⟩
  | quitReady => exact ⟨hring, hsel, trivial⟩
  | quitKey => exact ⟨hring, hsel, trivial⟩
  | returned => exact ⟨hring, hsel, hkept⟩

/-- A scancode touches the mailbox and the keyboard only. -/
theorem ViewerKept.scancode {s : Viewer} (h : ViewerKept s) (code : Byte) :
    ViewerKept (s.scancode code) := by
  unfold Viewer.scancode
  cases hkey : keyOf code s.kb with
  | none => exact ⟨h.ring, h.sel, h.pc.leaves (leavesList_of_eq rfl rfl rfl rfl)⟩
  | some key => exact ⟨h.ring, h.sel, h.pc.leaves (leavesList_of_eq rfl rfl rfl rfl)⟩

theorem ViewerKept.nic {process : PacketParser} {s : Viewer} (h : ViewerKept s)
    {event : NicEvent} {ring : NicState} (hstep : NicStep process s.ring event ring) :
    ViewerKept { s with ring } := by
  have hgrows := hstep.grows h.ring
  exact ⟨hstep.ringKept h.ring, h.sel.imp_right fun hlt => Nat.lt_of_lt_of_le hlt hgrows.count,
    h.pc.leaves ⟨hgrows, rfl, rfl, rfl⟩⟩

theorem ViewerStep.kept {process : PacketParser} {s t : Viewer} {event : ViewerEvent}
    (h : ViewerKept s) (hstep : ViewerStep process s event t) : ViewerKept t := by
  cases hstep with
  | scancode code => exact h.scancode code
  | nic hstep => exact h.nic hstep
  | next _ => exact h.next

/-- The viewer takes `n` steps, and nothing interrupts it. -/
def viewerNexts : Nat → Viewer → List (ViewerEvent × Viewer)
  | 0, _ => []
  | n + 1, s => (.next, s.next) :: viewerNexts n s.next

theorem endState_viewerNexts (n : Nat) (s : Viewer) :
    endState s (viewerNexts n s) = Viewer.next^[n] s := by
  induction n generalizing s with
  | zero => rfl
  | succ n ih => exact ih s.next

theorem isPath_viewerNexts {process : PacketParser} {n : Nat} {s : Viewer}
    (h : ∀ k < n, (Viewer.next^[k] s).pc ≠ .returned) :
    IsPath (ViewerStep process) s (viewerNexts n s) := by
  induction n generalizing s with
  | zero => trivial
  | succ n ih =>
      exact ⟨.next (h 0 (Nat.succ_pos n)), ih fun k hk => h (k + 1) (Nat.succ_lt_succ hk)⟩

/-! ## Every run -/

section Runs

variable {process : PacketParser} {before : HeapState} {nic : NicState}
  {received : List (NicEvent × NicState)} {kb : Kb} {ready : Bool} {key : Byte}
  {path : List (ViewerEvent × Viewer)}

theorem viewerKept_start {ring : NicState} (hring : RingKept ring) :
    ViewerKept (viewerStart ring kb ready key) := ⟨hring, .inl rfl, trivial⟩

theorem viewerKept_run (hinit : nicInit before = some nic)
    (hreceived : IsPath (NicStep process) nic received)
    (hpath : IsPath (ViewerStep process) (viewerStart (endState nic received) kb ready key) path) :
    ViewerKept (endState (viewerStart (endState nic received) kb ready key) path) := by
  have hring := hreceived.invariant (fun _ _ _ hinv hstep => hstep.ringKept hinv)
    (nicInit_ring hinit).1
  exact hpath.invariant (fun _ _ _ hinv hstep => hstep.kept hinv)
    (viewerKept_start (hring _ (endState_mem_visited _ _))) _ (endState_mem_visited _ _)

/-- Whatever packets come while the list is drawn: when it is complete, its rows are the
window around the selected index of a size that `nHeaders` had since the heading, one of
them is the selected one if the heading said that there are packets, every row shows a
packet that was received, and from row to row the packets are later ones. -/
theorem viewerRuns_rows (hinit : nicInit before = some nic)
    (hreceived : IsPath (NicStep process) nic received)
    (hpath : IsPath (ViewerStep process) (viewerStart (endState nic received) kb ready key) path)
    (hpc : (endState (viewerStart (endState nic received) kb ready key) path).pc = .choose) :
    let s := endState (viewerStart (endState nic received) kb ready key) path
    ListShown s ∧ (s.ring.nic.ethHeaders ≠ 0 → 0 < s.number →
      ∃ row ∈ s.rows, row.index = s.selectedIndex) := by
  have hkept := (viewerKept_run hinit hreceived hpath).pc
  rw [hpc] at hkept
  have hlist : ListShown _ := hkept
  refine ⟨hlist, fun hne hpos => ?_⟩
  obtain ⟨size, hlow, -, hrows⟩ := hlist.rows hne
  have hsel : (endState (viewerStart (endState nic received) kb ready key) path).selectedIndex <
      size := by
    rcases hlist.sel with hzero | hlt
    · omega
    · omega
  have hmem := sel_mem_window (show 6 < 11 by decide) hsel
  rw [← hrows] at hmem
  exact List.mem_map.mp hmem

end Runs

/-- The viewer as the prompt starts it, with no modifier pressed. -/
def promptedViewer (ring : NicState) : Viewer :=
  viewerStart ring ⟨⟨false, false, false, false, false, false⟩, 0, false⟩ false keyEnter

/-- The driver with two packets, on a machine whose memory is zero. -/
def twoPackets : Option NicState :=
  ((nicInit (heapStart fun _ => 0)).bind (nicReceive frontParser)).bind (nicReceive frontParser)

theorem exists_twoPackets {p : NicState → Bool} (h : twoPackets.any p = true) :
    ∃ nic received, nicInit (heapStart fun _ => 0) = some nic ∧
      IsPath (NicStep frontParser) nic received ∧ p (endState nic received) = true := by
  obtain ⟨u, hu, hp⟩ := (Option.any_eq_true _ _).mp h
  obtain ⟨t, ht, hsecond⟩ := Option.bind_eq_some_iff.mp hu
  obtain ⟨nic, hinit, hfirst⟩ := Option.bind_eq_some_iff.mp ht
  exact ⟨nic, [(.packet, t), (.packet, u)], hinit,
    ⟨.packet hfirst, .packet hsecond, trivial⟩, hp⟩

/-- The viewer goes `n` steps from `s` without returning. -/
def Viewer.goesOn (n : Nat) (s : Viewer) : Bool :=
  (List.range n).all fun k => (Viewer.next^[k] s).pc ≠ .returned

theorem isPath_of_goesOn (process : PacketParser) {n : Nat} {s : Viewer} (h : s.goesOn n = true) :
    IsPath (ViewerStep process) s (viewerNexts n s) :=
  isPath_viewerNexts fun k hk =>
    of_decide_eq_true (List.all_eq_true.mp h k (List.mem_range.mpr hk))

/-- The viewer with two packets, when it has drawn them. -/
theorem viewerRuns_rows_two : ∃ nic received path,
    nicInit (heapStart fun _ => 0) = some nic ∧ IsPath (NicStep frontParser) nic received ∧
      IsPath (ViewerStep frontParser) (promptedViewer (endState nic received)) path ∧
      ListShown (endState (promptedViewer (endState nic received)) path) := by
  have htwo : twoPackets.any (fun u => (promptedViewer u).goesOn 9 &&
      (Viewer.next^[9] (promptedViewer u)).pc = .choose) = true := by decide +kernel
  obtain ⟨nic, received, hinit, hreceived, hdrawn⟩ := exists_twoPackets htwo
  rw [Bool.and_eq_true, decide_eq_true_eq, ← endState_viewerNexts] at hdrawn
  obtain ⟨hgoes, hpc⟩ := hdrawn
  have hpath := isPath_of_goesOn frontParser hgoes
  exact ⟨nic, received, _, hinit, hreceived, hpath,
    (viewerRuns_rows hinit hreceived hpath hpc).1⟩

end DonutOS.Kernel
