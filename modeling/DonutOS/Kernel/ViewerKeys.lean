import DonutOS.Kernel.ViewerRuns

set_option autoImplicit false

/-!
# Kernel: the keys of the viewer of packets (`__pctprint_command`)

The viewer takes the key that came last and forgets it later, so that a key may get lost,
but none is taken twice.  The first one that it takes may be older than the viewer: the
Enter behind the name of the command.
-/

namespace DonutOS.Kernel

open DonutOS.Foundation DonutOS.Libc

/-! ## Keys taken -/

/-- The switch has not had the last key yet. -/
def ViewerPc.beforeSwitch : ViewerPc → Bool
  | .head | .compare | .snapshot | .heading | .test _ | .row _ | .choose => true
  | _ => false

/-- What the switch may still take of the mailbox. -/
def Viewer.unread (s : Viewer) : List Byte :=
  if s.pc.beforeSwitch then handledKeys s.lastKey [] else []

/-- The keys of the viewer, the one that it finds in the mailbox first. -/
def Viewer.keys (key : Byte) (s : Viewer) : List Byte := handledKeys key [] ++ s.delivered

/-- No key is taken twice, and none out of order. -/
def KeysTaken (key : Byte) (s : Viewer) : Prop := (s.handled ++ s.unread).Sublist (s.keys key)

theorem handledKeys_eq (key : Byte) (keys : List Byte) :
    handledKeys key keys = keys ++ handledKeys key [] := by
  unfold handledKeys
  split
  · rw [List.append_nil]
  · rfl

theorem KeysTaken.handled {key : Byte} {s : Viewer} (h : KeysTaken key s) :
    s.handled.Sublist (s.keys key) := (List.sublist_append_left _ _).trans h

/-- The mailbox may be emptied at any time. -/
theorem KeysTaken.of_unread {key : Byte} {s t : Viewer} (h : KeysTaken key s)
    (hhandled : t.handled = s.handled) (hdelivered : t.delivered = s.delivered)
    (hunread : t.unread = s.unread ∨ t.unread = []) : KeysTaken key t := by
  unfold KeysTaken Viewer.keys
  rw [hhandled, hdelivered]
  rcases hunread with hunread | hunread
  · rw [hunread]
    exact h
  · rw [hunread, List.append_nil]
    exact h.handled

theorem KeysTaken.scancode {key : Byte} {s : Viewer} (h : KeysTaken key s) (code : Byte) :
    KeysTaken key (s.scancode code) := by
  unfold Viewer.scancode
  cases keyOf code s.kb with
  | none => exact h
  | some new =>
      have hunread : ∀ pc : ViewerPc,
          (if pc.beforeSwitch then handledKeys new [] else []).Sublist [new] := by
        intro pc
        unfold handledKeys
        split
        · split
          · exact List.nil_sublist _
          · exact List.Sublist.refl _
        · exact List.nil_sublist _
      unfold KeysTaken Viewer.keys
      rw [← List.append_assoc]
      exact h.handled.append (hunread s.pc)

theorem nextPc_beforeSwitch (key : Byte) : (nextPc key).beforeSwitch = false := by
  unfold nextPc
  split
  · rfl
  · split <;> rfl

/-- In front of the switch the last key may still be taken. -/
theorem unread_of_before {s t : Viewer} (hs : s.pc.beforeSwitch = true)
    (ht : t.pc.beforeSwitch = true) (hkey : t.lastKey = s.lastKey) : t.unread = s.unread := by
  unfold Viewer.unread
  rw [hs, ht, hkey]

theorem unread_of_behind {s : Viewer} (h : s.pc.beforeSwitch = false) : s.unread = [] := by
  unfold Viewer.unread
  rw [h]
  rfl

theorem KeysTaken.next {key : Byte} {s : Viewer} (h : KeysTaken key s) :
    KeysTaken key s.next := by
  unfold Viewer.next
  cases hpc : s.pc with
  | head =>
      refine h.of_unread rfl rfl (.inl (unread_of_before (by rw [hpc]; rfl) ?_ rfl))
      dsimp only
      split <;> rfl
  | compare =>
      refine h.of_unread rfl rfl (.inl (unread_of_before (by rw [hpc]; rfl) ?_ rfl))
      dsimp only
      split <;> rfl
  | snapshot => exact h.of_unread rfl rfl (.inl (unread_of_before (by rw [hpc]; rfl) rfl rfl))
  | heading => exact h.of_unread rfl rfl (.inl (unread_of_before (by rw [hpc]; rfl) rfl rfl))
  | test i =>
      refine h.of_unread rfl rfl (.inl (unread_of_before (by rw [hpc]; rfl) ?_ rfl))
      dsimp only
      split <;> rfl
  | row i =>
      dsimp only
      split
      · exact h.of_unread rfl rfl (.inl (unread_of_before (by rw [hpc]; rfl) rfl rfl))
      · exact h.of_unread rfl rfl (.inl (unread_of_before (by rw [hpc]; rfl) rfl rfl))
  | choose =>
      have hunread : s.unread = handledKeys s.lastKey [] := by
        unfold Viewer.unread
        rw [hpc]
        rfl
      unfold KeysTaken at h ⊢
      rw [unread_of_behind (nextPc_beforeSwitch s.lastKey), List.append_nil]
      rw [hunread, ← handledKeys_eq] at h
      exact h
  | enter => exact h.of_unread rfl rfl (.inr rfl)
  | details => exact h.of_unread rfl rfl (.inr rfl)
  | wait =>
      refine h.of_unread rfl rfl (.inr (unread_of_behind ?_))
      dsimp only
      split <;> rfl
  | clearReady => exact h.of_unread rfl rfl (.inr rfl)
  | clearKey => exact h.of_unread rfl rfl (.inr rfl)
  | quitReady => exact h.of_unread rfl rfl (.inr rfl)
  | quitKey => exact h.of_unread rfl rfl (.inr rfl)
  | returned => exact h

theorem ViewerStep.taken {process : PacketParser} {s t : Viewer} {event : ViewerEvent} {key : Byte}
    (h : KeysTaken key s) (hstep : ViewerStep process s event t) : KeysTaken key t := by
  cases hstep with
  | scancode code => exact h.scancode code
  | nic _ => exact h
  | next _ => exact h.next

theorem keysTaken_start (ring : NicState) (kb : Kb) (ready : Bool) (key : Byte) :
    KeysTaken key (viewerStart ring kb ready key) := by
  unfold KeysTaken Viewer.keys
  exact (List.append_nil (handledKeys key [])).symm ▸ List.Sublist.refl _

/-! ## The selected index -/

/-- What a key does to the cursor. -/
def keyMove (key : Byte) : CursorMove :=
  if key = keyUp then .up else if key = keyDown then .down else .stay

/-- What a step of the viewer or an interrupt is to a cursor in the list of packets. -/
def viewerMove (s : Viewer) (event : ViewerEvent) (t : Viewer) : CursorMove :=
  match event with
  | .scancode _ => .stay
  | .nic _ => .grow t.ring.nic.nHeaders
  | .next => if s.pc = .choose then keyMove s.lastKey else .stay

/-- The variables of the viewer are those of the cursor. -/
structure ShowsCursor (s : Viewer) (c : ListCursor) : Prop where
  size : s.ring.nic.nHeaders = c.size
  sel : s.selectedIndex = c.sel

/-- The moves of keys, in order. -/
def keyMoves (keys : List Byte) : List CursorMove := (keys.map keyMove).filter CursorMove.moves

theorem keyMoves_append (keys more : List Byte) :
    keyMoves (keys ++ more) = keyMoves keys ++ keyMoves more := by
  rw [keyMoves, List.map_append, List.filter_append]
  rfl

/-- The 0 that says that there is no key moves nothing. -/
theorem keyMoves_handledKeys (key : Byte) :
    keyMoves (handledKeys key []) = [keyMove key].filter CursorMove.moves := by
  unfold handledKeys
  split
  · next hzero =>
      rw [hzero]
      rfl
  · rfl

theorem nextSelected_eq {s : Viewer} {c : ListCursor} (h : ShowsCursor s c) (key : Byte) :
    s.ring.nic.nHeaders = (c.move (keyMove key)).size ∧
      nextSelected key s = (c.move (keyMove key)).sel := by
  obtain ⟨hsize, hsel⟩ := h
  unfold nextSelected keyMove
  rw [hsize, hsel]
  split
  · refine ⟨rfl, ?_⟩
    change (if 0 < c.sel then c.sel - 1 else c.sel) = c.sel - 1
    split <;> omega
  · split
    · exact ⟨rfl, rfl⟩
    · exact ⟨rfl, rfl⟩

theorem ShowsCursor.next {s : Viewer} {c : ListCursor} (h : ShowsCursor s c) :
    ShowsCursor s.next (c.move (if s.pc = .choose then keyMove s.lastKey else .stay)) := by
  unfold Viewer.next
  cases hpc : s.pc with
  | choose =>
      obtain ⟨hsize, hsel⟩ := nextSelected_eq h s.lastKey
      exact ⟨hsize, hsel⟩
  | row i =>
      dsimp only
      split
      · exact ⟨h.size, h.sel⟩
      · exact ⟨h.size, h.sel⟩
  | _ => exact ⟨h.size, h.sel⟩

/-- One step of the viewer or an interrupt is one move of the cursor. -/
theorem ViewerStep.showsCursor {process : PacketParser} {s t : Viewer} {event : ViewerEvent}
    {c : ListCursor} (hkept : ViewerKept s) (h : ShowsCursor s c)
    (hstep : ViewerStep process s event t) : ShowsCursor t (c.move (viewerMove s event t)) := by
  cases hstep with
  | scancode code =>
      unfold Viewer.scancode
      cases keyOf code s.kb with
      | none => exact ⟨h.size, h.sel⟩
      | some key => exact ⟨h.size, h.sel⟩
  | nic hstep =>
      have hcount := (hstep.grows hkept.ring).count
      exact ⟨(Nat.max_eq_right (h.size ▸ hcount)).symm, h.sel⟩
  | next _ => exact h.next

/-- The moves of the cursor are those of the keys taken. -/
theorem ViewerStep.keyMoves_handled {process : PacketParser} {s t : Viewer} {event : ViewerEvent}
    (hstep : ViewerStep process s event t) :
    keyMoves t.handled =
      keyMoves s.handled ++ [viewerMove s event t].filter CursorMove.moves := by
  cases hstep with
  | scancode code =>
      have hhandled : (s.scancode code).handled = s.handled := by
        unfold Viewer.scancode
        cases keyOf code s.kb with
        | none => rfl
        | some key => rfl
      rw [hhandled]
      exact (List.append_nil _).symm
  | nic hstep => exact (List.append_nil _).symm
  | next _ =>
      by_cases hpc : s.pc = .choose
      · have hnext : s.next.handled = handledKeys s.lastKey s.handled := by
          unfold Viewer.next
          rw [hpc]
        rw [hnext, handledKeys_eq, keyMoves_append, keyMoves_handledKeys, viewerMove, if_pos hpc]
      · have hnext : s.next.handled = s.handled := by
          unfold Viewer.next
          cases hcase : s.pc with
          | choose => exact absurd hcase hpc
          | row i =>
              dsimp only
              split <;> rfl
          | _ => rfl
        rw [hnext, viewerMove, if_neg hpc]
        exact (List.append_nil _).symm

theorem showsCursor_run {process : PacketParser} {s : Viewer} {c : ListCursor}
    {path : List (ViewerEvent × Viewer)} (hkept : ViewerKept s) (h : ShowsCursor s c)
    (hpath : IsPath (ViewerStep process) s path) :
    ShowsCursor (endState s path) ((observed viewerMove s path).foldl ListCursor.move c) ∧
      keyMoves (endState s path).handled =
        keyMoves s.handled ++ (observed viewerMove s path).filter CursorMove.moves := by
  induction path generalizing s c with
  | nil => exact ⟨h, (List.append_nil _).symm⟩
  | cons head rest ih =>
      obtain ⟨event, t⟩ := head
      obtain ⟨hstep, hrest⟩ := hpath
      obtain ⟨hcursor, hmoves⟩ := ih (hstep.kept hkept) (hstep.showsCursor hkept h) hrest
      refine ⟨hcursor, ?_⟩
      rw [endState, hmoves, hstep.keyMoves_handled, List.append_assoc, ← List.filter_append]
      rfl

/-! ## Every run -/

section Runs

variable {process : PacketParser} {before : HeapState} {nic : NicState}
  {received : List (NicEvent × NicState)} {kb : Kb} {ready : Bool} {key : Byte}
  {path : List (ViewerEvent × Viewer)}

/-- Whatever keys and packets come: the viewer takes a part of the keys, each once and in
their order, and the selected index is where their moves bring a cursor in the list of
packets, which grows; it is the index of a packet as soon as there is one. -/
theorem viewerRuns_keys (hinit : nicInit before = some nic)
    (hreceived : IsPath (NicStep process) nic received)
    (hpath : IsPath (ViewerStep process) (viewerStart (endState nic received) kb ready key) path) :
    let start := viewerStart (endState nic received) kb ready key
    let s := endState start path
    let moves := observed viewerMove start path
    let c := moves.foldl ListCursor.move ⟨start.ring.nic.nHeaders, 0, .inl rfl⟩
    s.handled.Sublist (s.keys key) ∧ keyMoves s.handled = moves.filter CursorMove.moves ∧
      s.selectedIndex = c.sel ∧ s.ring.nic.nHeaders = c.size := by
  have hring := hreceived.invariant (fun _ _ _ hinv hstep => hstep.ringKept hinv)
    (nicInit_ring hinit).1
  have hstart : ViewerKept (viewerStart (endState nic received) kb ready key) :=
    viewerKept_start (hring _ (endState_mem_visited _ _))
  have htaken : KeysTaken key
      (endState (viewerStart (endState nic received) kb ready key) path) :=
    hpath.invariant (fun _ _ _ hinv hstep => hstep.taken hinv) (keysTaken_start _ kb ready key) _
      (endState_mem_visited _ _)
  obtain ⟨hcursor, hmoves⟩ := showsCursor_run
    (c := ⟨(endState nic received).nic.nHeaders, 0, .inl rfl⟩) hstart ⟨rfl, rfl⟩ hpath
  exact ⟨htaken.handled, hmoves, hcursor.sel, hcursor.size⟩

end Runs

/-- The down key, pressed with two packets, moves the selected index to the second. -/
theorem viewerRuns_keys_down : ∃ nic received path,
    nicInit (heapStart fun _ => 0) = some nic ∧ IsPath (NicStep frontParser) nic received ∧
      IsPath (ViewerStep frontParser) (promptedViewer (endState nic received)) path ∧
      (endState (promptedViewer (endState nic received)) path).handled.Sublist
        ((endState (promptedViewer (endState nic received)) path).keys keyEnter) ∧
      (endState (promptedViewer (endState nic received)) path).selectedIndex = 1 := by
  have hdown : twoPackets.any (fun u => ((promptedViewer u).scancode 0x50).goesOn 9 &&
      (Viewer.next^[9] ((promptedViewer u).scancode 0x50)).selectedIndex = 1) = true := by
    decide +kernel
  obtain ⟨nic, received, hinit, hreceived, hmoved⟩ := exists_twoPackets hdown
  rw [Bool.and_eq_true, decide_eq_true_eq, ← endState_viewerNexts] at hmoved
  obtain ⟨hgoes, hsel⟩ := hmoved
  have hpath : IsPath (ViewerStep frontParser) (promptedViewer (endState nic received))
      ((.scancode 0x50, (promptedViewer (endState nic received)).scancode 0x50) ::
        viewerNexts 9 ((promptedViewer (endState nic received)).scancode 0x50)) :=
    ⟨.scancode 0x50, isPath_of_goesOn frontParser hgoes⟩
  exact ⟨nic, received, _, hinit, hreceived, hpath,
    (viewerRuns_keys hinit hreceived hpath).1, hsel⟩

end DonutOS.Kernel
