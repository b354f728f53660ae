import DonutOS.Kernel.KbSpec
import DonutOS.Kernel.TtyBounds
import Mathlib.Data.List.Forall2

set_option autoImplicit false

/-!
# Kernel: from the keyboard to the line (`kernel/src/kb.c`, `kernel/src/tty.c`)

A text is typed as scancodes on a US keyboard.  The codes of four keys of the editor
are those of the letters `H`, `K`, `M` and `P`, which therefore never reach the line.
-/

namespace DonutOS.Kernel

open DonutOS.Foundation DonutOS.Libc

/-- The interrupt of a scancode, and what the main loop does until the next one. -/
def scan (s : Session) (scancode : Byte) : Session :=
  let kb := (kbHandler scancode s.tty.kb).1
  let s' := { s with tty := { s.tty with kb := kb } }
  match (kbHandler scancode s.tty.kb).2 with
  | .keyHandler key => handled key s'
  | _ => s'

def scanAll (codes : List Byte) (s : Session) : Session := codes.foldl scan s

/-- `codes` are make and break codes that type the text, from the given modifiers on,
with left shift held where a character needs it. -/
inductive Typed : Mods → List Byte → List Byte → Prop
  | nil (mods : Mods) : Typed mods [] []
  | shift {mods : Mods} {cs codes : List Byte} (down : Bool)
      (h : Typed { mods with shift := down } cs codes) :
      Typed mods cs ((bif down then 0x2a else 0xaa) :: codes)
  | char {mods : Mods} {c : Byte} {cs codes : List Byte} {shifted : Bool} {scancode : Byte}
      (hkey : usKey shifted scancode = some c)
      (hshift : mods.shift = needsShift mods.capsLock shifted c) (h : Typed mods cs codes) :
      Typed mods (c :: cs) (scancode :: (scancode ||| 0x80) :: codes)

/-- The make and the break code of Enter. -/
def enterCodes : List Byte := [0x1c, 0x9c]

/-- `tty_read` has returned, and the array of the caller holds the text and a NUL. -/
def Delivered (dest : Dest) (cs : List Byte) (s : Session) : Prop :=
  s.reader = none ∧ TextAt s.tty.mem.bytes dest.addr (cs ++ [0])

/-- The key codes that are those of `H`, `K`, `M` and `P`. -/
def arrowKeys : List Byte := [keyUp, keyLeft, keyRight, keyDown]

/-- Caps lock leaves the character alone when it is a letter, whose shift it replaces,
or has one code only. -/
def capsSafe (capsLock : Bool) (c : Byte) : Bool := !capsLock || isLetter c || c == 0x20

/-- Every printable text can be typed, whatever the modifiers are. -/
theorem exists_typed {cs : List Byte} (h : ∀ c ∈ cs, 0x20 ≤ c.toNat ∧ c.toNat ≤ 0x7e)
    (mods : Mods) : ∃ codes, Typed mods cs codes := by
  induction cs generalizing mods with
  | nil => exact ⟨[], .nil mods⟩
  | cons c cs ih =>
      obtain ⟨hlo, hhi⟩ := h c List.mem_cons_self
      obtain ⟨shifted, scancode, hkey⟩ := exists_usKey c hlo hhi
      obtain ⟨codes, hcodes⟩ := ih (fun d hd => h d (List.mem_cons_of_mem _ hd))
        { mods with shift := needsShift mods.capsLock shifted c }
      exact ⟨_, .shift (needsShift mods.capsLock shifted c) (.char hkey rfl hcodes)⟩

/-- What the key of a character sends. -/
structure Sends (capsLock : Bool) (c key : Byte) : Prop where
  same : key = c ↔ capsSafe capsLock c = true
  inserted : c ∉ arrowKeys → key ∉ controlKeys

/-- The tables of the handler and of the layout. -/
theorem usKey_sends {shifted : Bool} {scancode c : Byte} (h : usKey shifted scancode = some c)
    (capsLock : Bool) :
    0 < scancode.toNat ∧ scancode.toNat < 0x80 ∧ scancode ∉ modifierKeys ∧ c ≠ 0 ∧
      Sends capsLock c
        (kbLayoutUs (Bool.xor capsLock (needsShift capsLock shifted c)) scancode) := by
  have hall : ∀ (capsLock shifted : Bool) (scancode : Byte), (usKey shifted scancode).all (fun c =>
      let key := kbLayoutUs (Bool.xor capsLock (needsShift capsLock shifted c)) scancode
      decide (0 < scancode.toNat) && decide (scancode.toNat < 0x80) &&
        decide (scancode ∉ modifierKeys) && decide (c ≠ 0) &&
        ((key == c) == capsSafe capsLock c) &&
        (decide (c ∈ arrowKeys) || decide (key ∉ controlKeys))) = true := by decide +kernel
  have hone := hall capsLock shifted scancode
  rw [h] at hone
  simp only [Option.all_some, Bool.and_eq_true, Bool.or_eq_true, decide_eq_true_eq, beq_iff_eq]
    at hone
  obtain ⟨⟨⟨⟨⟨hpos, hlt⟩, hmodifier⟩, hne⟩, hsame⟩, hinserted⟩ := hone
  refine ⟨hpos, hlt, hmodifier, hne, ?_, fun harrow => hinserted.resolve_left harrow⟩
  rw [← hsame, beq_iff_eq]

/-! ## Text without the four letters -/

def Tty.setKb (kb : Kb) (s : Tty) : Tty := { s with kb := kb }

theorem Reading.setKb {s : Tty} (h : Reading s) (kb : Kb) : Reading (s.setKb kb) :=
  ⟨h.historyPtr, h.fst, h.lst, h.row, h.ptr, h.len⟩

theorem Editing.setKb {s : Tty} {l : Line Byte} (h : Editing s l) (kb : Kb) :
    Editing (s.setKb kb) l := ⟨h.len, h.ptr, h.text⟩

/-- The line of a session, with the cursor at its end, and a keyboard that waits. -/
structure Typing (s : Tty) (text : List Byte) : Prop where
  reading : Reading s
  waits : s.kb.keyHandler = true
  line : ∃ l, Editing s l ∧ l.text = text ∧ l.cursor = text.length

theorem Typing.setKb {s : Tty} {text : List Byte} (h : Typing s text) {kb : Kb}
    (hwaits : kb.keyHandler = true) : Typing (s.setKb kb) text := by
  obtain ⟨l, hl, htext, hend⟩ := h.line
  exact ⟨h.reading.setKb kb, hwaits, l, hl.setKb kb, htext, hend⟩

theorem Typing.press {s : Tty} {text : List Byte} (h : Typing s text) {key : Byte}
    (hkey : key ∉ controlKeys) (hlen : text.length + 1 < ttyInputSize) :
    (pressKey key s).reads = true ∧ (pressKey key s).kb = s.kb ∧
      Typing (pressKey key s) (text ++ [key]) := by
  obtain ⟨l, hl, rfl, hend⟩ := h.line
  have henter : key ≠ keyEnter := fun heq => hkey (heq ▸ by decide)
  have hup : key ≠ keyUp := fun heq => hkey (heq ▸ by decide)
  have hdown : key ≠ keyDown := fun heq => hkey (heq ▸ by decide)
  obtain ⟨hediting, hedited⟩ := pressKey_spec henter hup hdown hl
  rw [keyEdit_of_inserted hkey] at hediting
  obtain ⟨htext, hend'⟩ := Line.insert_at_end key hend
  have hreads : (pressKey key s).reads = true := by
    apply reads_of_edited hedited
    rw [hediting.len, Line.length_apply_insert]
    exact hlen
  have hkb : (pressKey key s).kb = s.kb := congrArg Fixed.kb hedited.fixed
  exact ⟨hreads, hkb, h.reading.press key hreads, hkb ▸ h.waits, _, hediting, htext,
    hend'.trans (congrArg List.length htext)⟩

theorem scan_of_none {s : Tty} {scancode : Byte} {kb : Kb}
    (h : kbHandler scancode s.kb = (kb, .none)) (reader : Option Dest)
    (submitted : List (List Byte)) :
    scan ⟨s, reader, submitted⟩ scancode = ⟨s.setKb kb, reader, submitted⟩ := by
  unfold scan
  rw [h]
  rfl

theorem scan_of_debug {s : Tty} {scancode key : Byte} {kb : Kb}
    (h : kbHandler scancode s.kb = (kb, .procKbDebug key)) (reader : Option Dest)
    (submitted : List (List Byte)) :
    scan ⟨s, reader, submitted⟩ scancode = ⟨s.setKb kb, reader, submitted⟩ := by
  unfold scan
  rw [h]
  rfl

theorem scan_of_key {s : Tty} {scancode key : Byte} {kb : Kb}
    (h : kbHandler scancode s.kb = (kb, .keyHandler key)) (reader : Option Dest)
    (submitted : List (List Byte)) :
    scan ⟨s, reader, submitted⟩ scancode = handled key ⟨s.setKb kb, reader, submitted⟩ := by
  unfold scan
  rw [h]
  rfl

/-- The make and the break code of a character. -/
theorem Typing.char {s : Tty} {text : List Byte} (hs : Typing s text) {shifted : Bool}
    {scancode c : Byte} (hkey : usKey shifted scancode = some c)
    (hshift : s.kb.mods.shift = needsShift s.kb.mods.capsLock shifted c) (harrow : c ∉ arrowKeys)
    (hlen : text.length + 1 < ttyInputSize) (dest : Dest) (submitted : List (List Byte)) :
    ∃ key t, Sends s.kb.mods.capsLock c key ∧
      scan (scan ⟨s, some dest, submitted⟩ scancode) (scancode ||| 0x80) =
        ⟨t, some dest, submitted⟩ ∧ t.kb.mods = s.kb.mods ∧ Typing t (text ++ [key]) := by
  obtain ⟨hpos, hlt, hmodifier, -, hsends⟩ := usKey_sends hkey s.kb.mods.capsLock
  rw [← hshift] at hsends
  have hmake := kbHandler_make hlt hmodifier hs.waits
  have hs' : Typing (s.setKb { s.kb with lastKey := scancode }) text := hs.setKb hs.waits
  obtain ⟨hreads, hkb, ht⟩ := hs'.press (hsends.inserted harrow) hlen
  have hpress := handled_of_reads hreads dest submitted
  generalize pressKey (kbLayoutUs (Bool.xor s.kb.mods.capsLock s.kb.mods.shift) scancode)
    (s.setKb { s.kb with lastKey := scancode }) = t at hkb ht hpress
  have hbreak := kbHandler_break hpos hlt hmodifier t.kb
  have ht' : Typing (t.setKb { t.kb with lastKey := scancode }) (text ++ _) := ht.setKb ht.waits
  have hmods : t.kb.mods = s.kb.mods := by
    rw [hkb]
    rfl
  refine ⟨_, t.setKb { t.kb with lastKey := scancode }, hsends, ?_, hmods, ht'⟩
  rw [scan_of_key hmake]
  change scan (handled (kbLayoutUs (Bool.xor s.kb.mods.capsLock s.kb.mods.shift) scancode) _) _ = _
  rw [hpress, scan_of_none hbreak]

/-- Every character sends its key to the line. -/
theorem Typed.scanAll {mods : Mods} {cs codes : List Byte} (h : Typed mods cs codes)
    (harrow : ∀ c ∈ cs, c ∉ arrowKeys) {s : Tty} {text : List Byte} (hmods : s.kb.mods = mods)
    (hs : Typing s text) (hlen : text.length + cs.length < ttyInputSize) (dest : Dest)
    (submitted : List (List Byte)) :
    ∃ keys t, List.Forall₂ (Sends mods.capsLock) cs keys ∧
      scanAll codes ⟨s, some dest, submitted⟩ = ⟨t, some dest, submitted⟩ ∧
      Typing t (text ++ keys) := by
  induction h generalizing s text with
  | nil mods => exact ⟨[], s, .nil, rfl, (List.append_nil text).symm ▸ hs⟩
  | @shift mods cs codes down _ ih =>
      have hscan := scan_of_none (kbHandler_shift down s.kb) (some dest) submitted
      have hs' : Typing (s.setKb { s.kb with
          lastKey := keyLshift, mods := { s.kb.mods with shift := down } }) text :=
        hs.setKb hs.waits
      have hmods' : { s.kb.mods with shift := down } = { mods with shift := down } := by
        rw [hmods]
      obtain ⟨keys, t, hkeys, hall, ht⟩ := ih harrow hmods' hs' hlen
      refine ⟨keys, t, hkeys, ?_, ht⟩
      change Kernel.scanAll codes (scan _ _) = _
      rw [hscan]
      exact hall
  | @char mods c cs codes shifted scancode hkey hshift _ ih =>
      rw [List.length_cons] at hlen
      subst hmods
      obtain ⟨key, t, hsends, hscan, hmods, ht⟩ :=
        hs.char hkey hshift (harrow c List.mem_cons_self) (by omega) dest submitted
      have hlen' : (text ++ [key]).length + cs.length < ttyInputSize := by
        rw [List.length_append, List.length_singleton]
        omega
      obtain ⟨keys, u, hkeys, hall, hu⟩ :=
        ih (fun d hd => harrow d (List.mem_cons_of_mem _ hd)) hmods ht hlen'
      refine ⟨key :: keys, u, .cons hsends hkeys, ?_, ?_⟩
      · change Kernel.scanAll codes (scan (scan _ _) _) = _
        rw [hscan]
        exact hall
      · rwa [List.append_assoc, List.singleton_append] at hu

/-! ## Enter -/

/-- Enter ends the session, and the line is delivered. -/
theorem Typing.enter {s : Tty} {text : List Byte} (h : Typing s text) (dest : Dest)
    (submitted : List (List Byte)) :
    Delivered dest text (scanAll enterCodes ⟨s, some dest, submitted⟩) := by
  have htable : ∀ shifted, kbLayoutUs shifted 0x1c = keyEnter := by decide
  have hmake := kbHandler_make (by decide : (0x1c : Byte).toNat < 0x80) (by decide) h.waits
  rw [htable] at hmake
  have h' : Typing (s.setKb { s.kb with lastKey := 0x1c }) text := h.setKb h.waits
  obtain ⟨l, hl, rfl, -⟩ := h'.line
  obtain ⟨hrow, hlen⟩ : (∃ r < ttyHistorySize, _) ∧ _ := ⟨h'.reading.row, h'.reading.len⟩
  have hends : (pressKey keyEnter (s.setKb { s.kb with lastKey := 0x1c })).reads = false := by
    rw [pressKey_enter]
    exact Bool.and_false _
  have hpress := handled_of_ends hends dest submitted
  have htext : TextAt (ttyReadEnd dest.addr (pressKey keyEnter
      (s.setKb { s.kb with lastKey := 0x1c }))).mem.bytes dest.addr (l.text ++ [0]) := by
    rw [pressKey_enter]
    exact ttyReadEnd_textAt ⟨hl.len, hl.ptr, hl.text⟩ hrow hlen dest
  generalize ttyReadEnd dest.addr (pressKey keyEnter
    (s.setKb { s.kb with lastKey := 0x1c })) = t at hpress htext
  have hbreak : ∀ kb, kbHandler 0x9c kb = ({ kb with lastKey := 0x1c }, .none) :=
    kbHandler_break (by decide : 0 < (0x1c : Byte).toNat) (by decide) (by decide)
  change Delivered dest l.text (scan (scan _ 0x1c) 0x9c)
  rw [scan_of_key hmake, hpress, scan_of_none (hbreak t.kb)]
  exact ⟨rfl, htext⟩

/-- The handler waits for the keys of a session. -/
theorem ttyReadStart_waits (s : Tty) : (ttyReadStart s).kb.keyHandler = true := by
  have hset : ∀ kb : Kb, (kbSetKeyHandler true kb).keyHandler = true := by
    intro kb
    unfold kbSetKeyHandler
    split
    · rfl
    · next hset => exact eq_true_of_ne_false fun hnull => hset (Or.inl hnull)
  exact hset _

theorem typing_ttyReadStart {s : Tty} (hs : Between s) : Typing (ttyReadStart s) [] :=
  ⟨hs.read, ttyReadStart_waits s, .empty, ttyReadStart_editing s, rfl, rfl⟩

theorem ttyReadStart_mods (s : Tty) : (ttyReadStart s).kb.mods = s.kb.mods := by
  have hset : ∀ kb : Kb, (kbSetKeyHandler true kb).mods = kb.mods := by
    intro kb
    unfold kbSetKeyHandler
    split <;> rfl
  obtain ⟨mem, ptr, fst, lst, hnew⟩ := historyNewBuf_eq s
  rw [ttyReadStart, hnew]
  exact hset s.kb

theorem sends_same_iff {capsLock : Bool} {cs keys : List Byte}
    (h : List.Forall₂ (Sends capsLock) cs keys) :
    cs = keys ↔ ∀ c ∈ cs, capsSafe capsLock c = true := by
  induction h with
  | nil => exact iff_of_true rfl fun c hc => absurd hc List.not_mem_nil
  | cons hsends _ ih =>
      rw [List.cons.injEq, List.forall_mem_cons, ih, ← hsends.same]
      exact and_congr_left fun _ => eq_comm

/-- A text without the four letters is delivered exactly when caps lock leaves it alone. -/
theorem delivered_iff_capsSafe {s : Tty} (hs : Between s) {cs codes : List Byte}
    (htyped : Typed s.kb.mods cs codes) (hlen : cs.length < ttyInputSize)
    (harrow : ∀ c ∈ cs, c ∉ arrowKeys) (dest : Dest) (submitted : List (List Byte)) :
    Delivered dest cs
        (scanAll (codes ++ enterCodes) ⟨ttyReadStart s, some dest, submitted⟩) ↔
      ∀ c ∈ cs, capsSafe s.kb.mods.capsLock c = true := by
  obtain ⟨keys, t, hkeys, hall, ht⟩ := htyped.scanAll harrow (ttyReadStart_mods s)
    (typing_ttyReadStart hs) (by rwa [List.length_nil, Nat.zero_add]) dest submitted
  have hdelivered : Delivered dest keys
      (scanAll (codes ++ enterCodes) ⟨ttyReadStart s, some dest, submitted⟩) := by
    rw [scanAll, List.foldl_append]
    change Delivered dest keys (scanAll enterCodes (scanAll codes _))
    rw [hall]
    exact ht.enter dest submitted
  rw [← sends_same_iff hkeys]
  constructor
  · intro h
    have hsize : (cs ++ [0]).length = (keys ++ [0]).length := by
      rw [List.length_append, List.length_append, hkeys.length_eq]
    exact List.append_cancel_right (h.2.unique hdelivered.2 hsize)
  · rintro rfl
    exact hdelivered

/-! ## Text with one of the four letters -/

/-- The string at `a`, cut off at `TTY_INPUT_SIZE`, has no byte that is a key with a
`case` of its own. -/
def PlainAt (m : Memory) (a : Nat) : Prop :=
  ∀ j < ttyInputSize, (∀ i < j, m (a + i) ≠ 0) → m (a + j) ∉ controlKeys

/-- What holds in a session that started with tidy rows, and after it, whatever the
keyboard sends. -/
def Scanned (dest : Dest) (s : Session) : Prop :=
  match s.reader with
  | none => s.tty.kb.keyHandler = false ∧ PlainAt s.tty.mem.bytes dest.addr
  | some d => d = dest ∧ s.tty.kb.keyHandler = true ∧ Reading s.tty ∧
      ∃ r < ttyHistorySize, s.tty.inputBuf = ttyHistory r ∧ Tidy (some r) s.tty.mem

/-- What is copied is the line up to its NUL, or the bytes of its row. -/
theorem ttyReadEnd_plainAt {s : Tty} {r : Nat} (hr : r < ttyHistorySize)
    (hbuf : s.inputBuf = ttyHistory r) (h : Tidy (some r) s.mem) (dest : Dest) :
    PlainAt (ttyReadEnd dest.addr s).mem.bytes dest.addr := by
  have hin := ttyHistory_le hr
  have hapart := dest.apart
  have hcopy := memcpy_front (Nat.min_le_right ttyInputSize (s.inputLen + 1))
    (by omega : s.inputBuf + min ttyInputSize (s.inputLen + 1) ≤ dest.addr)
    (s.mem.put (s.inputBuf + s.inputLen) 0)
  rw [← mem_ttyReadEnd] at hcopy
  intro j hj hbefore
  by_cases hlen : j ≤ s.inputLen
  · rw [hcopy j (by omega), Store.bytes_put]
    split
    · decide
    · rw [hbuf]
      exact h.plain r hr j hj
  · refine absurd ?_ (hbefore s.inputLen (by omega))
    rw [hcopy s.inputLen (by omega), Store.bytes_put_same]

theorem pressKey_kb (key : Byte) {s : Tty} (hs : Reading s) : (pressKey key s).kb = s.kb := by
  obtain ⟨l, hl⟩ := exists_editing hs.ptr
  have hpressed := pressed key hl
  generalize pressKey key s = t at hpressed
  cases hpressed with
  | enter _ => rfl
  | stay _ _ => rfl
  | recalled _ _ => rfl
  | edit _ _ _ _ hedited => exact congrArg Fixed.kb hedited.fixed

theorem Scanned.handled {dest : Dest} {s : Tty} {submitted : List (List Byte)}
    (h : Scanned dest ⟨s, some dest, submitted⟩) (key : Byte) :
    Scanned dest (handled key ⟨s, some dest, submitted⟩) := by
  obtain ⟨-, hwaits, hreading, r, hr, hbuf, htidy⟩ := h
  obtain ⟨r', hr', hbuf', htidy'⟩ := (pressKey_tidy key hreading hr hbuf htidy).row
  have hkb := pressKey_kb key hreading
  cases hreads : (pressKey key s).reads with
  | true =>
      rw [handled_of_reads hreads]
      exact ⟨rfl, hkb ▸ hwaits, hreading.press key hreads, r', hr', hbuf', htidy'⟩
  | false =>
      rw [handled_of_ends hreads]
      refine ⟨?_, ttyReadEnd_plainAt hr' hbuf' htidy' dest⟩
      have hset : ∀ kb : Kb, (kbSetKeyHandler false kb).keyHandler = false :=
        fun kb => congrArg Kb.keyHandler (if_pos (Or.inr rfl))
      exact hset _

theorem Scanned.setKb {dest : Dest} {s : Tty} {reader : Option Dest}
    {submitted : List (List Byte)} (h : Scanned dest ⟨s, reader, submitted⟩) {kb : Kb}
    (hsame : kb.keyHandler = s.kb.keyHandler) : Scanned dest ⟨s.setKb kb, reader, submitted⟩ := by
  cases reader with
  | none => exact ⟨hsame.trans h.1, h.2⟩
  | some d =>
      obtain ⟨hd, hwaits, hreading, hrow⟩ := h
      exact ⟨hd, hsame.trans hwaits, hreading.setKb kb, hrow⟩

theorem Scanned.scan {dest : Dest} {s : Session} (h : Scanned dest s) (scancode : Byte) :
    Scanned dest (scan s scancode) := by
  obtain ⟨s, reader, submitted⟩ := s
  obtain ⟨hsame, hcall⟩ := kbHandler_keyHandler scancode s.kb
  obtain ⟨⟨kb, call⟩, hkb⟩ : ∃ r, kbHandler scancode s.kb = r := ⟨_, rfl⟩
  rw [hkb] at hsame hcall
  cases call with
  | none =>
      rw [scan_of_none hkb]
      exact h.setKb hsame
  | procKbDebug key =>
      rw [scan_of_debug hkb]
      exact h.setKb hsame
  | keyHandler key =>
      rw [scan_of_key hkb]
      have hwaits := hcall key rfl
      cases reader with
      | none => exact absurd (h.1.symm.trans hwaits) Bool.false_ne_true
      | some d =>
          obtain rfl : d = dest := h.1
          exact (h.setKb hsame).handled key

theorem Scanned.scanAll {dest : Dest} {s : Session} (h : Scanned dest s) (codes : List Byte) :
    Scanned dest (scanAll codes s) := by
  induction codes generalizing s with
  | nil => exact h
  | cons scancode codes ih => exact ih (h.scan scancode)

theorem scanned_ttyReadStart {s : Tty} (hs : Between s) (htidy : Tidy none s.mem) (dest : Dest)
    (submitted : List (List Byte)) : Scanned dest ⟨ttyReadStart s, some dest, submitted⟩ := by
  obtain ⟨-, -, hlst⟩ := historyNewBuf_between hs
  exact ⟨rfl, ttyReadStart_waits s, hs.read, _, hlst, rfl, htidy.read hs⟩

theorem Typed.ne_zero {mods : Mods} {cs codes : List Byte} (h : Typed mods cs codes) :
    ∀ c ∈ cs, c ≠ 0 := by
  induction h with
  | nil => exact fun c hc => absurd hc List.not_mem_nil
  | shift _ _ ih => exact ih
  | char hkey _ _ ih =>
      obtain ⟨-, -, -, hne, -⟩ := usKey_sends hkey false
      exact List.forall_mem_cons.mpr ⟨hne, ih⟩

/-- None of the four letters is ever delivered. -/
theorem not_mem_arrowKeys_of_delivered {dest : Dest} {s : Session} {cs : List Byte}
    (h : Scanned dest s) (hdelivered : Delivered dest cs s) (hlen : cs.length < ttyInputSize)
    (hne : ∀ c ∈ cs, c ≠ 0) : ∀ c ∈ cs, c ∉ arrowKeys := by
  have hsub : ∀ c ∈ arrowKeys, c ∈ controlKeys := by decide
  intro c hc harrow
  obtain ⟨s, reader, submitted⟩ := s
  obtain ⟨rfl, htext⟩ := hdelivered
  obtain ⟨j, hj, rfl⟩ := List.mem_iff_getElem.mp hc
  have hget : ∀ i (hi : i < cs.length), s.mem.bytes (dest.addr + i) = cs[i] := by
    intro i hi
    rw [htext i (by rw [List.length_append]; omega), List.getElem_append_left hi]
  refine h.2 j (Nat.lt_trans hj hlen) (fun i hi => ?_) ?_
  · rw [hget i (Nat.lt_trans hi hj)]
    exact hne _ (List.getElem_mem _)
  · rw [hget j hj]
    exact hsub _ harrow

/-! ## The text and what is delivered -/

/-- The characters that arrive: not the four letters, and with caps lock on only letters
and spaces. -/
def Deliverable (capsLock : Bool) (cs : List Byte) : Prop :=
  ∀ c ∈ cs, c ∉ arrowKeys ∧ capsSafe capsLock c = true

/-- A printable text of less than `TTY_INPUT_SIZE` characters, typed in any state that a
run reaches between two sessions, is delivered if its characters arrive; and only then,
when no line has been filled so far. -/
theorem typed_delivered_iff {boot : Tty} {path : List (TtyEvent × Session)}
    (hrun : IsPath SessionStep (sessionStart boot) path) {s : Tty} {submitted : List (List Byte)}
    (hmem : ⟨s, none, submitted⟩ ∈ visited (sessionStart boot) path) {cs codes : List Byte}
    (htyped : Typed s.kb.mods cs codes) (hlen : cs.length < ttyInputSize) (dest : Dest) :
    (Deliverable s.kb.mods.capsLock cs → Delivered dest cs
        (scanAll (codes ++ enterCodes) ⟨ttyReadStart s, some dest, submitted⟩)) ∧
      (HistoryZero boot → StepsMeet LineShort (sessionStart boot) path →
        Delivered dest cs
          (scanAll (codes ++ enterCodes) ⟨ttyReadStart s, some dest, submitted⟩) →
        Deliverable s.kb.mods.capsLock cs) := by
  have hs : Between s := sessionRuns_sound boot hrun _ hmem
  constructor
  · intro hok
    exact (delivered_iff_capsSafe hs htyped hlen (fun c hc => (hok c hc).1) dest submitted).mpr
      fun c hc => (hok c hc).2
  · intro hboot hshort hdelivered
    have htidy : Tidy none s.mem := (hrun.invariant_of_stepsMeet
      (fun _ _ _ hinv hok hstep => (hstep.inside_iff hinv).2 hok) (tidySession_start hboot)
      hshort _ hmem).2
    have hstart := scanned_ttyReadStart hs htidy dest submitted
    have harrow := not_mem_arrowKeys_of_delivered (hstart.scanAll (codes ++ enterCodes))
      hdelivered hlen htyped.ne_zero
    have hcaps := (delivered_iff_capsSafe hs htyped hlen harrow dest submitted).mp hdelivered
    exact fun c hc => ⟨harrow c hc, hcaps c hc⟩

/-- `aB` is delivered in the first session. -/
theorem typed_delivered_iff_first :
    Delivered promptDest [0x61, 0x42]
      (scanAll ([0x1e, 0x9e, 0x2a, 0x30, 0xb0] ++ enterCodes)
        ⟨ttyReadStart (ttyInit bootTty), some promptDest, []⟩) := by
  have hrun : IsPath SessionStep (sessionStart bootTty) [] := trivial
  have hb : usKey true 0x30 = some 0x42 := by decide
  have ha : usKey false 0x1e = some 0x61 := by decide
  have htyped : Typed (ttyInit bootTty).kb.mods [0x61, 0x42] [0x1e, 0x9e, 0x2a, 0x30, 0xb0] :=
    .char ha rfl (.shift true (.char hb rfl (.nil _)))
  have hok : Deliverable false [0x61, 0x42] := by
    unfold Deliverable
    decide
  exact (typed_delivered_iff hrun (start_mem_visited _ _) htyped (by decide) promptDest).1 hok

/-- `H` is not. -/
theorem typed_capital_h :
    Typed (ttyInit bootTty).kb.mods [0x48] [0x2a, 0x23, 0xa3] ∧
      ¬ Delivered promptDest [0x48]
        (scanAll ([0x2a, 0x23, 0xa3] ++ enterCodes)
          ⟨ttyReadStart (ttyInit bootTty), some promptDest, []⟩) := by
  have hh : usKey true 0x23 = some 0x48 := by decide
  have hzero : HistoryZero bootTty := fun _ _ => rfl
  refine ⟨.shift true (.char hh rfl (.nil _)), fun hdelivered => ?_⟩
  have hstart := scanned_ttyReadStart (between_ttyInit bootTty) (tidySession_start hzero).2
    promptDest []
  have harrow := not_mem_arrowKeys_of_delivered (hstart.scanAll ([0x2a, 0x23, 0xa3] ++ enterCodes))
    hdelivered (by decide) (by decide) 0x48 List.mem_cons_self
  exact harrow (by decide)

end DonutOS.Kernel
