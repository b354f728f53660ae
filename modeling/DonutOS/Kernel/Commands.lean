import DonutOS.Foundation.Wire
import DonutOS.Kernel.TtyTyping

set_option autoImplicit false

/-!
# Kernel: the commands of the shell (`kernel/src/tty.c`)

`tty_prompt` reads a line and looks it up in a table of names.  The table is a constant
object of its own, which a session of `tty_read` leaves as it is, and so the text that was
typed on the keyboard selects the command.
-/

namespace DonutOS.Kernel

open DonutOS.Foundation DonutOS.Libc

/-! ## The table -/

/-- The functions that the table points to. -/
inductive CommandHandler
  | helpCommand
  | aboutCommand
  | clearCommand
  | donutCommand
  | dieCommand
  | colorCommand
  | randCommand
  | pciCommand
  | ramCommand
  | devCommand
  | pctprintCommand
  | netStatusCommand
  | pagingTestCommand
  | processTestCommand
  | processLastErrorCommand
  deriving DecidableEq

/-- `struct Command`, without the description. -/
structure Command where
  name : List Byte
  handler : CommandHandler
  deriving DecidableEq

/-- `commands`. -/
def commands : List Command :=
  [⟨chars ['h', 'e', 'l', 'p'], .helpCommand⟩,
   ⟨chars ['a', 'b', 'o', 'u', 't'], .aboutCommand⟩,
   ⟨chars ['c', 'l', 'e', 'a', 'r'], .clearCommand⟩,
   ⟨chars ['d', 'o', 'n', 'u', 't'], .donutCommand⟩,
   ⟨chars ['d', 'i', 'e'], .dieCommand⟩,
   ⟨chars ['c', 'o', 'l', 'o', 'r'], .colorCommand⟩,
   ⟨chars ['r', 'a', 'n', 'd'], .randCommand⟩,
   ⟨chars ['p', 'c', 'i'], .pciCommand⟩,
   ⟨chars ['r', 'a', 'm'], .ramCommand⟩,
   ⟨chars ['d', 'e', 'v'], .devCommand⟩,
   ⟨chars ['p', 'r', 'i', 'n', 't'], .pctprintCommand⟩,
   ⟨chars ['n', 'e', 't'], .netStatusCommand⟩,
   ⟨chars ['p', 'a', 'g', 'i', 'n', 'g'], .pagingTestCommand⟩,
   ⟨chars ['p', 'r', 'o', 'c', 'e', 's', 's'], .processTestCommand⟩,
   ⟨chars ['$', '?'], .processLastErrorCommand⟩]

/-- The size of the array `name`. -/
def nameSize : Nat := 8

/-- `sizeof(struct Command)`: the name, a pointer, 50 bytes and 2 of padding. -/
def sizeofCommand : Nat := 64

/-- The array `name`. -/
def Command.nameBytes (command : Command) : List Byte :=
  command.name ++ List.replicate (nameSize - command.name.length) 0

/-- From `entry` on, the memory holds the entries. -/
def TableAt (m : Memory) : Nat → List Command → Prop
  | _, [] => True
  | entry, command :: rest =>
      TextAt m entry command.nameBytes ∧ TableAt m (entry + sizeofCommand) rest

/-- The loop of `tty_prompt` over the entries that are left, with a `break` at the first
one whose name is the string at `str`. -/
def findCommand (m : Memory) (str : Nat) : Nat → List Command → Option Command
  | _, [] => none
  | entry, command :: rest =>
      if strcmp m str entry = 0 then some command
      else findCommand m str (entry + sizeofCommand) rest

/-- The function that `tty_prompt` calls for the line at `str`; without one it prints
`Command not found`. -/
def promptHandler (m : Memory) (table str : Nat) : Option CommandHandler :=
  (findCommand m str table commands).map Command.handler

/-- The function of a name. -/
def commandOf (text : List Byte) : Option CommandHandler :=
  (commands.find? fun command => command.name = text).map Command.handler

/-- Every name has no NUL, and ends inside its array. -/
theorem commands_fit : ∀ command ∈ commands,
    command.name.length < nameSize ∧ ∀ c ∈ command.name, c ≠ 0 := by decide

/-- No name is there twice. -/
theorem commandOf_name : ∀ command ∈ commands,
    commandOf command.name = some command.handler := by decide

/-- Only its own name calls a function. -/
theorem name_of_commandOf {text : List Byte} {command : Command} (hcommand : command ∈ commands)
    (h : commandOf text = some command.handler) : command.name = text := by
  have hone : ∀ command ∈ commands, ∀ other ∈ commands,
      other.handler = command.handler → other.name = command.name := by decide
  obtain ⟨other, hfind, hhandler⟩ := Option.map_eq_some_iff.mp h
  have hname := List.find?_some hfind
  rw [← hone command hcommand other (List.mem_of_find?_eq_some hfind) hhandler]
  exact of_decide_eq_true hname

theorem TableAt.congr {m m' : Memory} {entry : Nat} {entries : List Command}
    (h : TableAt m entry entries) (hfit : ∀ command ∈ entries, command.name.length < nameSize)
    (hsame : ∀ a, entry ≤ a → a < entry + sizeofCommand * entries.length → m' a = m a) :
    TableAt m' entry entries := by
  induction entries generalizing entry with
  | nil => trivial
  | cons command entries ih =>
      obtain ⟨hname, hrest⟩ := h
      have hlen := hfit command List.mem_cons_self
      have hsize : command.nameBytes.length = nameSize := by
        rw [Command.nameBytes, List.length_append, List.length_replicate]
        omega
      rw [List.length_cons] at hsame
      simp only [sizeofCommand, nameSize] at hsame hsize ⊢
      refine ⟨fun i hi => ?_, ih hrest (fun c hc => hfit c (List.mem_cons_of_mem _ hc)) ?_⟩
      · rw [hsame _ (by omega) (by omega)]
        exact hname i hi
      · intro a hlo hhi
        simp only [sizeofCommand] at hlo hhi
        exact hsame a (by omega) (by omega)

/-- The name of an entry is a string. -/
theorem strAt_nameBytes {m : Memory} {entry : Nat} {command : Command}
    (h : TextAt m entry command.nameBytes)
    (hfit : command.name.length < nameSize ∧ ∀ c ∈ command.name, c ≠ 0) :
    StrAt m entry command.name := by
  obtain ⟨hname, hpad⟩ := TextAt.append_iff.mp h
  have hpos : 0 < (List.replicate (nameSize - command.name.length) (0 : Byte)).length := by
    rw [List.length_replicate]
    exact Nat.sub_pos_of_lt hfit.1
  exact strAt_of_get hfit.2 hname ((hpad 0 hpos).trans (List.getElem_replicate ..))

/-- The loop is the search for a name. -/
theorem findCommand_eq {m : Memory} {str : Nat} {text : List Byte} (hstr : StrAt m str text)
    (hlen : text.length < stringFuel) {entry : Nat} {entries : List Command}
    (h : TableAt m entry entries)
    (hfit : ∀ command ∈ entries,
      command.name.length < nameSize ∧ ∀ c ∈ command.name, c ≠ 0) :
    findCommand m str entry entries = entries.find? fun command => command.name = text := by
  induction entries generalizing entry with
  | nil => rfl
  | cons command entries ih =>
      obtain ⟨hname, hrest⟩ := h
      have hstring := strAt_nameBytes hname (hfit command List.mem_cons_self)
      have hcmp := strcmp_eq_zero_iff hstr hstring hlen
      rw [findCommand, List.find?_cons]
      by_cases heq : text = command.name
      · rw [if_pos (hcmp.mpr heq), decide_eq_true heq.symm]
      · rw [if_neg fun h => heq (hcmp.mp h), decide_eq_false fun h => heq h.symm]
        exact ih hrest fun c hc => hfit c (List.mem_cons_of_mem _ hc)

/-! ## What a session writes -/

/-- `tty_read` has only written to the rows of the history so far. -/
def RowsWritten (mem : Store) (s : Session) : Prop :=
  s.reader = none ∨ mem.Writes (· < sizeofTtyHistory) s.tty.mem

theorem inRow_lt {r a : Nat} (hr : r < ttyHistorySize) (h : InRow (ttyHistory r) a) :
    a < sizeofTtyHistory :=
  Nat.lt_of_lt_of_le h.2 (ttyHistory_le hr)

theorem ttyReadStart_writes {s : Tty} (hs : Between s) (h : Tidy none s.mem) :
    s.mem.Writes (· < sizeofTtyHistory) (ttyReadStart s).mem := by
  obtain ⟨-, -, hlst⟩ := historyNewBuf_between hs
  have hnew : s.mem.Writes (· < sizeofTtyHistory) (historyNewBuf s).mem := by
    rcases historyNewBuf_mem s with heq | ⟨hstarted, heq⟩
    · exact heq ▸ .refl _ _
    · obtain ⟨-, hlst'⟩ := hs.ends.resolve_left hstarted
      have hin := ttyHistory_le hlst'
      rcases heq with heq | heq
      · exact heq ▸ .put _ _ (inRow_lt hlst' ⟨Nat.le_refl _, by simp [ttyInputSize]⟩)
      · obtain ⟨cs, hcs, hlen⟩ := (h.ended _ hs.ptr (Option.some_ne_none _).symm).string
        have hapart : ttyHistory s.historyLst ≤ ttyHistory s.historyPtr ∨
            ttyHistory s.historyPtr + cs.length < ttyHistory s.historyLst := by
          simp only [ttyHistory, ttyInputSize] at hlen ⊢
          omega
        obtain ⟨-, hwrites⟩ := strcpy_spec hcs hapart (Nat.lt_trans hlen (by decide))
        exact heq ▸ hwrites.mono fun a ha => by omega
  exact hnew.trans (.put _ _ (inRow_lt hlst ⟨Nat.le_refl _, by simp [ttyInputSize]⟩))

theorem RowsWritten.scan {mem : Store} {dest : Dest} {s : Session} (h : RowsWritten mem s)
    (hs : Scanned dest s) (scancode : Byte) : RowsWritten mem (scan s scancode) := by
  obtain ⟨s, reader, submitted⟩ := s
  obtain ⟨⟨kb, call⟩, hkb⟩ : ∃ r, kbHandler scancode s.kb = r := ⟨_, rfl⟩
  cases call with
  | none => exact scan_of_none hkb reader submitted ▸ h
  | procKbDebug key => exact scan_of_debug hkb reader submitted ▸ h
  | keyHandler key =>
      rw [scan_of_key hkb]
      cases reader with
      | none => exact Or.inl rfl
      | some d =>
          obtain ⟨-, -, hreading, r, hr, hbuf, htidy⟩ := hs
          have hwrites := (pressKey_tidy key (hreading.setKb kb) hr hbuf htidy).writes
          cases hreads : (pressKey key (s.setKb kb)).reads with
          | false =>
              rw [handled_of_ends hreads]
              exact Or.inl rfl
          | true =>
              rw [handled_of_reads hreads]
              have hrows := h.resolve_left (Option.some_ne_none d)
              exact Or.inr (hrows.trans (hwrites.mono fun a ha => inRow_lt hr (hbuf ▸ ha)))

theorem RowsWritten.scanAll {mem : Store} {dest : Dest} {s : Session} (h : RowsWritten mem s)
    (hs : Scanned dest s) (codes : List Byte) : RowsWritten mem (scanAll codes s) := by
  induction codes generalizing s with
  | nil => exact h
  | cons scancode codes ih => exact ih (h.scan hs scancode) (hs.scan scancode)

/-- `tty_read` has returned, and only the rows and the array of the caller have changed. -/
structure LineRead (mem : Store) (dest : Dest) (s : Session) : Prop where
  returned : s.reader = none
  between : Between s.tty
  tidy : Tidy none s.tty.mem
  writes : mem.Writes (fun a => a < sizeofTtyHistory ∨ InRow dest.addr a) s.tty.mem

/-- Enter closes the line in its row, and copies it. -/
theorem Typing.enter_read {s : Tty} {text : List Byte} (h : Typing s text) {r : Nat}
    (hr : r < ttyHistorySize) (hbuf : s.inputBuf = ttyHistory r) (htidy : Tidy (some r) s.mem)
    (dest : Dest) (submitted : List (List Byte)) :
    LineRead s.mem dest (Kernel.scanAll enterCodes ⟨s, some dest, submitted⟩) ∧
      (Kernel.scanAll enterCodes ⟨s, some dest, submitted⟩).tty.kb.mods = s.kb.mods := by
  have htable : ∀ shifted, kbLayoutUs shifted 0x1c = keyEnter := by decide
  have hmake := kbHandler_make (by decide : (0x1c : Byte).toNat < 0x80) (by decide) h.waits
  have hbreak : ∀ kb, kbHandler 0x9c kb = ({ kb with lastKey := 0x1c }, .none) :=
    kbHandler_break (by decide : 0 < (0x1c : Byte).toNat) (by decide) (by decide)
  rw [htable] at hmake
  have hreading : Reading (s.setKb { s.kb with lastKey := 0x1c }) := h.reading.setKb _
  have hpress := pressKey_tidy keyEnter hreading hr hbuf htidy
  have hends : (pressKey keyEnter (s.setKb { s.kb with lastKey := 0x1c })).reads = false := by
    rw [pressKey_enter]
    exact Bool.and_false _
  obtain ⟨hafter, hclose, hcopy⟩ := hpress.last h.reading.len dest
  have hmods : ∀ kb : Kb, (kbSetKeyHandler false kb).mods = kb.mods := by
    intro kb
    unfold kbSetKeyHandler
    split <;> rfl
  have hlast := handled_of_ends hends dest submitted
  change LineRead s.mem dest (scan (scan ⟨s, some dest, submitted⟩ 0x1c) 0x9c) ∧
    (scan (scan ⟨s, some dest, submitted⟩ 0x1c) 0x9c).tty.kb.mods = _
  rw [scan_of_key hmake, hlast, scan_of_none (hbreak _)]
  obtain ⟨r', hr', hbuf', -⟩ := hpress.row
  have hread := hreading.last keyEnter dest.addr
  refine ⟨⟨rfl, ⟨hread.ptr, hread.ends⟩, hafter, ?_⟩, hmods _⟩
  refine (hpress.writes.mono fun a ha => Or.inl (inRow_lt hr (hbuf ▸ ha))).trans ?_
  refine (hclose.mono fun a ha => Or.inl (inRow_lt hr' (hbuf' ▸ ha))).trans ?_
  exact hcopy.mono fun a ha => Or.inr ha

/-! ## What a typed text arrives as -/

/-- The character that shares its key with `c`. -/
def otherOnKey (c : Byte) : Byte :=
  ((usRows.flatMap fun row =>
    row.plain.zip row.shifted ++ row.shifted.zip row.plain).lookup c).getD c

/-- What the handler makes of a character that is typed: caps lock exchanges the two
characters of every key. -/
def received (capsLock : Bool) (c : Byte) : Byte :=
  if capsSafe capsLock c then c else otherOnKey c

/-- The tables of the handler and of the layout. -/
theorem usKey_received {shifted : Bool} {scancode c : Byte} (h : usKey shifted scancode = some c)
    (capsLock : Bool) :
    kbLayoutUs (Bool.xor capsLock (needsShift capsLock shifted c)) scancode =
      received capsLock c := by
  have hall : ∀ (capsLock shifted : Bool) (scancode : Byte), (usKey shifted scancode).all (fun c =>
      kbLayoutUs (Bool.xor capsLock (needsShift capsLock shifted c)) scancode ==
        received capsLock c) = true := by decide +kernel
  have hone := hall capsLock shifted scancode
  rw [h] at hone
  exact beq_iff_eq.mp hone

/-- Of the two characters of a key that caps lock exchanges each is received for the
other, and no NUL. -/
theorem usKey_received_twice {shifted : Bool} {scancode c : Byte}
    (h : usKey shifted scancode = some c) (capsLock : Bool) :
    received capsLock (received capsLock c) = c ∧ received capsLock c ≠ 0 := by
  have hall : ∀ (capsLock shifted : Bool) (scancode : Byte), (usKey shifted scancode).all (fun c =>
      received capsLock (received capsLock c) == c && received capsLock c != 0) = true := by
    decide +kernel
  have hone := hall capsLock shifted scancode
  rw [h] at hone
  simpa using hone

/-- The make and the break code of a character. -/
theorem Typing.receive {s : Tty} {text : List Byte} (hs : Typing s text) {shifted : Bool}
    {scancode c : Byte} (hkey : usKey shifted scancode = some c)
    (hshift : s.kb.mods.shift = needsShift s.kb.mods.capsLock shifted c) (harrow : c ∉ arrowKeys)
    (hlen : text.length + 1 < ttyInputSize) (dest : Dest) (submitted : List (List Byte)) :
    ∃ t, scan (scan ⟨s, some dest, submitted⟩ scancode) (scancode ||| 0x80) =
        ⟨t, some dest, submitted⟩ ∧ t.kb.mods = s.kb.mods ∧
      Typing t (text ++ [received s.kb.mods.capsLock c]) := by
  obtain ⟨hpos, hlt, hmodifier, -, hsends⟩ := usKey_sends hkey s.kb.mods.capsLock
  have hinserted := hsends.inserted harrow
  have hmake := kbHandler_make hlt hmodifier hs.waits
  rw [usKey_received hkey] at hinserted
  rw [Mods.layout, hshift, usKey_received hkey] at hmake
  have hs' : Typing (s.setKb { s.kb with lastKey := scancode }) text := hs.setKb hs.waits
  obtain ⟨hreads, hkb, ht⟩ := hs'.press hinserted hlen
  have hpress := handled_of_reads hreads dest submitted
  generalize pressKey (received s.kb.mods.capsLock c)
    (s.setKb { s.kb with lastKey := scancode }) = t at hkb ht hpress
  have hmods : t.kb.mods = s.kb.mods := by
    rw [hkb]
    rfl
  have hbreak := kbHandler_break hpos hlt hmodifier t.kb
  refine ⟨t.setKb { t.kb with lastKey := scancode }, ?_, hmods, ht.setKb ht.waits⟩
  rw [scan_of_key hmake]
  rw [hpress, scan_of_none hbreak]

/-- The codes of a text put what it is received as at the end of the line. -/
theorem Typed.receive {mods : Mods} {cs codes : List Byte} (h : Typed mods cs codes)
    (harrow : ∀ c ∈ cs, c ∉ arrowKeys) {s : Tty} {text : List Byte} (hmods : s.kb.mods = mods)
    (hs : Typing s text) (hlen : text.length + cs.length < ttyInputSize) (dest : Dest)
    (submitted : List (List Byte)) :
    ∃ t, Kernel.scanAll codes ⟨s, some dest, submitted⟩ = ⟨t, some dest, submitted⟩ ∧
      t.kb.mods.capsLock = mods.capsLock ∧
      Typing t (text ++ cs.map (received mods.capsLock)) := by
  induction h generalizing s text with
  | nil mods => exact ⟨s, rfl, congrArg _ hmods, (List.append_nil text).symm ▸ hs⟩
  | @shift mods cs codes down _ ih =>
      have hscan := scan_of_none (kbHandler_shift down s.kb) (some dest) submitted
      have hs' : Typing (s.setKb { s.kb with
          lastKey := keyLshift, mods := { s.kb.mods with shift := down } }) text :=
        hs.setKb hs.waits
      have hmods' : { s.kb.mods with shift := down } = { mods with shift := down } := by
        rw [hmods]
      obtain ⟨t, hall, hcaps, ht⟩ := ih harrow hmods' hs' hlen
      refine ⟨t, ?_, hcaps, ht⟩
      change Kernel.scanAll codes (scan _ _) = _
      rw [hscan]
      exact hall
  | @char mods c cs codes shifted scancode hkey hshift _ ih =>
      rw [List.length_cons] at hlen
      subst hmods
      obtain ⟨t, hscan, hmods, ht⟩ :=
        hs.receive hkey hshift (harrow c List.mem_cons_self) (by omega) dest submitted
      have hlen' : (text ++ [received s.kb.mods.capsLock c]).length + cs.length <
          ttyInputSize := by
        rw [List.length_append, List.length_singleton]
        omega
      obtain ⟨u, hall, hcaps, hu⟩ :=
        ih (fun d hd => harrow d (List.mem_cons_of_mem _ hd)) hmods ht hlen'
      refine ⟨u, ?_, hcaps, ?_⟩
      · change Kernel.scanAll codes (scan (scan _ _) _) = _
        rw [hscan]
        exact hall
      · rwa [List.append_assoc, List.singleton_append] at hu

theorem Typed.received_twice {mods : Mods} {cs codes : List Byte} (h : Typed mods cs codes)
    (capsLock : Bool) : (cs.map (received capsLock)).map (received capsLock) = cs ∧
      ∀ c ∈ cs.map (received capsLock), c ≠ 0 := by
  induction h with
  | nil => exact ⟨rfl, fun c hc => absurd hc List.not_mem_nil⟩
  | shift _ _ ih => exact ih
  | char hkey _ _ ih =>
      obtain ⟨htwice, hne⟩ := usKey_received_twice hkey capsLock
      refine ⟨?_, List.forall_mem_cons.mpr ⟨hne, ih.2⟩⟩
      rw [List.map_cons, List.map_cons, htwice, ih.1]

/-- A text that is typed with Enter is delivered as what it is received as. -/
theorem Typed.line {s : Tty} (hs : Between s) (htidy : Tidy none s.mem) {cs codes : List Byte}
    (htyped : Typed s.kb.mods cs codes) (hlen : cs.length < ttyInputSize)
    (harrow : ∀ c ∈ cs, c ∉ arrowKeys) (dest : Dest) (submitted : List (List Byte)) :
    let t := Kernel.scanAll (codes ++ enterCodes) ⟨ttyReadStart s, some dest, submitted⟩
    StrAt t.tty.mem.bytes dest.addr (cs.map (received s.kb.mods.capsLock)) ∧
      LineRead s.mem dest t ∧ t.tty.kb.mods.capsLock = s.kb.mods.capsLock := by
  obtain ⟨t, hall, hcaps, ht⟩ := htyped.receive harrow (ttyReadStart_mods s)
    (typing_ttyReadStart hs) (by rwa [List.length_nil, Nat.zero_add]) dest submitted
  rw [List.nil_append] at ht
  have hstart := scanned_ttyReadStart hs htidy dest submitted
  have hscanned := hstart.scanAll codes
  have hrows : RowsWritten s.mem ⟨ttyReadStart s, some dest, submitted⟩ :=
    Or.inr (ttyReadStart_writes hs htidy)
  have hwritten := hrows.scanAll hstart codes
  rw [hall] at hscanned hwritten
  obtain ⟨-, -, -, r, hr, hbuf, htidy'⟩ := hscanned
  have hline : Kernel.scanAll (codes ++ enterCodes) ⟨ttyReadStart s, some dest, submitted⟩ =
      Kernel.scanAll enterCodes ⟨t, some dest, submitted⟩ := by
    rw [← hall]
    exact List.foldl_append
  rw [hline]
  obtain ⟨hread, hmods⟩ := ht.enter_read hr hbuf htidy' dest submitted
  refine ⟨?_, ⟨hread.returned, hread.between, hread.tidy, ?_⟩, (congrArg _ hmods).trans hcaps⟩
  · obtain ⟨hchars, hnul⟩ := TextAt.append_iff.mp (ht.enter dest submitted).2
    exact strAt_of_get (htyped.received_twice _).2 hchars (TextAt.singleton_iff.mp hnul)
  · have hbefore := hwritten.resolve_left (Option.some_ne_none dest)
    exact (hbefore.mono fun a ha => Or.inl ha).trans hread.writes

/-! ## From the keyboard to the command -/

/-- The table is another object than the history and the array of `tty_prompt`. -/
structure TableApart (table : Nat) (dest : Dest) : Prop where
  history : sizeofTtyHistory ≤ table
  array : table + sizeofCommand * commands.length ≤ dest.addr ∨
    dest.addr + ttyInputSize ≤ table

/-- The session leaves the table, and the string it delivers is looked up. -/
theorem promptHandler_eq {s : Store} {dest : Dest} {table : Nat}
    (h : TableAt s.bytes table commands)
    (hapart : TableApart table dest) {t : Store}
    (hwrites : s.Writes (fun a => a < sizeofTtyHistory ∨ InRow dest.addr a) t)
    {text : List Byte} (htext : StrAt t.bytes dest.addr text) (hlen : text.length < stringFuel) :
    promptHandler t.bytes table dest.addr = commandOf text := by
  have hkept : TableAt t.bytes table commands := by
    refine h.congr (fun command hcommand => (commands_fit command hcommand).1) fun a hlo hhi => ?_
    obtain ⟨hhistory, harray⟩ := hapart
    refine hwrites.frame a fun hin => ?_
    rcases hin with hin | ⟨hfrom, hto⟩
    · exact Nat.lt_irrefl _ (Nat.lt_of_lt_of_le hin (Nat.le_trans hhistory hlo))
    · omega
  exact congrArg _ (findCommand_eq htext hlen hkept commands_fit)

/-- In any state that a run reaches between two sessions, a typed text without the four
letters calls the function that has what is received as its name, or none if there is no
such name.  Every name but `$?` is received as it is typed; with caps lock on that one is
received for `4/`, and nothing else calls its function. -/
theorem typed_command {boot : Tty} (hboot : HistoryZero boot) {path : List (TtyEvent × Session)}
    (hrun : IsPath SessionStep (sessionStart boot) path)
    (hshort : StepsMeet LineShort (sessionStart boot) path) {s : Tty}
    {submitted : List (List Byte)}
    (hmem : ⟨s, none, submitted⟩ ∈ visited (sessionStart boot) path) {table : Nat} {dest : Dest}
    (htable : TableAt s.mem.bytes table commands) (hapart : TableApart table dest)
    {cs codes : List Byte} (htyped : Typed s.kb.mods cs codes) (hlen : cs.length < ttyInputSize)
    (harrow : ∀ c ∈ cs, c ∉ arrowKeys) :
    let called := promptHandler (scanAll (codes ++ enterCodes)
      ⟨ttyReadStart s, some dest, submitted⟩).tty.mem.bytes table dest.addr
    called = commandOf (cs.map (received s.kb.mods.capsLock)) ∧
      ∀ command ∈ commands, (called = some command.handler ↔
        cs = if s.kb.mods.capsLock = true ∧ command.handler = .processLastErrorCommand
          then chars ['4', '/'] else command.name) := by
  have hs : Between s := sessionRuns_sound boot hrun _ hmem
  have htidy : Tidy none s.mem := (hrun.invariant_of_stepsMeet
    (fun _ _ _ hinv hok hstep => (hstep.inside_iff hinv).2 hok) (tidySession_start hboot)
    hshort _ hmem).2
  obtain ⟨htext, hread, -⟩ := htyped.line hs htidy hlen harrow dest submitted
  have hfuel : (cs.map (received s.kb.mods.capsLock)).length < stringFuel := by
    rw [List.length_map]
    exact Nat.lt_trans hlen (by decide)
  have hcalled := promptHandler_eq htable hapart hread.writes htext hfuel
  refine ⟨hcalled, fun command hcommand => ?_⟩
  have hnames : ∀ capsLock, ∀ command ∈ commands, command.name.map (received capsLock) =
      if capsLock = true ∧ command.handler = .processLastErrorCommand
        then chars ['4', '/'] else command.name := by decide
  rw [← hnames _ command hcommand]
  generalize s.kb.mods.capsLock = capsLock at hcalled ⊢
  rw [hcalled]
  constructor
  · intro h
    rw [name_of_commandOf hcommand h, (htyped.received_twice capsLock).1]
  · rintro rfl
    have hback : ∀ capsLock, ∀ command ∈ commands,
        (command.name.map (received capsLock)).map (received capsLock) = command.name := by
      decide
    rw [hback capsLock command hcommand]
    exact commandOf_name command hcommand

instance TableAt.decidable (m : Memory) :
    ∀ (entry : Nat) (entries : List Command), Decidable (TableAt m entry entries)
  | _, [] => .isTrue trivial
  | entry, command :: rest =>
      haveI := TableAt.decidable m (entry + sizeofCommand) rest
      inferInstanceAs (Decidable ((∀ i (hi : i < command.nameBytes.length),
        m (entry + i) = command.nameBytes[i]) ∧ TableAt m (entry + sizeofCommand) rest))

/-- A machine that boots with the table at 16384. -/
def tableTty : Tty :=
  { bootTty with mem := ⟨fun a => if a < 16384 then 0 else
      ((commands[(a - 16384) / sizeofCommand]?.map Command.nameBytes).getD [])[
        (a - 16384) % sizeofCommand]?.getD 0, []⟩ }

/-- `die` is typed in the first session. -/
theorem typed_command_die :
    promptHandler (scanAll ([0x20, 0xa0, 0x17, 0x97, 0x12, 0x92] ++ enterCodes)
      ⟨ttyReadStart (ttyInit tableTty), some promptDest, []⟩).tty.mem.bytes 16384
        promptDest.addr = some .dieCommand := by
  have hzero : HistoryZero tableTty := fun a ha => if_pos (Nat.lt_trans ha (by decide))
  have hrun : IsPath SessionStep (sessionStart tableTty) [] := trivial
  have htable : TableAt (ttyInit tableTty).mem.bytes 16384 commands := by decide +kernel
  have hapart : TableApart 16384 promptDest := ⟨by decide, Or.inr (by decide)⟩
  have hd : usKey false 0x20 = some 0x64 := by decide
  have hi : usKey false 0x17 = some 0x69 := by decide
  have he : usKey false 0x12 = some 0x65 := by decide
  have htyped : Typed (ttyInit tableTty).kb.mods [0x64, 0x69, 0x65]
      [0x20, 0xa0, 0x17, 0x97, 0x12, 0x92] :=
    .char hd rfl (.char hi rfl (.char he rfl (.nil _)))
  have hdie : ⟨[0x64, 0x69, 0x65], .dieCommand⟩ ∈ commands := by decide
  exact ((typed_command hzero hrun trivial (start_mem_visited _ _) htable hapart htyped
    (by decide) (by decide)).2 _ hdie).mpr rfl

end DonutOS.Kernel
