import DonutOS.Kernel.TtyAccess
import DonutOS.Kernel.TtyPuts
import DonutOS.Libc.AtoiSpec

set_option autoImplicit false

/-!
# Kernel: escape sequences that do not end (`kernel/src/tty.c`)

`tty_puts` steps over the byte behind an ESC, and over the byte behind the digits of an
`ESC [`, without a look at it.  Where this is the NUL, it goes on behind the string.
-/

namespace DonutOS.Kernel

open DonutOS.Foundation DonutOS.Libc

/-! ## The property and the condition -/

/-- Where a string is cut: in its text, behind an ESC, or behind an `ESC [` and digits. -/
inductive EscapeState
  | text
  | escape
  | number (digits : Nat)

/-- Every ESC has a byte behind it, and every `ESC [` has up to 16 digits and then a byte. -/
def escapesEnd : EscapeState → List Byte → Bool
  | .text, [] => true
  | .escape, [] => false
  | .number _, [] => false
  | .text, c :: cs => escapesEnd (if c = 0x1b then .escape else .text) cs
  | .escape, c :: cs => escapesEnd (if c = 0x5b then .number 0 else .text) cs
  | .number n, c :: cs =>
      if isDigit c then decide (n < tmpLen) && escapesEnd (.number (n + 1)) cs
      else escapesEnd .text cs

/-- Nothing behind the byte `stop` is read, nothing behind `tmp` is written, and the loop
has found a NUL. -/
structure AccessesInside (stop : Nat) (log : PutsLog) : Prop where
  reads : ∀ a ∈ log.reads, a ≤ stop
  tmp : ∀ i ∈ log.tmp, i < tmpLen
  ended : log.ended = true

/-- `tty_puts` of the string `cs` at `str`; what it returns is an `int`. -/
structure PutsSafe (m : Memory) (str : Nat) (cs : List Byte) (s : Screen) : Prop where
  inside : AccessesInside (str + cs.length) (ttyPutsLog m str s).2
  returns : Int.bmod (ttyPuts m str s).2 (2 ^ 32) = cs.length

/-! ## One round -/

theorem accessesInside_after {stop : Nat} {reads tmp cells : List Nat} {log : PutsLog} :
    AccessesInside stop (log.after reads tmp cells) ↔
      (∀ a ∈ reads, a ≤ stop) ∧ (∀ i ∈ tmp, i < tmpLen) ∧ AccessesInside stop log := by
  constructor
  · rintro ⟨hreads, htmp, hended⟩
    refine ⟨fun a ha => hreads a (List.mem_append_left _ ha),
      fun i hi => htmp i (List.mem_append_left _ hi), ?_, ?_, hended⟩
    · exact fun a ha => hreads a (List.mem_append_right _ ha)
    · exact fun i hi => htmp i (List.mem_append_right _ hi)
  · rintro ⟨hreads, htmp, hrest⟩
    refine ⟨fun a ha => ?_, fun i hi => ?_, hrest.ended⟩
    · rcases List.mem_append.mp ha with ha | ha
      · exact hreads a ha
      · exact hrest.reads a ha
    · rcases List.mem_append.mp hi with hi | hi
      · exact htmp i hi
      · exact hrest.tmp i hi

/-- A round that writes nothing to `tmp`. -/
theorem accessesInside_after_nil {stop : Nat} {reads cells : List Nat} {log : PutsLog}
    (hreads : ∀ a ∈ reads, a ≤ stop) :
    AccessesInside stop (log.after reads [] cells) ↔ AccessesInside stop log := by
  rw [accessesInside_after, and_iff_right hreads]
  exact and_iff_right fun i hi => absurd hi List.not_mem_nil

/-- The digits of a number, and its NUL if there is room. -/
theorem written_inside_iff {n : Nat} :
    (∀ i ∈ List.range n ++ (if n < tmpLen then [n] else []), i < tmpLen) ↔ n ≤ tmpLen := by
  constructor
  · intro h
    by_contra hlong
    exact Nat.lt_irrefl _
      (h tmpLen (List.mem_append_left _ (List.mem_range.mpr (Nat.not_le.mp hlong))))
  · intro hn i hi
    rcases List.mem_append.mp hi with hi | hi
    · exact Nat.lt_of_lt_of_le (List.mem_range.mp hi) hn
    · split at hi
      · next hroom =>
          rw [List.mem_singleton.mp hi]
          exact hroom
      · exact absurd hi List.not_mem_nil

/-- A loop that starts behind `stop` reads there. -/
theorem not_accessesInside {m : Memory} {fuel str stop : Nat} (hfuel : 0 < fuel)
    (hstop : stop < str) (s : Screen) :
    ¬ AccessesInside stop (ttyPutsLoopLog m fuel str s).2 :=
  fun h => Nat.not_le.mpr hstop (h.reads str (str_mem_reads m hfuel str s))

/-- The digits behind an `ESC [`: not too many, and a byte behind them. -/
theorem escapesEnd_number {n : Nat} (hn : n ≤ tmpLen) (cs : List Byte) :
    escapesEnd (.number n) cs = true ↔
      n + (cs.takeWhile isDigit).length ≤ tmpLen ∧
        (cs.takeWhile isDigit).length < cs.length ∧
        escapesEnd .text (cs.drop ((cs.takeWhile isDigit).length + 1)) = true := by
  induction cs generalizing n with
  | nil => exact iff_of_false Bool.false_ne_true fun h => Nat.lt_irrefl 0 h.2.1
  | cons c cs ih =>
      rw [escapesEnd, List.takeWhile_cons]
      cases hdigit : isDigit c with
      | true =>
          rw [if_pos rfl, if_pos rfl, Bool.and_eq_true, decide_eq_true_eq, List.length_cons,
            List.length_cons, List.drop_succ_cons]
          by_cases hroom : n < tmpLen
          · rw [ih hroom]
            have hcount : n + 1 + (cs.takeWhile isDigit).length =
                n + ((cs.takeWhile isDigit).length + 1) := by omega
            rw [hcount, and_iff_right hroom, Nat.add_lt_add_iff_right]
          · refine iff_of_false (fun h => hroom h.1) fun h => hroom ?_
            omega
      | false =>
          rw [if_neg Bool.false_ne_true, if_neg Bool.false_ne_true]
          have hnone : n + ([] : List Byte).length ≤ tmpLen := hn
          have hbyte : ([] : List Byte).length < (c :: cs).length := Nat.succ_pos _
          rw [and_iff_right hnone, and_iff_right hbyte]
          rfl

/-! ## The loop -/

/-- The rest of the string is safe and read to its end exactly when `closed` is true. -/
def InsideIff (stop : Nat) (r : (Screen × Nat) × PutsLog) (closed : Bool) : Prop :=
  (AccessesInside stop r.2 ↔ closed = true) ∧ (closed = true → r.1.2 = stop)

theorem InsideIff.after {stop : Nat} {r : (Screen × Nat) × PutsLog} {closed : Bool}
    (h : InsideIff stop r closed) {reads : List Nat} (hreads : ∀ a ∈ reads, a ≤ stop)
    (cells : List Nat) : InsideIff stop (r.1, r.2.after reads [] cells) closed :=
  ⟨(accessesInside_after_nil hreads).trans h.1, h.2⟩

/-- A number and the byte behind it, when the loop goes on as it should. -/
theorem InsideIff.number {m : Memory} {fuel str stop k : Nat} {ds : List Byte} {s : Screen}
    (hk : (ds.takeWhile isDigit).length = k) (hstop : str + ds.length = stop) (hfuel : 0 < fuel)
    (hrest : k < ds.length → InsideIff stop (ttyPutsLoopLog m fuel (str + k + 1) s)
      (escapesEnd .text (ds.drop (k + 1)))) {before : List Nat} (hbefore : ∀ a ∈ before, a ≤ stop) :
    InsideIff stop
      ((ttyPutsLoopLog m fuel (str + k + 1) s).1,
        (ttyPutsLoopLog m fuel (str + k + 1) s).2.after (before ++ List.range' str (k + 1))
          (List.range k ++ if k < tmpLen then [k] else []) [])
      (escapesEnd (.number 0) ds) := by
  have hle : k ≤ ds.length := hk ▸ (List.takeWhile_prefix _).length_le
  have hreads : ∀ a ∈ before ++ List.range' str (k + 1), a ≤ stop := by
    intro a ha
    rcases List.mem_append.mp ha with ha | ha
    · exact hbefore a ha
    · have hhi := (List.mem_range'_1.mp ha).2
      omega
  have hnumber := escapesEnd_number (Nat.zero_le tmpLen) ds
  rw [hk, Nat.zero_add] at hnumber
  unfold InsideIff
  rw [accessesInside_after, and_iff_right hreads, written_inside_iff, hnumber]
  by_cases hbyte : k < ds.length
  · obtain ⟨hiff, hlast⟩ := hrest hbyte
    rw [hiff, and_iff_right hbyte]
    exact ⟨Iff.rfl, fun h => hlast h.2⟩
  · -- the NUL behind the digits is stepped over
    refine ⟨iff_of_false (fun h => ?_) fun h => hbyte h.2.1, fun h => absurd h.2.1 hbyte⟩
    exact not_accessesInside hfuel (by omega) s h.2

/-- An escape: cut off behind the ESC, with a number, or with any other byte. -/
theorem InsideIff.escape {m : Memory} {fuel str stop : Nat} {cs : List Byte} {s : Screen}
    (hesc : m str = 0x1b) (hcs : StrAt m (str + 1) cs) (hstop : str + 1 + cs.length = stop)
    (hlen : cs.length < fuel) (hfuel : fuel ≤ stringFuel)
    (hrest : ∀ {str' : Nat} {rest : List Byte} {s' : Screen}, StrAt m str' rest →
      rest.length < cs.length → str' + rest.length = stop →
      InsideIff stop (ttyPutsLoopLog m fuel str' s') (escapesEnd .text rest)) :
    InsideIff stop (ttyPutsLoopLog m (fuel + 1) str s) (escapesEnd .escape cs) := by
  have hpos : 0 < fuel := Nat.zero_lt_of_lt hlen
  rw [ttyPutsLoopLog, hesc, if_neg (by decide), if_neg (not_not.mpr rfl)]
  cases cs with
  | nil =>
      -- the NUL is stepped over
      have hnul : m (str + 1) = 0 := hcs
      simp only [hnul]
      rw [if_neg (by decide)]
      refine ⟨iff_of_false (fun h => ?_) Bool.false_ne_true, fun h => absurd h Bool.false_ne_true⟩
      exact not_accessesInside hpos (hstop ▸ Nat.lt_succ_self _) s (accessesInside_after.mp h).2.2
  | cons d ds =>
      obtain ⟨hd, -, hds⟩ := hcs
      rw [List.length_cons] at hstop hlen hrest
      have hback : str + 1 + 1 + ds.length = stop := by omega
      have htwo : ∀ a ∈ [str, str + 1], a ≤ stop := by
        intro a ha
        simp only [List.mem_cons, List.not_mem_nil, or_false] at ha
        omega
      simp only [hd]
      rw [escapesEnd]
      by_cases hbracket : d = 0x5b
      · have hspan := span_eq isDigit_nul hds (Nat.lt_of_lt_of_le (Nat.lt_of_succ_lt hlen) hfuel)
        rw [if_pos hbracket, if_pos hbracket]
        simp only [hspan]
        refine InsideIff.number rfl hback hpos (fun hbyte => ?_) htwo
        refine hrest (hds.drop hbyte) ?_ ?_
        · rw [List.length_drop]
          omega
        · rw [List.length_drop]
          omega
      · rw [if_neg hbracket, if_neg hbracket]
        exact (hrest hds (Nat.lt_succ_self _) hback).after htwo []

/-- By the kind of the first byte; the loop goes on at a byte of the string or its NUL
as long as the escape that it has read is complete. -/
theorem ttyPutsLoopLog_inside {m : Memory} {fuel : Nat} :
    ∀ {str : Nat} {cs : List Byte} {s : Screen}, StrAt m str cs → cs.length < fuel →
      fuel ≤ stringFuel →
      InsideIff (str + cs.length) (ttyPutsLoopLog m fuel str s) (escapesEnd .text cs) := by
  induction fuel with
  | zero => exact fun _ hlen _ => absurd hlen (Nat.not_lt_zero _)
  | succ fuel ih =>
      intro str cs s hstr hlen hfuel
      have hfuel' : fuel ≤ stringFuel := Nat.le_of_succ_le hfuel
      cases cs with
      | nil =>
          have hnul : m str = 0 := hstr
          rw [ttyPutsLoopLog, if_pos hnul]
          refine ⟨iff_of_true ⟨fun a ha => ?_, fun i hi => ?_, rfl⟩ rfl, fun _ => rfl⟩
          · exact Nat.le_of_eq (List.mem_singleton.mp ha)
          · exact absurd hi List.not_mem_nil
      | cons c cs =>
          obtain ⟨hc, hne, hcs⟩ := hstr
          have hlen' : cs.length < fuel := Nat.lt_of_succ_lt_succ hlen
          have hstop : str + 1 + cs.length = str + (cs.length + 1) := by omega
          rw [escapesEnd, List.length_cons]
          by_cases hesc : c = 0x1b
          · rw [if_pos hesc]
            refine InsideIff.escape (hc.trans hesc) hcs hstop hlen' hfuel' fun hrest hlt heq => ?_
            exact heq ▸ ih hrest (Nat.lt_trans hlt hlen') hfuel'
          · rw [ttyPutsLoopLog, hc, if_neg hne, if_pos hesc, if_neg hesc]
            have hone : ∀ a ∈ [str], a ≤ str + (cs.length + 1) := by
              intro a ha
              rw [List.mem_singleton.mp ha]
              exact Nat.le_add_right _ _
            exact (hstop ▸ ih hcs hlen' hfuel').after hone _

/-! ## `tty_puts` -/

/-- A length is returned as it is where an `int` has room for it. -/
theorem bmod_length_iff {n : Nat} (hn : n < stringFuel) :
    Int.bmod n (2 ^ 32) = n ↔ n < 2 ^ 31 := by
  have hword : n < 2 ^ 32 := hn
  constructor
  · intro heq
    have hlt := Int.bmod_lt (x := (n : Int)) (show 0 < 2 ^ 32 by decide)
    omega
  · intro hshort
    exact Int.bmod_eq_of_le (by omega) (by omega)

theorem putsSafe_iff_inside {m : Memory} {str : Nat} {cs : List Byte} {s : Screen} :
    PutsSafe m str cs s ↔
      AccessesInside (str + cs.length) (ttyPutsLoopLog m stringFuel str s).2 ∧
        Int.bmod ((ttyPutsLoopLog m stringFuel str s).1.2 - str : Nat) (2 ^ 32) = cs.length := by
  have hreturns : (ttyPuts m str s).2 = (ttyPutsLoopLog m stringFuel str s).1.2 - str := by
    rw [← ttyPutsLog_fst]
    rfl
  rw [← hreturns]
  constructor
  · rintro ⟨hinside, hlen⟩
    exact ⟨⟨hinside.reads, hinside.tmp, hinside.ended⟩, hlen⟩
  · rintro ⟨hinside, hlen⟩
    exact ⟨⟨hinside.reads, hinside.tmp, hinside.ended⟩, hlen⟩

/-- `tty_puts` of a string stays in the string and in `tmp`, ends at the NUL and returns
the length exactly when no escape sequence is cut off, none has more than 16 digits and
an `int` has room for the length. -/
theorem ttyPuts_safe_iff {m : Memory} {str : Nat} {cs : List Byte} (hstr : StrAt m str cs)
    (hlen : cs.length < stringFuel) (s : Screen) :
    PutsSafe m str cs s ↔ escapesEnd .text cs = true ∧ cs.length < 2 ^ 31 := by
  obtain ⟨hiff, hlast⟩ := ttyPutsLoopLog_inside (s := s) hstr hlen (Nat.le_refl _)
  rw [putsSafe_iff_inside, hiff]
  refine and_congr_right fun h => ?_
  rw [hlast h, Nat.add_sub_cancel_left, bmod_length_iff hlen]

/-- `ESC [ 2 B`. -/
def stringDown : Memory := fun i => [0x1b, 0x5b, 0x32, 0x42].getD i 0

theorem strAt_stringDown : StrAt stringDown 0 [0x1b, 0x5b, 0x32, 0x42] :=
  ⟨rfl, by decide, rfl, by decide, rfl, by decide, rfl, by decide, (rfl : stringDown 4 = 0)⟩

/-- The sequence that moves the cursor two rows down is complete. -/
theorem ttyPuts_safe_iff_down :
    PutsSafe stringDown 0 [0x1b, 0x5b, 0x32, 0x42] (screenAt 0) :=
  (ttyPuts_safe_iff strAt_stringDown (by decide) _).mpr ⟨by decide, by decide⟩

/-- An ESC, and nothing behind it. -/
def stringEsc : Memory := fun i => [0x1b].getD i 0

/-- Its NUL is stepped over. -/
theorem ttyPuts_reads_behind_esc :
    StrAt stringEsc 0 [0x1b] ∧ ¬ PutsSafe stringEsc 0 [0x1b] (screenAt 0) := by
  have hstr : StrAt stringEsc 0 [0x1b] := ⟨rfl, by decide, (rfl : stringEsc 1 = 0)⟩
  refine ⟨hstr, fun hsafe => ?_⟩
  obtain ⟨hiff, -⟩ :=
    ttyPutsLoopLog_inside (s := screenAt 0) hstr (by decide : 1 < stringFuel) (Nat.le_refl _)
  exact absurd (hiff.mp (putsSafe_iff_inside.mp hsafe).1) (by decide)

end DonutOS.Kernel
