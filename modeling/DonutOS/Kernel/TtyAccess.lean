import DonutOS.Kernel.TtySpec
import DonutOS.Libc.StrSpec

set_option autoImplicit false

/-!
# Kernel: what the output functions access (`kernel/src/tty.c`)

Copies of the output functions that note the elements of `tty_buffer` they write, and for
`tty_puts` also the bytes of the string it reads and the elements of `tmp` it writes.
-/

namespace DonutOS.Kernel

open DonutOS.Foundation DonutOS.Libc

/-! ## A character -/

/-- `tty_scroll`, and the cells it writes. -/
def ttyScrollCells (n : Int) (s : Screen) : Screen × List Nat :=
  let gap := (n * vgaWidth % 2 ^ 32).toNat
  let entry := vgaEntry 0 s.ttyColor
  let gap := if vgaScrSize < gap then vgaScrSize else gap
  let x :=
    if 0 ≤ n then
      let x := (criticalSectionStart s, [])
      let x := forLoop (fun i x => (shiftCell gap i x.1, x.2 ++ [i])) 0 (vgaScrSize - gap) x
      let x := forLoop (fun i x => (setCell i entry x.1, x.2 ++ [i])) (vgaScrSize - gap) gap x
      (criticalSectionEnd x.1, x.2)
    else (s, [])
  ({ x.1 with ttyPtr := (x.1.ttyPtr + (2 ^ 32 - gap)) % 2 ^ 32 }, x.2)

/-- `tty_update_cursor`, and the cells it writes. -/
def ttyUpdateCursorCells (s : Screen) : Screen × List Nat :=
  let x :=
    if vgaScrSize ≤ s.ttyPtr then
      ttyScrollCells (Int.bmod ((ttyRow s : Int) - vgaHeight + 1) (2 ^ 32)) s
    else (s, [])
  (vgaMoveCursorTo x.1.ttyPtr x.1, x.2)

/-- `__tty_write_char`, and the cells it writes. -/
def ttyWriteCharCells (c : BitVec 16) (s : Screen) : Screen × List Nat :=
  let s := criticalSectionStart s
  let x : Screen × List Nat :=
    if c = 0x0a then ({ s with ttyPtr := (s.ttyPtr + (vgaWidth - ttyCol s)) % 2 ^ 32 }, [])
    else if c = 0x0d then ({ s with ttyPtr := s.ttyPtr - ttyCol s }, [])
    else if c = 0x08 then ({ s with ttyPtr := (s.ttyPtr + (2 ^ 32 - 1)) % 2 ^ 32 }, [])
    else
      let entry := vgaEntry c s.ttyColor
      ({ setCell s.ttyPtr entry s with ttyPtr := (s.ttyPtr + 1) % 2 ^ 32 }, [s.ttyPtr])
  (criticalSectionEnd x.1, x.2)

/-- `tty_putc`, and the cells it writes. -/
def ttyPutcCells (c : BitVec 16) (s : Screen) : Screen × List Nat :=
  let x := ttyWriteCharCells c s
  let y := ttyUpdateCursorCells x.1
  (y.1, x.2 ++ y.2)

theorem ttyScrollCells_fst (n : Int) (s : Screen) : (ttyScrollCells n s).1 = ttyScroll n s := by
  unfold ttyScrollCells ttyScroll
  by_cases hn : 0 ≤ n
  · simp only [if_pos hn, forLoop_logged]
  · simp only [if_neg hn]

theorem ttyUpdateCursorCells_fst (s : Screen) :
    (ttyUpdateCursorCells s).1 = ttyUpdateCursor s := by
  unfold ttyUpdateCursorCells ttyUpdateCursor
  by_cases hleft : vgaScrSize ≤ s.ttyPtr
  · simp only [if_pos hleft, ttyScrollCells_fst]
  · simp only [if_neg hleft]

theorem ttyWriteCharCells_fst (c : BitVec 16) (s : Screen) :
    (ttyWriteCharCells c s).1 = ttyWriteChar c s := by
  unfold ttyWriteCharCells ttyWriteChar
  simp only [apply_ite Prod.fst]

/-- The copy computes what `tty_putc` does. -/
theorem ttyPutcCells_fst (c : BitVec 16) (s : Screen) :
    (ttyPutcCells c s).1 = ttyPutc c s := by
  unfold ttyPutcCells ttyPutc
  simp only [ttyUpdateCursorCells_fst, ttyWriteCharCells_fst]

/-- The two loops of `tty_scroll` write the cells of the screen, each once. -/
theorem ttyScrollCells_snd {n : Int} (hn : 0 ≤ n) (s : Screen) :
    (ttyScrollCells n s).2 = List.range vgaScrSize := by
  unfold ttyScrollCells
  simp only [if_pos hn, forLoop_logged, List.flatMap_singleton', List.nil_append]
  have hgap : ∀ gap : Nat, (if vgaScrSize < gap then vgaScrSize else gap) ≤ vgaScrSize := by
    intro gap
    split <;> omega
  generalize hclamped : (if vgaScrSize < (n * vgaWidth % 2 ^ 32).toNat then vgaScrSize
    else (n * vgaWidth % 2 ^ 32).toNat) = gap
  have hle : gap ≤ vgaScrSize := hclamped ▸ hgap _
  have happend : List.range' 0 (vgaScrSize - gap) ++ List.range' (0 + (vgaScrSize - gap)) gap =
      List.range' 0 (vgaScrSize - gap + gap) := List.range'_append_1
  rw [Nat.zero_add, Nat.sub_add_cancel hle] at happend
  rw [happend, List.range_eq_range']

theorem ttyScrollCells_lt (n : Int) (s : Screen) :
    ∀ i ∈ (ttyScrollCells n s).2, i < vgaScrSize := by
  intro i hi
  by_cases hn : 0 ≤ n
  · rw [ttyScrollCells_snd hn] at hi
    exact List.mem_range.mp hi
  · unfold ttyScrollCells at hi
    simp only [if_neg hn, List.not_mem_nil] at hi

/-- Bringing the cursor back writes on the screen only. -/
theorem ttyUpdateCursorCells_lt (s : Screen) :
    ∀ i ∈ (ttyUpdateCursorCells s).2, i < vgaScrSize := by
  intro i hi
  unfold ttyUpdateCursorCells at hi
  by_cases hleft : vgaScrSize ≤ s.ttyPtr
  · simp only [if_pos hleft] at hi
    exact ttyScrollCells_lt _ _ i hi
  · simp only [if_neg hleft, List.not_mem_nil] at hi

/-! ## A string -/

/-- `tmp_len`. -/
def tmpLen : Nat := 16

/-- What `tty_puts` has done: the bytes of the string it has read, the elements of `tmp`
and of `tty_buffer` it has written, and whether it has found a NUL. -/
structure PutsLog where
  reads : List Nat
  tmp : List Nat
  cells : List Nat
  ended : Bool

/-- A round of the loop before the others. -/
def PutsLog.after (reads tmp cells : List Nat) (log : PutsLog) : PutsLog :=
  ⟨reads ++ log.reads, tmp ++ log.tmp, cells ++ log.cells, log.ended⟩

/-- `ttyPutsLoop`, and what it has done. -/
def ttyPutsLoopLog (m : Memory) : Nat → Nat → Screen → (Screen × Nat) × PutsLog
  | 0, str, s => ((s, str), ⟨[], [], [], false⟩)
  | fuel + 1, str, s =>
      if m str = 0 then ((s, str), ⟨[str], [], [], true⟩)
      else if m str ≠ 0x1b then
        let x := ttyWriteCharCells ((m str).signExtend 16) s
        let r := ttyPutsLoopLog m fuel (str + 1) x.1
        (r.1, r.2.after [str] [] x.2)
      else
        let esc := str
        let str := str + 1
        if m str = 0x5b then
          let bracket := str
          let str := str + 1
          let i := span m isDigit str
          let tmp : Memory := fun j => if j < i then m (str + j) else 0
          let x := if tmp 0 ≠ 0 then atoi tmp 0 else 0
          -- the digits, and the byte that is none
          let digits := List.range' str (i + 1)
          let written := List.range i ++ if i < tmpLen then [i] else []
          let str := str + i
          let r := ttyPutsLoopLog m fuel (str + 1) (ttyEscape (m str) x s)
          (r.1, r.2.after ([esc, bracket] ++ digits) written [])
        else
          let r := ttyPutsLoopLog m fuel (str + 1) s
          (r.1, r.2.after [esc, str] [] [])

/-- `tty_puts`, and what it has done. -/
def ttyPutsLog (m : Memory) (str : Nat) (s : Screen) : (Screen × Nat) × PutsLog :=
  let r := ttyPutsLoopLog m stringFuel str s
  let x := ttyUpdateCursorCells r.1.1
  ((x.1, r.1.2 - str), { r.2 with cells := r.2.cells ++ x.2 })

theorem ttyPutsLoopLog_fst (m : Memory) (fuel str : Nat) (s : Screen) :
    (ttyPutsLoopLog m fuel str s).1 = ttyPutsLoop m fuel str s := by
  induction fuel generalizing str s with
  | zero => rfl
  | succ fuel ih =>
      rw [ttyPutsLoopLog, ttyPutsLoop]
      split
      · rfl
      split
      · rw [← ttyWriteCharCells_fst]
        exact ih _ _
      simp only
      split
      · exact ih _ _
      · exact ih _ _

/-- The copy computes what `tty_puts` does. -/
theorem ttyPutsLog_fst (m : Memory) (str : Nat) (s : Screen) :
    (ttyPutsLog m str s).1 = ttyPuts m str s := by
  unfold ttyPutsLog ttyPuts
  simp only [ttyPutsLoopLog_fst, ttyUpdateCursorCells_fst]

/-- It reads a byte at least. -/
theorem str_mem_reads (m : Memory) {fuel : Nat} (hfuel : 0 < fuel) (str : Nat) (s : Screen) :
    str ∈ (ttyPutsLoopLog m fuel str s).2.reads := by
  obtain ⟨fuel, rfl⟩ : ∃ k, fuel = k + 1 := ⟨fuel - 1, by omega⟩
  rw [ttyPutsLoopLog]
  split
  · exact List.mem_cons_self
  split
  · exact List.mem_cons_self
  simp only
  split
  · exact List.mem_cons_self
  · exact List.mem_cons_self

end DonutOS.Kernel
