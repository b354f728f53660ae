import DonutOS.Kernel.Idt
import DonutOS.Kernel.PicRuns

set_option autoImplicit false

/-!
# Kernel: the 48 wrappers (`kernel/src/isr_wrapper.s`)

The processor pushes an error code for some exceptions.  The macros `ISR_ERR` and
`ISR_NO_ERR` make up for it, so that the handler gets the same frame either way; the
two exceptions with a code that are not listed with `ISR_ERR` get theirs one word off.
-/

namespace DonutOS.Kernel

open DonutOS.Foundation

/-- The vectors for which the processor pushes an error code. -/
def pushesErrorCode (v : Nat) : Bool :=
  [8, 10, 11, 12, 13, 14, 17, 21, 29, 30].contains v

/-- The vectors listed with `ISR_ERR`. -/
def isrErr (v : Nat) : Bool := [8, 10, 11, 12, 13, 14, 17, 30].contains v

/-- What the macros push before `jmp isr_common`. -/
def isrPrologue (v : Nat) : List Instr :=
  if isrErr v then [.cli, .push (BitVec.ofNat 32 v)]
  else [.cli, .push 0, .push (BitVec.ofNat 32 v)]

/-- `_isr0` to `_isr47`. -/
def isrEntry (v : Nat) : List Instr := isrPrologue v ++ isrCommon

/-- An interrupt or exception of vector `v` through its gate. -/
def Machine.deliver (entry : Word) (v : Nat) (code : Word) (m : Machine) : Machine :=
  if pushesErrorCode v then (m.interrupt entry).push code else m.interrupt entry

/-- The frame that `isr_handler` gets. -/
def handedFrame (v : Nat) (code : Word) (cpu : Cpu) : Regs :=
  let frame := { frameOf cpu with intNo := BitVec.ofNat 32 v }
  if pushesErrorCode v then
    if isrErr v then { frame with errNo := code }
    else
      { frame with
        esp := cpu.esp - 24#32
        errNo := 0, eip := code, cs := cpu.eip, eflags := cpu.cs.setWidth 32 }
  else frame

/-- The words that the processor and the macros push, the last one first. -/
def entryWords (v : Nat) (code : Word) (cpu : Cpu) : List Word :=
  BitVec.ofNat 32 v :: (if isrErr v then [] else [0]) ++
    (if pushesErrorCode v then [code] else []) ++
    [cpu.eip, cpu.cs.setWidth 32, cpu.eflags]

/-! ## Up to the call -/

section Call

variable (handlers : HandlerTable) (left : Scratch)

theorem pushed_deliver (m : Machine) (entry : Word) (v : Nat) (code : Word) :
    Pushed m ((if pushesErrorCode v then [code] else []) ++
      [m.cpu.eip, m.cpu.cs.setWidth 32, m.cpu.eflags]) (m.deliver entry v code) := by
  unfold Machine.deliver
  split
  · exact (pushed_interrupt m entry).push code (by simp)
  · exact pushed_interrupt m entry

theorem execAll_isrPrologue (m : Machine) (entry : Word) (v : Nat) (code : Word) :
    ∃ m', execAll handlers left (isrPrologue v) (m.deliver entry v code) = .ok m' ∧
      Pushed m (entryWords v code m.cpu) m' := by
  have hlen : ((if pushesErrorCode v then [code] else []) ++
      [m.cpu.eip, m.cpu.cs.setWidth 32, m.cpu.eflags]).length ≤ 4 := by
    split <;> simp
  obtain ⟨m₁, hcli, h₁⟩ := (pushed_deliver m entry v code).exec_cli handlers left
  unfold isrPrologue entryWords
  split
  · obtain ⟨m₂, hint, h₂⟩ := h₁.exec_push handlers left (BitVec.ofNat 32 v) (by omega)
    exact ⟨m₂, by rw [execAll_cons_ok hcli, execAll_cons_ok hint, execAll], h₂⟩
  · obtain ⟨m₂, herr, h₂⟩ := h₁.exec_push handlers left 0 (by omega)
    obtain ⟨m₃, hint, h₃⟩ := h₂.exec_push handlers left (BitVec.ofNat 32 v)
      (by rw [List.length_cons]; omega)
    exact ⟨m₃, by rw [execAll_cons_ok hcli, execAll_cons_ok herr, execAll_cons_ok hint, execAll],
      h₃⟩

/-- The pushes of `isr_common`. -/
def commonSave : List Instr :=
  [.pushad, .pushSeg .ds, .pushSeg .es, .pushSeg .fs, .pushSeg .gs]

/-- A wrapper up to its call. -/
def isrHead (v : Nat) : List Instr := isrPrologue v ++ (commonSave ++ (isrSegs ++ [.pushEsp]))

theorem isrEntry_eq (v : Nat) : isrEntry v = isrHead v ++ (.callIsrHandler :: isrExit) := by
  rw [isrEntry, isrHead, List.append_assoc]
  rfl

/-- The words that `isr_common` pushes onto `n` others, the last one first. -/
def savedWords (cpu : Cpu) (n : Nat) : List Word :=
  [cpu.gs.setWidth 32, cpu.fs.setWidth 32, cpu.es.setWidth 32, cpu.ds.setWidth 32,
    cpu.edi, cpu.esi, cpu.ebp, cpu.esp - BitVec.ofNat 32 (4 * n), cpu.ebx, cpu.edx, cpu.ecx,
    cpu.eax]

theorem Pushed.execAll_commonSave {m₀ m : Machine} {vs : List Word} (h : Pushed m₀ vs m)
    (hlen : vs.length ≤ 8) :
    ∃ m', execAll handlers left commonSave m = .ok m' ∧
      Framed m₀ (savedWords m₀.cpu vs.length ++ vs) m' := by
  obtain ⟨m₁, hall, h₁⟩ := h.exec_pushad handlers left (by omega)
  obtain ⟨m₂, hds, h₂⟩ := h₁.exec_pushSeg handlers left .ds (by simp; omega)
  obtain ⟨m₃, hes, h₃⟩ := h₂.exec_pushSeg handlers left .es (by simp; omega)
  obtain ⟨m₄, hfs, h₄⟩ := h₃.exec_pushSeg handlers left .fs (by simp; omega)
  obtain ⟨m₅, hgs, h₅⟩ := h₄.exec_pushSeg handlers left .gs (by simp; omega)
  exact ⟨m₅, by rw [commonSave, execAll_cons_ok hall, execAll_cons_ok hds, execAll_cons_ok hes,
    execAll_cons_ok hfs, execAll_cons_ok hgs, execAll], h₅.toFramed⟩

/-- The words above the argument of the call: the frame first. -/
def frameWords (v : Nat) (code : Word) (cpu : Cpu) : List Word :=
  savedWords cpu (entryWords v code cpu).length ++ entryWords v code cpu

theorem length_entryWords_le (v : Nat) (code : Word) (cpu : Cpu) :
    (entryWords v code cpu).length ≤ 6 := by
  unfold entryWords
  split <;> split <;> simp

theorem pushesErrorCode_of_isrErr {v : Nat} (h : isrErr v = true) :
    pushesErrorCode v = true := by
  simp only [isrErr, pushesErrorCode, List.contains_iff_mem, List.mem_cons, List.not_mem_nil,
    or_false] at h ⊢
  omega

/-- The frame is the first seventeen of them. -/
theorem frameWords_eq (v : Nat) (code : Word) (cpu : Cpu) :
    ∃ rest, frameWords v code cpu = (handedFrame v code cpu).words ++ rest := by
  unfold frameWords entryWords handedFrame
  cases herr : isrErr v with
  | true =>
      rw [pushesErrorCode_of_isrErr herr]
      exact ⟨[], rfl⟩
  | false =>
      cases pushesErrorCode v with
      | true => exact ⟨[cpu.eflags], rfl⟩
      | false => exact ⟨[], rfl⟩

/-- Whatever the vector, the wrapper calls `isr_handler` on the frame that the pushes have
built. -/
theorem execAll_isrHead (m : Machine) (entry : Word) (v : Nat) (code : Word) :
    ∃ a m', execAll handlers left (isrHead v) (m.deliver entry v code) = .ok m' ∧
      m'.top = a ∧ m'.cpu.esp + 4#32 = a ∧
      a = m.cpu.esp - BitVec.ofNat 32 (4 * (frameWords v code m.cpu).length) ∧
      loadRegs m'.mem a = handedFrame v code m.cpu ∧ m'.cpu.ss = m.cpu.ss ∧ m'.ctx = m.ctx := by
  have hsix := length_entryWords_le v code m.cpu
  obtain ⟨m₁, hprologue, h₁⟩ := execAll_isrPrologue handlers left m entry v code
  obtain ⟨m₂, hsave, h₂⟩ := h₁.execAll_commonSave handlers left (by omega)
  have hquiet : ∀ i ∈ isrSegs, i.Quiet := by simp [isrSegs, Instr.Quiet]
  obtain ⟨m₃, hsegs, h₃⟩ := h₂.execAll_quiet handlers left hquiet
  have h₄ := h₃.push m₃.cpu.esp (by simp [savedWords]; omega)
  have hpush : exec handlers left m₃ .pushEsp = .ok (m₃.push m₃.cpu.esp) := rfl
  have hcancel : (m₃.push m₃.cpu.esp).cpu.esp + 4#32 = m₃.cpu.esp :=
    BitVec.sub_add_cancel _ _
  refine ⟨m₃.cpu.esp, m₃.push m₃.cpu.esp, ?_, h₄.holds.1, hcancel, h₃.esp, ?_, h₄.ss, h₄.ctx⟩
  · rw [isrHead, execAll_append, hprologue, bind_ok, execAll_append, hsave, bind_ok,
      execAll_append, hsegs, bind_ok, execAll_cons_ok hpush, execAll]
  · obtain ⟨rest, hrest⟩ := frameWords_eq v code m.cpu
    have hstack : StackAt 4 (m₃.push m₃.cpu.esp).mem ((m₃.push m₃.cpu.esp).cpu.esp + 4#32)
        (frameWords v code m.cpu) := h₄.holds.2
    rw [hcancel, hrest] at hstack
    exact loadRegs_of_stackAt hstack.of_append

end Call

/-! ## Memory above the stack pointer -/

/-- `n` words were pushed since `m₀`, and from its `esp` up memory is as it was. -/
structure Descends (m₀ : Machine) (n : Nat) (m : Machine) : Prop where
  esp : m.cpu.esp = m₀.cpu.esp - BitVec.ofNat 32 (4 * n)
  above : ∀ k, k < 2 ^ 30 →
    m.mem (m₀.cpu.esp + BitVec.ofNat 32 k) = m₀.mem (m₀.cpu.esp + BitVec.ofNat 32 k)

section Above

variable {m₀ m m' : Machine} {n : Nat}

theorem Descends.push (h : Descends m₀ n m) (v : Word) (hn : n < 64) :
    Descends m₀ (n + 1) (m.push v) where
  esp := by
    rw [Nat.mul_succ, BitVec.ofNat_add, ← BitVec.sub_sub, ← h.esp]
    rfl
  above := by
    intro k hk
    have hne : m₀.cpu.esp + BitVec.ofNat 32 k ≠ m.cpu.esp - 4#32 := by
      rw [h.esp]
      bv_omega
    change Function.update m.mem (m.cpu.esp - 4#32) v _ = _
    rw [Function.update_of_ne hne, h.above k hk]

theorem Descends.pushAll (h : Descends m₀ n m) (vs : List Word) (hn : n + vs.length ≤ 64) :
    Descends m₀ (n + vs.length) (m.pushAll vs) := by
  induction vs generalizing n m with
  | nil => exact h
  | cons v vs ih =>
      rw [List.length_cons] at hn ⊢
      rw [← Nat.add_assoc, Nat.add_right_comm]
      exact ih (h.push v (by omega)) (by omega)

theorem Descends.deliver (entry : Word) (v : Nat) (code : Word) (m : Machine) :
    Descends m ((if pushesErrorCode v then 1 else 0) + 3) (m.deliver entry v code) := by
  have hstart : Descends m 0 m := ⟨(BitVec.sub_zero _).symm, fun _ _ => rfl⟩
  have hpushed := hstart.pushAll [m.cpu.eflags, m.cpu.cs.setWidth 32, m.cpu.eip] (by simp)
  have hinterrupt : Descends m 3 (m.interrupt entry) := ⟨hpushed.esp, hpushed.above⟩
  unfold Machine.deliver
  split
  · exact hinterrupt.push code (by decide)
  · exact hinterrupt

/-- The words that an instruction in front of the call pushes. -/
def Instr.pushes : Instr → Option Nat
  | .cli | .cld | .movAx _ | .movSegAx _ => some 0
  | .push _ | .pushSeg _ | .pushEsp => some 1
  | .pushad => some 8
  | _ => none

theorem Descends.exec (handlers : HandlerTable) (left : Scratch) (h : Descends m₀ n m)
    {i : Instr} {k : Nat} (hi : i.pushes = some k) (hn : n + k ≤ 64)
    (hexec : Kernel.exec handlers left m i = .ok m') : Descends m₀ (n + k) m' := by
  cases i with
  | cli =>
      cases hi
      cases hexec
      exact ⟨h.esp, h.above⟩
  | cld =>
      cases hi
      cases hexec
      exact ⟨h.esp, h.above⟩
  | movAx v =>
      cases hi
      cases hexec
      exact ⟨h.esp, h.above⟩
  | movSegAx r =>
      cases hi
      cases hexec
      cases r with
      | ds => exact ⟨h.esp, h.above⟩
      | es => exact ⟨h.esp, h.above⟩
      | fs => exact ⟨h.esp, h.above⟩
      | gs => exact ⟨h.esp, h.above⟩
  | push v =>
      cases hi
      cases hexec
      exact h.push v (by omega)
  | pushSeg r =>
      cases hi
      cases hexec
      exact h.push _ (by omega)
  | pushEsp =>
      cases hi
      cases hexec
      exact h.push _ (by omega)
  | pushad =>
      cases hi
      cases hexec
      exact h.pushAll [_, _, _, _, _, _, _, _] hn
  | popSeg r => cases hi
  | popad => cases hi
  | callIsrHandler => cases hi
  | addEsp v => cases hi
  | iret => cases hi

/-- The words that instructions in front of the call push. -/
def pushedBy : List Instr → Nat
  | [] => 0
  | i :: is => i.pushes.getD 0 + pushedBy is

theorem Descends.execAll (handlers : HandlerTable) (left : Scratch) {is : List Instr}
    (h : Descends m₀ n m) (his : ∀ i ∈ is, i.pushes.isSome)
    (hn : n + pushedBy is ≤ 64)
    (hexec : Kernel.execAll handlers left is m = .ok m') :
    Descends m₀ (n + pushedBy is) m' := by
  induction is generalizing n m with
  | nil =>
      cases hexec
      exact h
  | cons i is ih =>
      obtain ⟨k, hk⟩ := Option.isSome_iff_exists.mp (his i List.mem_cons_self)
      have hcons : pushedBy (i :: is) = k + pushedBy is := by
        rw [pushedBy, hk, Option.getD_some]
      rw [hcons, ← Nat.add_assoc] at hn ⊢
      rw [Kernel.execAll, bind_eq_ok] at hexec
      obtain ⟨m₁, hone, hrest⟩ := hexec
      exact ih (h.exec handlers left hk (by omega) hone)
        (fun j hj => his j (List.mem_cons_of_mem _ hj)) hn hrest

/-- Of a wrapper up to its call: all instructions only push, fifteen words at most. -/
theorem isrHead_pushes (v : Nat) :
    (∀ i ∈ isrHead v, i.pushes.isSome) ∧ pushedBy (isrHead v) ≤ 15 := by
  have hall : (isrHead v).all (fun i => i.pushes.isSome) = true ∧ pushedBy (isrHead v) ≤ 15 := by
    unfold isrHead isrPrologue
    cases isrErr v
    · exact ⟨rfl, Nat.le_refl 15⟩
    · exact ⟨rfl, Nat.le_succ 14⟩
  exact ⟨List.all_eq_true.mp hall.1, hall.2⟩

/-- The memory that a wrapper leaves from the interrupted `esp` up is what it found. -/
theorem execAll_isrHead_above (handlers : HandlerTable) (left : Scratch) (m : Machine)
    (entry : Word) (v : Nat) (code : Word)
    (hexec : Kernel.execAll handlers left (isrHead v) (m.deliver entry v code) = .ok m') {k : Nat}
    (hk : k < 2 ^ 30) :
    m'.mem (m.cpu.esp + BitVec.ofNat 32 k) = m.mem (m.cpu.esp + BitVec.ofNat 32 k) := by
  obtain ⟨hsome, hsum⟩ := isrHead_pushes v
  have hfour : (if pushesErrorCode v then 1 else 0) + 3 ≤ 4 := by split <;> omega
  have hbound := Nat.le_trans (Nat.add_le_add hfour hsum) (by decide : 4 + 15 ≤ 64)
  exact ((Descends.deliver entry v code m).execAll handlers left hsome hbound hexec).above k hk

end Above

/-! ## A whole interrupt -/

/-- A call that leaves the interrupted context in the frame: the registers come back, and
memory from `esp` up. -/
theorem execAll_isrEntry {handlers : HandlerTable} (left : Scratch) (entry : Word) {m : Machine}
    {v : Nat} (code : Word) {frame : Regs} {c : Ctx} (hcode : pushesErrorCode v = false)
    (hcall : isrHandler handlers (handedFrame v code m.cpu) m.ctx = .ok (frame, c)) :
    ∃ mem, execAll handlers left (isrEntry v) (m.deliver entry v code) =
        .ok ⟨restored frame m.cpu.esp m.cpu.ss, mem, c⟩ ∧
      ∀ k, k < 2 ^ 30 →
        mem (m.cpu.esp + BitVec.ofNat 32 k) = m.mem (m.cpu.esp + BitVec.ofNat 32 k) := by
  obtain ⟨a, m', hhead, htop, hesp, ha, hload, hss, hctx⟩ :=
    execAll_isrHead handlers left m entry v code
  have hlen : (frameWords v code m.cpu).length = 17 := by
    have herr : isrErr v = false := by
      by_contra h
      rw [pushesErrorCode_of_isrErr (Bool.not_eq_false _ ▸ h)] at hcode
      cases hcode
    unfold frameWords entryWords
    rw [hcode, herr]
    rfl
  rw [hlen] at ha
  have hsp : a + 68#32 = m.cpu.esp := by
    rw [ha]
    exact BitVec.sub_add_cancel _ _
  have hframe : StackAt 4 (storeRegs (clobberBelow left.mem m'.mem a) a frame) a frame.words :=
    stackAt_storeCells _ (by decide) (by simp [Regs.words])
  refine ⟨storeRegs (clobberBelow left.mem m'.mem a) a frame, ?_, fun k hk => ?_⟩
  · rw [isrEntry_eq, execAll_append, hhead, bind_ok, execAll, exec, htop, hload, hctx, hcall,
      bind_ok, bind_ok]
    refine Eq.trans (execAll_isrExit handlers left hesp hframe) ?_
    rw [hsp, ← hss]
  · have hcells : ∀ i < frame.words.length,
        m.cpu.esp + BitVec.ofNat 32 k ≠ cell 4 a i := by
      intro i hi
      have hlast : i < 17 := hi
      rw [cell, ha]
      bv_omega
    have hup : (m.cpu.esp + BitVec.ofNat 32 k - a).msb = false := by
      rw [ha, BitVec.msb_eq_decide, decide_eq_false_iff_not]
      bv_omega
    rw [storeRegs, storeCells_of_ne _ hcells, clobberBelow, hup, if_neg Bool.false_ne_true]
    exact execAll_isrHead_above handlers left m entry v code hhead hk

/-- The frame of the interrupted context, under the number `v` and with an error code. -/
def interruptedFrame (v : Nat) (errNo : Word) (cpu : Cpu) : Regs :=
  { frameOf cpu with intNo := BitVec.ofNat 32 v, errNo := errNo }

/-- The error code of an exception; `0` where there is none. -/
def errorCode (v : Nat) (code : Word) : Word := if pushesErrorCode v then code else 0

theorem pushesErrorCode_eq {v : Nat} (h : v ≠ 21 ∧ v ≠ 29) : pushesErrorCode v = isrErr v := by
  rw [Bool.eq_iff_iff]
  simp only [isrErr, pushesErrorCode, List.contains_iff_mem, List.mem_cons, List.not_mem_nil,
    or_false]
  omega

/-- Of the 48 wrappers, one hands over the interrupted context, with the error code,
whatever it was, exactly when its vector is neither 21 nor 29. -/
theorem isrHead_frame_iff (v : Fin numIsrs) :
    (∀ (handlers : HandlerTable) (left : Scratch) (m : Machine) (entry code : Word),
      ∃ m', execAll handlers left (isrHead v) (m.deliver entry v code) = .ok m' ∧
        loadRegs m'.mem m'.top = interruptedFrame v (errorCode v code) m.cpu) ↔
      v.val ≠ 21 ∧ v.val ≠ 29 := by
  generalize (v : Nat) = v
  constructor
  · intro hall
    by_contra hv
    -- the code is where the handler looks for `eip`
    let cpu : Cpu := ⟨0, 0, 0, 0, 0, 0, 0, 0, 0, 0, 0, 0, 0, 0, 0, 0⟩
    obtain ⟨m', hexec, hframe⟩ := hall (fun _ => none) ⟨0, 0, 0, 0, fun _ => 0⟩
      ⟨cpu, fun _ => 0, bootCtx⟩ 0 1
    obtain ⟨a, m'', hexec', htop, -, -, hload, -⟩ := execAll_isrHead (fun _ => none)
      ⟨0, 0, 0, 0, fun _ => 0⟩ ⟨cpu, fun _ => 0, bootCtx⟩ 0 v 1
    rw [hexec] at hexec'
    cases hexec'
    rw [htop, hload] at hframe
    have hsame := congrArg Regs.eip hframe
    have hcase : v = 21 ∨ v = 29 := by omega
    rcases hcase with rfl | rfl
    · exact absurd hsame (by decide)
    · exact absurd hsame (by decide)
  · intro hv handlers left m entry code
    obtain ⟨a, m', hexec, htop, -, -, hload, -⟩ := execAll_isrHead handlers left m entry v code
    refine ⟨m', hexec, ?_⟩
    rw [htop, hload, handedFrame, interruptedFrame, errorCode, pushesErrorCode_eq hv]
    cases isrErr v <;> rfl

/-! ## From a line to its handler -/

theorem pushesErrorCode_irq (line : Nat) : pushesErrorCode (32 + line) = false := by
  rw [Bool.eq_false_iff]
  intro h
  simp only [pushesErrorCode, List.contains_iff_mem, List.mem_cons, List.not_mem_nil,
    or_false] at h
  omega

/-- What `pic_init` is followed by: the processor takes any request at once, and its gate is
set only when the loop of `isr_init` has come past it. -/
theorem request_before_gates {addrs : IdtAddrs} {gdtStart : Nat} {isrs : Nat → Nat} {st : Store}
    (hapart : addrs.Apart gdtStart) (hgdt : TextAt st.bytes gdtStart bootGdt)
    (hisrs : ∀ i, isrs i < 2 ^ 32) (p : Cascade) {line : Nat}
    (hline : line ∈ Cascade.priorityOrder) {k : Nat} (hk : k ≤ numIsrs) :
    (((picInit p).request line).acknowledge.map Prod.fst).bind (fun v =>
        interruptTarget (isrGates addrs isrs k (idtInit addrs st).2).bytes (idtInit addrs st).1
          (bootGdtr gdtStart) v) =
      if 32 + line < k then some (isrs (32 + line)) else none := by
  have hlt := (Cascade.mem_priorityOrder.mp hline).1
  have hshown := (shows_picInit p).request hline
  have hasks : ∀ line ∈ Cascade.priorityOrder,
      Lines.asks ⟨Function.update (fun _ => false) line true, fun _ => false, none⟩ =
        some line := by decide
  have hvector : Cascade.vectorOf 0x20 0x28 line = 32 + line := by
    unfold Cascade.vectorOf
    split <;> omega
  rw [hshown.acknowledge rfl, hasks line hline, Option.map_some, Option.map_some,
    Option.bind_some, hvector]
  exact interruptTarget_isrGates hapart hgdt hisrs hk (by omega)

theorem request_before_gates_early :
    (((picInit powerOn).request 1).acknowledge.map Prod.fst).bind (fun v =>
        interruptTarget (isrGates sampleAddrs (fun i => 0x8100 + i % 0x100) 33
            (idtInit sampleAddrs sampleStore).2).bytes
          (idtInit sampleAddrs sampleStore).1 (bootGdtr 0x7c80) v) = none := by
  have hline : 1 ∈ Cascade.priorityOrder := by decide
  exact request_before_gates sampleAddrs_apart sampleStore_gdt sampleIsrs_lt powerOn hline
    (by decide)

/-- Whatever happened since `pic_init`: an interrupt that the controllers ask for while none
is handled is that of a device's line; its vector has a gate, which leads to the wrapper of
that number, and from there to the handler of the line.  A handler that leaves the frame
alone leaves the interrupted registers and flags as they were, and the memory from their
`esp` up. -/
theorem picRuns_delivered {code : CodeAddrs} {addrs : IdtAddrs} {gdtStart : Nat}
    {isrs : Nat → Nat} {st : Store} (hapart : addrs.Apart gdtStart)
    (hgdt : TextAt st.bytes gdtStart bootGdt) (hisrs : ∀ i, isrs i < 2 ^ 32) (p : Cascade)
    {c : Ctx} (hboot : NoProcess c) {path : List (PicEvent × PicState)}
    (hpath : IsPath (KernelPicStep code) (picStart p c) path)
    (hfree : (endState (picStart p c) path).frame = none) {v : Nat} {pics : Cascade}
    (hintr : (endState (picStart p c) path).pics.acknowledge = some (v, pics)) :
    ∃ line ∈ Cascade.priorityOrder, v = 32 + line ∧
      interruptTarget (isrGates addrs isrs numIsrs (idtInit addrs st).2).bytes
        (idtInit addrs st).1 (bootGdtr gdtStart) v = some (isrs v) ∧
      ∀ (irqs : HandlerTable) (left : Scratch) (entry errCode : Word) (m : Machine),
        irqs line = none ∨ irqs line = some deviceHandler →
        ∃ mem, execAll (irqInit irqs (isrInit fun _ => none)) left (isrEntry v)
            (m.deliver entry v errCode) = .ok ⟨m.cpu, mem, m.ctx⟩ ∧
          ∀ k, k < 2 ^ 30 →
            mem (m.cpu.esp + BitVec.ofNat 32 k) = m.mem (m.cpu.esp + BitVec.ofNat 32 k) := by
  obtain ⟨served, hserved, hevents, ⟨hshown, -, hserving, -⟩⟩ :=
    picInv_run (picInv_start p hboot) hpath
  rw [hfree] at hserving
  rw [hshown.acknowledge hserving, Option.map_eq_some_iff] at hintr
  obtain ⟨line, hasks, hpair⟩ := hintr
  have hline : line ∈ Cascade.priorityOrder := List.mem_of_find?_eq_some hasks
  have hlt := (Cascade.mem_priorityOrder.mp hline).1
  obtain ⟨rfl, rfl⟩ := Prod.mk.inj hpair
  have hvector : Cascade.vectorOf 0x20 0x28 line = 32 + line := by
    unfold Cascade.vectorOf
    split <;> omega
  rw [hvector]
  refine ⟨line, hline, rfl, ?_, fun irqs left entry errCode m hhandler => ?_⟩
  · rw [interruptTarget_isrGates hapart hgdt hisrs (Nat.le_refl _) (by omega)]
    exact if_pos (by unfold numIsrs; omega)
  · have hframe : handedFrame (32 + line) errCode m.cpu = interruptedFrame (32 + line) 0 m.cpu := by
      rw [handedFrame, pushesErrorCode_irq]
      rfl
    have hint : (interruptedFrame (32 + line) 0 m.cpu).intNo.toNat = 32 + line := by
      change (BitVec.ofNat 32 (32 + line)).toNat = _
      rw [BitVec.toNat_ofNat]
      omega
    have hcall : isrHandler (irqInit irqs (isrInit fun _ => none))
        (handedFrame (32 + line) errCode m.cpu) m.ctx =
        .ok (interruptedFrame (32 + line) 0 m.cpu, m.ctx) := by
      rw [hframe, isrHandler_irq irqs hlt hint]
      rcases hhandler with h | h
      · rw [h]
      · rw [h]
        rfl
    obtain ⟨mem, hexec, hmem⟩ := execAll_isrEntry left entry errCode (pushesErrorCode_irq line)
      hcall
    refine ⟨mem, ?_, hmem⟩
    have hrestored : restored (interruptedFrame (32 + line) 0 m.cpu) m.cpu.esp m.cpu.ss = m.cpu :=
      restored_frameOf m.cpu
    rw [hexec, hrestored]

theorem picRuns_delivered_keyboard :
    ∃ path : List (PicEvent × PicState),
      interruptTarget (isrGates sampleAddrs (fun i => 0x8100 + i % 0x100) numIsrs
          (idtInit sampleAddrs sampleStore).2).bytes
        (idtInit sampleAddrs sampleStore).1 (bootGdtr 0x7c80) 33 = some 0x8121 ∧
      (endState (picStart powerOn bootCtx) path).pics.acknowledge.isSome = true := by
  have hline : 1 ∈ Cascade.priorityOrder := by decide
  have hpath : IsPath (KernelPicStep ⟨0, 0, 0⟩) (picStart powerOn bootCtx)
      [(.request 1, ⟨(picInit powerOn).request 1, bootCtx, none⟩)] :=
    ⟨⟨.request (by decide) (by decide), trivial⟩, trivial⟩
  have hintr : ((picInit powerOn).request 1).acknowledge =
      some (33, ((picInit powerOn).request 1).serve 1) :=
    ((shows_picInit powerOn).request hline).acknowledge rfl
  obtain ⟨line, -, -, htarget, -⟩ := picRuns_delivered sampleAddrs_apart sampleStore_gdt
    sampleIsrs_lt powerOn ⟨rfl, rfl, rfl⟩ hpath rfl hintr
  exact ⟨[(.request 1, ⟨(picInit powerOn).request 1, bootCtx, none⟩)], htarget,
    Option.isSome_iff_exists.mpr ⟨_, hintr⟩⟩

end DonutOS.Kernel
