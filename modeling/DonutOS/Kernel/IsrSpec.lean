import DonutOS.Kernel.CtxSpec
import DonutOS.Kernel.Isr

set_option autoImplicit false

/-!
# Kernel: what the interrupt wrapper does

The pushes of the wrapper build a `regs_t`, field by field; the pops load the
registers from it, all but `esp` and `ss`, which come out as they went in.
-/

namespace DonutOS.Kernel

open DonutOS.Foundation

/-- The frame that a timer interrupt builds from the registers. -/
def frameOf (cpu : Cpu) : Regs :=
  { gs := cpu.gs.setWidth 32, fs := cpu.fs.setWidth 32, es := cpu.es.setWidth 32
    ds := cpu.ds.setWidth 32
    edi := cpu.edi, esi := cpu.esi, ebp := cpu.ebp
    -- what `pushad` finds: five words are on the stack by then
    esp := cpu.esp - 20#32
    ebx := cpu.ebx, edx := cpu.edx, ecx := cpu.ecx, eax := cpu.eax
    intNo := 32, errNo := 0
    eip := cpu.eip, cs := cpu.cs.setWidth 32, eflags := cpu.eflags }

/-- The registers that a frame is restored to, on the stack `ss:esp`. -/
def restored (frame : Regs) (esp : Word) (ss : Selector) : Cpu :=
  { eax := frame.eax, ecx := frame.ecx, edx := frame.edx, ebx := frame.ebx, esp := esp
    ebp := frame.ebp, esi := frame.esi, edi := frame.edi, eip := frame.eip
    eflags := frame.eflags
    cs := frame.cs.setWidth 16, ds := frame.ds.setWidth 16, es := frame.es.setWidth 16
    fs := frame.fs.setWidth 16, gs := frame.gs.setWidth 16, ss := ss }

theorem restored_frameOf (cpu : Cpu) : restored (frameOf cpu) cpu.esp cpu.ss = cpu := by
  simp [restored, frameOf]

/-! ## The stack under pushes -/

/-- The stack holds `vs`, the top first. -/
def Machine.Holds (m : Machine) (vs : List Word) : Prop := StackAt 4 m.mem m.cpu.esp vs

theorem Machine.Holds.push {m : Machine} {vs : List Word} (h : m.Holds vs) (v : Word)
    (hfit : 4 * (vs.length + 1) ≤ 2 ^ 32) : (m.push v).Holds (v :: vs) :=
  StackAt.push h v (by decide) hfit

/-- A frame on the stack is the frame that is read. -/
theorem loadRegs_of_stackAt {mem : Word → Word} {a : Word} {rs : Regs}
    (h : StackAt 4 mem a rs.words) : loadRegs mem a = rs := by
  have hfield : ∀ i v, rs.words[i]? = some v → mem (cell 4 a i) = v := fun i v => h.get
  simp only [loadRegs, hfield 0 _ rfl, hfield 1 _ rfl, hfield 2 _ rfl, hfield 3 _ rfl,
    hfield 4 _ rfl, hfield 5 _ rfl, hfield 6 _ rfl, hfield 7 _ rfl, hfield 8 _ rfl,
    hfield 9 _ rfl, hfield 10 _ rfl, hfield 11 _ rfl, hfield 12 _ rfl, hfield 13 _ rfl,
    hfield 14 _ rfl, hfield 15 _ rfl, hfield 16 _ rfl]

/-! ## The wrapper -/

/-- The instructions that build the frame. -/
def isrSave : List Instr :=
  [.cli, .push 0, .push 32, .pushad, .pushSeg .ds, .pushSeg .es, .pushSeg .fs, .pushSeg .gs]

/-- The instructions that load the kernel's segments. -/
def isrSegs : List Instr :=
  [.movAx 0x10, .movSegAx .ds, .movSegAx .es, .movSegAx .fs, .movSegAx .gs, .cld]

/-- The instructions after the call of `isr_handler`. -/
def isrExit : List Instr :=
  [.addEsp 4#32, .popSeg .gs, .popSeg .fs, .popSeg .es, .popSeg .ds, .popad, .addEsp 8#32, .iret]

theorem isr32_eq : isr32 = isrSave ++ (isrSegs ++ (.pushEsp :: .callIsrHandler :: isrExit)) :=
  rfl

theorem execAll_append (handlers : HandlerTable) (left : Scratch) (is js : List Instr)
    (m : Machine) : execAll handlers left (is ++ js) m =
      execAll handlers left is m >>= execAll handlers left js := by
  induction is generalizing m with
  | nil => rfl
  | cons i is ih =>
      rw [List.cons_append, execAll, execAll, bind_assoc]
      exact congrArg _ (funext fun m => ih m)

theorem execAll_cons_ok {handlers : HandlerTable} {left : Scratch} {i : Instr}
    {m m' : Machine} (h : exec handlers left m i = .ok m') (is : List Instr) :
    execAll handlers left (i :: is) m = execAll handlers left is m' := by
  rw [execAll, h, bind_ok]

/-! ## Before the call -/

/-- `m` is `m₀` with `vs` pushed, as far as the stack goes. -/
structure Framed (m₀ : Machine) (vs : List Word) (m : Machine) : Prop where
  esp : m.cpu.esp = m₀.cpu.esp - BitVec.ofNat 32 (4 * vs.length)
  ss : m.cpu.ss = m₀.cpu.ss
  holds : m.Holds vs
  ctx : m.ctx = m₀.ctx

/-- And the registers that the wrapper saves are still those of `m₀`. -/
structure Pushed (m₀ : Machine) (vs : List Word) (m : Machine) : Prop extends
    Framed m₀ vs m where
  general : [m.cpu.eax, m.cpu.ecx, m.cpu.edx, m.cpu.ebx, m.cpu.ebp, m.cpu.esi, m.cpu.edi] =
    [m₀.cpu.eax, m₀.cpu.ecx, m₀.cpu.edx, m₀.cpu.ebx, m₀.cpu.ebp, m₀.cpu.esi, m₀.cpu.edi]
  seg : ∀ r, m.cpu.seg r = m₀.cpu.seg r

section Entry

variable {m₀ m : Machine} {vs : List Word}

theorem Framed.push (h : Framed m₀ vs m) (v : Word) (hfit : 4 * (vs.length + 1) ≤ 2 ^ 32) :
    Framed m₀ (v :: vs) (m.push v) where
  esp := by
    rw [List.length_cons, Nat.mul_succ, BitVec.ofNat_add, ← BitVec.sub_sub, ← h.esp]
    rfl
  ss := h.ss
  holds := h.holds.push v hfit
  ctx := h.ctx

theorem Pushed.push (h : Pushed m₀ vs m) (v : Word) (hfit : 4 * (vs.length + 1) ≤ 2 ^ 32) :
    Pushed m₀ (v :: vs) (m.push v) :=
  ⟨h.toFramed.push v hfit, h.general, h.seg⟩

theorem Pushed.pushAll (us : List Word) (h : Pushed m₀ vs m)
    (hfit : 4 * (vs.length + us.length) ≤ 2 ^ 32) :
    Pushed m₀ (us.reverse ++ vs) (m.pushAll us) := by
  induction us generalizing vs m with
  | nil => exact h
  | cons u us ih =>
      rw [List.length_cons] at hfit
      have hrest : 4 * ((u :: vs).length + us.length) ≤ 2 ^ 32 := by
        rw [List.length_cons]
        omega
      rw [List.reverse_cons, List.append_assoc]
      exact ih (h.push u (by omega)) hrest

theorem pushed_interrupt (m : Machine) (entry : Word) :
    Pushed m [m.cpu.eip, m.cpu.cs.setWidth 32, m.cpu.eflags] (m.interrupt entry) := by
  have hempty : Pushed m [] m :=
    ⟨⟨(BitVec.sub_zero _).symm, rfl, stackAt_nil _ _ _, rfl⟩, rfl, fun _ => rfl⟩
  have hall := hempty.pushAll [m.cpu.eflags, m.cpu.cs.setWidth 32, m.cpu.eip] (by simp)
  refine ⟨⟨hall.esp, hall.ss, hall.holds, hall.ctx⟩, hall.general, fun r => ?_⟩
  cases r with
  | ds => rfl
  | es => rfl
  | fs => rfl
  | gs => rfl

variable (handlers : HandlerTable) (left : Scratch)

theorem Pushed.exec_cli (h : Pushed m₀ vs m) :
    ∃ m', exec handlers left m .cli = .ok m' ∧ Pushed m₀ vs m' := by
  refine ⟨_, rfl, ⟨h.esp, h.ss, h.holds, h.ctx⟩, h.general, fun r => ?_⟩
  rw [← h.seg r]
  cases r with
  | ds => rfl
  | es => rfl
  | fs => rfl
  | gs => rfl

theorem Pushed.exec_push (h : Pushed m₀ vs m) (v : Word)
    (hfit : 4 * (vs.length + 1) ≤ 2 ^ 32) :
    ∃ m', exec handlers left m (.push v) = .ok m' ∧ Pushed m₀ (v :: vs) m' :=
  ⟨_, rfl, h.push v hfit⟩

theorem Pushed.exec_pushSeg (h : Pushed m₀ vs m) (r : SegReg)
    (hfit : 4 * (vs.length + 1) ≤ 2 ^ 32) :
    ∃ m', exec handlers left m (.pushSeg r) = .ok m' ∧
      Pushed m₀ ((m₀.cpu.seg r).setWidth 32 :: vs) m' :=
  ⟨_, rfl, h.seg r ▸ h.push _ hfit⟩

/-- The eight registers, with `esp` as the instruction found it. -/
theorem Pushed.exec_pushad (h : Pushed m₀ vs m) (hfit : 4 * (vs.length + 8) ≤ 2 ^ 32) :
    ∃ m', exec handlers left m .pushad = .ok m' ∧
      Pushed m₀ ([m₀.cpu.edi, m₀.cpu.esi, m₀.cpu.ebp,
        m₀.cpu.esp - BitVec.ofNat 32 (4 * vs.length), m₀.cpu.ebx, m₀.cpu.edx, m₀.cpu.ecx,
        m₀.cpu.eax] ++ vs) m' := by
  have hgeneral := h.general
  simp only [List.cons.injEq, and_true] at hgeneral
  obtain ⟨heax, hecx, hedx, hebx, hebp, hesi, hedi⟩ := hgeneral
  refine ⟨_, rfl, ?_⟩
  rw [← h.esp, ← heax, ← hecx, ← hedx, ← hebx, ← hebp, ← hesi, ← hedi]
  exact h.pushAll [_, _, _, _, _, _, _, _] hfit

/-- The instructions that touch neither the stack nor `esp`. -/
def Instr.Quiet : Instr → Prop
  | .cld => True
  | .movAx _ => True
  | .movSegAx _ => True
  | _ => False

theorem Framed.exec_quiet (h : Framed m₀ vs m) {i : Instr} (hi : i.Quiet) :
    ∃ m', exec handlers left m i = .ok m' ∧ Framed m₀ vs m' := by
  cases i with
  | cld => exact ⟨_, rfl, h.esp, h.ss, h.holds, h.ctx⟩
  | movAx v => exact ⟨_, rfl, h.esp, h.ss, h.holds, h.ctx⟩
  | movSegAx r =>
      cases r with
      | ds => exact ⟨_, rfl, h.esp, h.ss, h.holds, h.ctx⟩
      | es => exact ⟨_, rfl, h.esp, h.ss, h.holds, h.ctx⟩
      | fs => exact ⟨_, rfl, h.esp, h.ss, h.holds, h.ctx⟩
      | gs => exact ⟨_, rfl, h.esp, h.ss, h.holds, h.ctx⟩
  | _ => exact absurd hi not_false

theorem Framed.execAll_quiet {is : List Instr} (h : Framed m₀ vs m)
    (his : ∀ i ∈ is, i.Quiet) :
    ∃ m', execAll handlers left is m = .ok m' ∧ Framed m₀ vs m' := by
  induction is generalizing m with
  | nil => exact ⟨m, rfl, h⟩
  | cons i is ih =>
      obtain ⟨m₁, hexec, h₁⟩ := h.exec_quiet handlers left (his i List.mem_cons_self)
      rw [execAll_cons_ok hexec]
      exact ih h₁ fun j hj => his j (List.mem_cons_of_mem _ hj)

/-- The pushes build the frame of the interrupt. -/
theorem execAll_isrSave (entry : Word) (m : Machine) :
    ∃ m', execAll handlers left isrSave (m.interrupt entry) = .ok m' ∧
      Framed m (frameOf m.cpu).words m' := by
  obtain ⟨m₁, hcli, h₁⟩ := (pushed_interrupt m entry).exec_cli handlers left
  obtain ⟨m₂, herr, h₂⟩ := h₁.exec_push handlers left 0 (by simp)
  obtain ⟨m₃, hint, h₃⟩ := h₂.exec_push handlers left 32 (by simp)
  obtain ⟨m₄, hall, h₄⟩ := h₃.exec_pushad handlers left (by simp)
  obtain ⟨m₅, hds, h₅⟩ := h₄.exec_pushSeg handlers left .ds (by simp)
  obtain ⟨m₆, hes, h₆⟩ := h₅.exec_pushSeg handlers left .es (by simp)
  obtain ⟨m₇, hfs, h₇⟩ := h₆.exec_pushSeg handlers left .fs (by simp)
  obtain ⟨m₈, hgs, h₈⟩ := h₇.exec_pushSeg handlers left .gs (by simp)
  refine ⟨m₈, ?_, h₈.toFramed⟩
  rw [isrSave, execAll_cons_ok hcli, execAll_cons_ok herr, execAll_cons_ok hint,
    execAll_cons_ok hall, execAll_cons_ok hds, execAll_cons_ok hes, execAll_cons_ok hfs,
    execAll_cons_ok hgs, execAll]

end Entry

/-! ## The call and the pops -/

/-- From the frame on the stack the registers are restored, but for `ss:esp`. -/
theorem execAll_isrExit (handlers : HandlerTable) (left : Scratch) {m : Machine} {a : Word}
    {frame : Regs} (hesp : m.cpu.esp + 4#32 = a) (hframe : StackAt 4 m.mem a frame.words) :
    execAll handlers left isrExit m =
      .ok { m with cpu := restored frame (a + 68#32) m.cpu.ss } := by
  obtain ⟨hgs, hfs, hes, hds, hedi, hesi, hebp, _, hebx, hedx, hecx, heax, _, _, heip, hcs,
    heflags, _⟩ := hframe
  have hskip : ∀ x : Word, x + 8#32 = x + 4#32 + 4#32 := by
    intro x
    rw [BitVec.add_assoc]
    rfl
  have hend : a + 4#32 + 4#32 + 4#32 + 4#32 + 4#32 + 4#32 + 4#32 + 4#32 + 4#32 + 4#32 + 4#32 +
      4#32 + 4#32 + 4#32 + 4#32 + 4#32 + 4#32 = a + 68#32 := by
    simp only [BitVec.add_assoc]
    rfl
  simp only [isrExit, execAll, exec, bind_ok, Machine.pop, Machine.addEsp, Machine.top, Cpu.setSeg,
    hskip, hesp, hgs, hfs, hes, hds, hedi, hesi, hebp, hebx, hedx, hecx, heax, heip, hcs, heflags,
    hend]
  rfl

/-- Up to the call: the frame is on the stack at `a`, and its address is pushed. -/
theorem execAll_isr32_call (handlers : HandlerTable) (left : Scratch) (entry : Word)
    (m : Machine) :
    ∃ a m', execAll handlers left isr32 (m.interrupt entry) =
        execAll handlers left (.callIsrHandler :: isrExit) m' ∧
      m'.top = a ∧ m'.cpu.esp + 4#32 = a ∧ a + 68#32 = m.cpu.esp ∧
      loadRegs m'.mem a = frameOf m.cpu ∧ m'.cpu.ss = m.cpu.ss ∧ m'.ctx = m.ctx := by
  obtain ⟨m₁, hsave, h₁⟩ := execAll_isrSave handlers left entry m
  have hquiet : ∀ i ∈ isrSegs, i.Quiet := by simp [isrSegs, Instr.Quiet]
  obtain ⟨m₂, hsegs, h₂⟩ := h₁.execAll_quiet handlers left hquiet
  have h₃ := h₂.push m₂.cpu.esp (by simp [Regs.words])
  have hpush : exec handlers left m₂ .pushEsp = .ok (m₂.push m₂.cpu.esp) := rfl
  have hcancel : (m₂.push m₂.cpu.esp).cpu.esp + 4#32 = m₂.cpu.esp :=
    BitVec.sub_add_cancel _ _
  refine ⟨m₂.cpu.esp, m₂.push m₂.cpu.esp, ?_, h₃.holds.1, hcancel, ?_, ?_, h₃.ss, h₃.ctx⟩
  · rw [isr32_eq, execAll_append, hsave, bind_ok, execAll_append, hsegs, bind_ok,
      execAll_cons_ok hpush]
  · rw [h₂.esp]
    exact BitVec.sub_add_cancel _ _
  · have hstack : StackAt 4 (m₂.push m₂.cpu.esp).mem ((m₂.push m₂.cpu.esp).cpu.esp + 4#32)
        (frameOf m.cpu).words := h₃.holds.2
    rw [hcancel] at hstack
    exact loadRegs_of_stackAt hstack

/-- The handler gets the frame of the interrupt; what it leaves in the frame is
restored, but for `ss:esp`. -/
theorem execAll_isr32 {handlers : HandlerTable} (left : Scratch) (entry : Word) {m : Machine}
    {frame : Regs} {c : Ctx}
    (hcall : isrHandler handlers (frameOf m.cpu) m.ctx = .ok (frame, c)) :
    ∃ mem, execAll handlers left isr32 (m.interrupt entry) =
      .ok ⟨restored frame m.cpu.esp m.cpu.ss, mem, c⟩ := by
  obtain ⟨a, m', hentry, htop, hesp, hsp, hload, hss, hctx⟩ :=
    execAll_isr32_call handlers left entry m
  rw [hentry, execAll, exec, htop, hload, hctx, hcall, bind_ok, bind_ok]
  have hframe : StackAt 4 (storeRegs (clobberBelow left.mem m'.mem a) a frame) a frame.words :=
    stackAt_storeCells _ (by decide) (by simp [Regs.words])
  refine ⟨storeRegs (clobberBelow left.mem m'.mem a) a frame,
    Eq.trans (execAll_isrExit handlers left hesp hframe) ?_⟩
  rw [hsp, ← hss]

theorem execAll_isr32_error {handlers : HandlerTable} (left : Scratch) (entry : Word)
    {m : Machine} {f : Fault}
    (hcall : isrHandler handlers (frameOf m.cpu) m.ctx = .error f) :
    execAll handlers left isr32 (m.interrupt entry) = .error f := by
  obtain ⟨a, m', hentry, htop, _, _, hload, _, hctx⟩ :=
    execAll_isr32_call handlers left entry m
  rw [hentry, execAll, exec, htop, hload, hctx, hcall]
  rfl

/-! ## The timer interrupt -/

theorem foldl_isrInstall (handler : Handler) (k n : Nat) (handlers : HandlerTable) (j : Nat) :
    (List.range n).foldl (fun table i => isrInstall (i + k) handler table) handlers j =
      if k ≤ j ∧ j < k + n then some handler else handlers j := by
  induction n with
  | zero => rw [if_neg (by omega)]; rfl
  | succ n ih =>
      rw [List.range_succ, List.foldl_append]
      change isrInstall (n + k) handler _ j = _
      by_cases hj : j = n + k
      · rw [if_pos (by omega), hj]
        exact Function.update_self _ _ _
      · rw [isrInstall, Function.update_of_ne hj, ih]
        exact if_congr (by omega) rfl rfl

/-- The tables lead from interrupt 32 to `timer_handler`. -/
theorem isrHandler_timer (irqs : HandlerTable) (cpu : Cpu) (c : Ctx) :
    isrHandler (kernelHandlers irqs) (frameOf cpu) c = timerHandler (frameOf cpu) c := by
  have hentry : kernelHandlers irqs 32 = some (irqStub (timerInit irqs)) := by
    rw [kernelHandlers, irqInit, foldl_isrInstall, if_pos (by decide)]
  have hstub : irqStub (timerInit irqs) (frameOf cpu) c = timerHandler (frameOf cpu) c := rfl
  have hnumber : (frameOf cpu).intNo.toNat = 32 := rfl
  simp only [isrHandler, hnumber, hentry]
  exact hstub

/-- A timer interrupt is a call of `timer_handler` on the frame of the registers. -/
theorem timerInterrupt_ok {irqs : HandlerTable} {entry : Word} {left : Scratch}
    {m m' : Machine} (h : timerInterrupt irqs entry left m = .ok m') :
    ∃ frame, timerHandler (frameOf m.cpu) m.ctx = .ok (frame, m'.ctx) ∧
      m'.cpu = restored frame m.cpu.esp m.cpu.ss := by
  rw [timerInterrupt] at h
  cases hcall : timerHandler (frameOf m.cpu) m.ctx with
  | error f =>
      rw [← isrHandler_timer irqs] at hcall
      rw [execAll_isr32_error left entry hcall] at h
      exact Except.noConfusion rfl rfl (heq_of_eq h)
  | ok result =>
      obtain ⟨frame, c⟩ := result
      rw [← isrHandler_timer irqs] at hcall
      obtain ⟨mem, hexec⟩ := execAll_isr32 left entry hcall
      rw [hexec, Except.ok.injEq] at h
      subst h
      exact ⟨frame, rfl, rfl⟩

theorem timerInterrupt_of_timerHandler (irqs : HandlerTable) (entry : Word) (left : Scratch)
    {m : Machine} {frame : Regs} {c : Ctx}
    (h : timerHandler (frameOf m.cpu) m.ctx = .ok (frame, c)) :
    ∃ mem, timerInterrupt irqs entry left m =
      .ok ⟨restored frame m.cpu.esp m.cpu.ss, mem, c⟩ := by
  rw [← isrHandler_timer irqs] at h
  exact execAll_isr32 left entry h

end DonutOS.Kernel
