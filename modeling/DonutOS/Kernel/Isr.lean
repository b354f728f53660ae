import DonutOS.Foundation.Stack
import DonutOS.Kernel.Ctx

set_option autoImplicit false

/-!
# Kernel: interrupts (`kernel/src/isr_wrapper.s`, `isr.c`, `irq.c`)

The assembly between an interrupt and the C handler is run instruction by
instruction on the registers and the stack.  All stack accesses are at `esp` plus
a multiple of four, so memory is a word at each address; the globals of `ctx.c`
lie elsewhere and are kept beside it.
-/

namespace DonutOS.Kernel

open DonutOS.Foundation

/-- A segment selector. -/
abbrev Selector := BitVec 16

/-- The registers. -/
structure Cpu where
  eax : Word
  ecx : Word
  edx : Word
  ebx : Word
  esp : Word
  ebp : Word
  esi : Word
  edi : Word
  eip : Word
  eflags : Word
  cs : Selector
  ds : Selector
  es : Selector
  fs : Selector
  gs : Selector
  ss : Selector
  deriving DecidableEq, Repr, Inhabited

structure Machine where
  cpu : Cpu
  mem : Word → Word
  ctx : Ctx

/-! ## The tables of handlers -/

/-- A C function that gets the frame of an interrupt. -/
abbrev Handler := Regs → Ctx → Except Fault (Regs × Ctx)

/-- A table of handlers; `none` is `NULL`. -/
abbrev HandlerTable := Nat → Option Handler

/-- `isr_install`. -/
def isrInstall (index : Nat) (handler : Handler) (handlers : HandlerTable) : HandlerTable :=
  Function.update handlers index (some handler)

/-- `isr_handler`. -/
def isrHandler (handlers : HandlerTable) : Handler := fun rs c =>
  match handlers rs.intNo.toNat with
  | some handler => handler rs c
  | none => .ok (rs, c)

/-- `__exception_handler`. -/
def exceptionHandler : Handler := fun _ _ => .error .endless

/-- The handlers `isr_init` installs. -/
def isrInit (handlers : HandlerTable) : HandlerTable :=
  (List.range 32).foldl (fun table i => isrInstall i exceptionHandler table) handlers

/-- `__stub` of `irq.c`.  The end of interrupt it sends goes to the ports of the
interrupt controller. -/
def irqStub (handlers : HandlerTable) : Handler := fun rs c =>
  if 32 ≤ rs.intNo.toNat ∧ rs.intNo.toNat ≤ 47 then
    match handlers (rs.intNo.toNat - 32) with
    | some handler => handler rs c
    | none => .ok (rs, c)
  else .ok (rs, c)

/-- `irq_init`; `irqs` is the table of `irq.c`. -/
def irqInit (irqs handlers : HandlerTable) : HandlerTable :=
  (List.range 16).foldl (fun table i => isrInstall (i + 32) (irqStub irqs) table) handlers

/-- `irq_install`, without the mask it clears. -/
def irqInstall (i : Nat) (handler : Handler) (irqs : HandlerTable) : HandlerTable :=
  Function.update irqs i (some handler)

/-- The handler `timer_init` installs. -/
def timerInit (irqs : HandlerTable) : HandlerTable := irqInstall 0 timerHandler irqs

/-- The table of `isr.c` once all is set up. -/
def kernelHandlers (irqs : HandlerTable) : HandlerTable :=
  irqInit (timerInit irqs) (isrInit fun _ => none)

/-! ## The instructions -/

/-- The segment registers the wrapper saves. -/
inductive SegReg
  | ds | es | fs | gs
  deriving DecidableEq, Repr

inductive Instr
  | cli
  | cld
  | push (v : Word)
  | pushad
  | popad
  | pushSeg (r : SegReg)
  | popSeg (r : SegReg)
  | movAx (v : Selector)
  | movSegAx (r : SegReg)
  | pushEsp
  | callIsrHandler
  | addEsp (n : Word)
  | iret
  deriving DecidableEq, Repr

/-- `isr_common`. -/
def isrCommon : List Instr :=
  [.pushad, .pushSeg .ds, .pushSeg .es, .pushSeg .fs, .pushSeg .gs,
    .movAx 0x10, .movSegAx .ds, .movSegAx .es, .movSegAx .fs, .movSegAx .gs, .cld,
    .pushEsp, .callIsrHandler, .addEsp 4#32,
    .popSeg .gs, .popSeg .fs, .popSeg .es, .popSeg .ds,
    .popad, .addEsp 8#32, .iret]

/-- `_isr32`, from the macro `ISR_NO_ERR`. -/
def isr32 : List Instr := [.cli, .push 0, .push 32] ++ isrCommon

def Cpu.seg (cpu : Cpu) : SegReg → Selector
  | .ds => cpu.ds
  | .es => cpu.es
  | .fs => cpu.fs
  | .gs => cpu.gs

def Cpu.setSeg (r : SegReg) (v : Selector) (cpu : Cpu) : Cpu :=
  match r with
  | .ds => { cpu with ds := v }
  | .es => { cpu with es := v }
  | .fs => { cpu with fs := v }
  | .gs => { cpu with gs := v }

def Machine.push (v : Word) (m : Machine) : Machine :=
  { m with
    cpu := { m.cpu with esp := m.cpu.esp - 4#32 }
    mem := Function.update m.mem (m.cpu.esp - 4#32) v }

def Machine.pushAll (vs : List Word) (m : Machine) : Machine :=
  vs.foldl (fun m v => m.push v) m

/-- The word on top of the stack. -/
def Machine.top (m : Machine) : Word := m.mem m.cpu.esp

def Machine.addEsp (n : Word) (m : Machine) : Machine :=
  { m with cpu := { m.cpu with esp := m.cpu.esp + n } }

/-- A pop into the register that `f` writes. -/
def Machine.pop (f : Word → Cpu → Cpu) (m : Machine) : Machine :=
  { m.addEsp 4#32 with cpu := f m.top (m.addEsp 4#32).cpu }

/-- What `isr_handler` leaves in the registers it need not preserve and in the
memory below the frame, its argument included, and the flags an `add` leaves. -/
structure Scratch where
  eax : Word
  ecx : Word
  edx : Word
  eflags : Word
  mem : Word → Word

/-- The fields of `regs_t` in memory order. -/
def Regs.words (rs : Regs) : List Word :=
  [rs.gs, rs.fs, rs.es, rs.ds, rs.edi, rs.esi, rs.ebp, rs.esp, rs.ebx, rs.edx, rs.ecx, rs.eax,
    rs.intNo, rs.errNo, rs.eip, rs.cs, rs.eflags]

/-- The frame at the address `a`. -/
def loadRegs (mem : Word → Word) (a : Word) : Regs :=
  let field := fun i => mem (cell 4 a i)
  { gs := field 0, fs := field 1, es := field 2, ds := field 3
    edi := field 4, esi := field 5, ebp := field 6, esp := field 7
    ebx := field 8, edx := field 9, ecx := field 10, eax := field 11
    intNo := field 12, errNo := field 13, eip := field 14, cs := field 15
    eflags := field 16 }

def storeRegs (mem : Word → Word) (a : Word) (rs : Regs) : Word → Word :=
  storeCells 4 mem a rs.words

/-- Memory with `scratch` at the addresses below `a`. -/
def clobberBelow (scratch mem : Word → Word) (a : Word) : Word → Word := fun b =>
  if (b - a).msb = true then scratch b else mem b

/-- One instruction.  A call of `isr_handler` reads its argument, runs on the frame
there, and returns. -/
def exec (handlers : HandlerTable) (left : Scratch) (m : Machine) :
    Instr → Except Fault Machine
  | .cli => .ok { m with cpu := { m.cpu with eflags := m.cpu.eflags &&& ~~~0x200#32 } }
  | .cld => .ok { m with cpu := { m.cpu with eflags := m.cpu.eflags &&& ~~~0x400#32 } }
  | .push v => .ok (m.push v)
  | .pushad =>
      .ok (m.pushAll [m.cpu.eax, m.cpu.ecx, m.cpu.edx, m.cpu.ebx, m.cpu.esp, m.cpu.ebp,
        m.cpu.esi, m.cpu.edi])
  | .popad =>
      -- the slot of `esp` is skipped
      .ok ((((((((m.pop fun v cpu => { cpu with edi := v }).pop
        fun v cpu => { cpu with esi := v }).pop
        fun v cpu => { cpu with ebp := v }).addEsp 4#32).pop
        fun v cpu => { cpu with ebx := v }).pop
        fun v cpu => { cpu with edx := v }).pop
        fun v cpu => { cpu with ecx := v }).pop
        fun v cpu => { cpu with eax := v })
  | .pushSeg r => .ok (m.push ((m.cpu.seg r).setWidth 32))
  | .popSeg r => .ok (m.pop fun v cpu => cpu.setSeg r (v.setWidth 16))
  | .movAx v =>
      .ok { m with cpu := { m.cpu with eax := m.cpu.eax &&& ~~~0xffff#32 ||| v.setWidth 32 } }
  | .movSegAx r => .ok { m with cpu := m.cpu.setSeg r (m.cpu.eax.setWidth 16) }
  | .pushEsp => .ok (m.push m.cpu.esp)
  | .callIsrHandler => do
      let rs := m.top
      let (frame, c) ← isrHandler handlers (loadRegs m.mem rs) m.ctx
      .ok {
        cpu := { m.cpu with
          eax := left.eax, ecx := left.ecx, edx := left.edx, eflags := left.eflags }
        mem := storeRegs (clobberBelow left.mem m.mem rs) rs frame
        ctx := c }
  | .addEsp n =>
      .ok { m.addEsp n with cpu := { (m.addEsp n).cpu with eflags := left.eflags } }
  | .iret =>
      .ok (((m.pop fun v cpu => { cpu with eip := v }).pop
        fun v cpu => { cpu with cs := v.setWidth 16 }).pop
        fun v cpu => { cpu with eflags := v })

def execAll (handlers : HandlerTable) (left : Scratch) :
    List Instr → Machine → Except Fault Machine
  | [], m => .ok m
  | i :: is, m => do
      let m ← exec handlers left m i
      execAll handlers left is m

/-- An interrupt through a gate of type `0x8E` with selector `0x08`, without a
change of privilege; `entry` is the address in the gate. -/
def Machine.interrupt (entry : Word) (m : Machine) : Machine :=
  let pushed := m.pushAll [m.cpu.eflags, m.cpu.cs.setWidth 32, m.cpu.eip]
  -- IF, TF, NT, RF and VM are cleared
  { pushed with cpu := { pushed.cpu with
      eflags := m.cpu.eflags &&& ~~~0x34300#32, cs := 0x08, eip := entry } }

/-- A timer interrupt, up to and with its `iret`. -/
def timerInterrupt (irqs : HandlerTable) (entry : Word) (left : Scratch) (m : Machine) :
    Except Fault Machine :=
  execAll (kernelHandlers irqs) left isr32 (m.interrupt entry)

end DonutOS.Kernel
