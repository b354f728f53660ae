import DonutOS.Kernel.Paging

set_option autoImplicit false

/-!
# Kernel: processes and the scheduler (`kernel/src/ctx.c`)

Task control blocks live in the heap; here they are a function from addresses to
records, with the list of those that are allocated.  The address `malloc`
returns for a new one is a parameter of the function that asks for it.
Dereferencing `NULL` is an error, and so is a loop that does not end.
-/

namespace DonutOS.Kernel

open DonutOS.Foundation

/-- `regs_t`: the frame an interrupt leaves on the stack, lowest address
first. -/
structure Regs where
  gs : Word
  fs : Word
  es : Word
  ds : Word
  edi : Word
  esi : Word
  ebp : Word
  esp : Word
  ebx : Word
  edx : Word
  ecx : Word
  eax : Word
  intNo : Word
  errNo : Word
  eip : Word
  cs : Word
  eflags : Word
  deriving DecidableEq, Repr, Inhabited

/-- `tcb_t`.  Pointers are addresses, `0` is `NULL`. -/
structure Tcb where
  pid : Nat
  dead : Bool
  fn : Nat
  nPages : Nat
  fstPage : Nat
  next : Nat
  regs : Regs
  deriving DecidableEq, Repr, Inhabited

/-- The globals of `ctx.c` and what its functions use of the rest of the
kernel: the tick counter, the page bitmap, and the allocated blocks. -/
structure Ctx where
  nextPid : Nat
  schedulerOn : Bool
  lockCtx : Nat
  fstProc : Nat
  lstProc : Nat
  currProc : Nat
  lastTicks : Nat
  ticks : Nat
  tcbs : Nat → Tcb
  allocated : List Nat
  pageBitmap : PageBitmap

/-- The globals as they are initialised, with no page taken and no block allocated. -/
def bootCtx : Ctx :=
  { nextPid := 0, schedulerOn := false, lockCtx := 0, fstProc := 0, lstProc := 0
    currProc := 0, lastTicks := 0, ticks := 0, tcbs := fun _ => default, allocated := []
    pageBitmap := fun _ => 0 }

/-- What stops a function of the kernel. -/
inductive Fault
  | nullDeref
  | endless
  deriving DecidableEq, Repr

/-- `QUANTUM`. -/
def quantum : Nat := 10

/-- `sizeof(regs_t)`. -/
def sizeofRegs : Nat := 68

/-! ## Access to control blocks -/

/-- Read the block at `p`. -/
def readTcb (c : Ctx) (p : Nat) : Except Fault Tcb :=
  if p = 0 then .error .nullDeref else .ok (c.tcbs p)

/-- Change the block at `p`. -/
def modifyTcb (p : Nat) (f : Tcb → Tcb) (c : Ctx) : Except Fault Ctx :=
  if p = 0 then .error .nullDeref
  else .ok { c with tcbs := Function.update c.tcbs p (f (c.tcbs p)) }

/-- `free`, on a control block. -/
def freeTcb (p : Nat) (c : Ctx) : Ctx :=
  { c with allocated := c.allocated.filter fun q => q ≠ p }

/-! ## Processes -/

/-- The frame `spawn_process` builds for a new process on the pages at `page`:
`stub` is the address of `__stub`. -/
def spawnRegs (stub page nPages : Nat) (rs : Regs) : Regs :=
  -- `(size_t*)page + PAGE_SIZE * n_pages - stack_size` counts in `size_t`s
  let esp := (page + 4 * (pageSize * nPages) + (2 ^ 32 - 4 * sizeofRegs)) % 2 ^ 32 &&& 0xf
  { gs := rs.gs, fs := rs.fs, es := rs.es, ds := rs.ds
    edi := 0, esi := 0
    ebp := BitVec.ofNat 32 (esp + 4 * sizeofRegs)
    esp := BitVec.ofNat 32 esp
    ebx := 0, edx := 0, ecx := 0, eax := 0
    intNo := rs.intNo, errNo := rs.errNo
    eip := BitVec.ofNat 32 stub, cs := rs.cs, eflags := rs.eflags }

/-- `spawn_process`; `answer` is what `malloc` returns for the control block. -/
def spawnProcess (stub answer : Nat) (rs : Regs) (fn nPages : Nat) (c : Ctx) :
    Except Fault (Nat × Ctx) :=
  match allocPages nPages c.pageBitmap with
  | (none, bm) => .ok (1, { c with pageBitmap := bm })
  | (some page, bm) => do
      let newProc : Tcb :=
        { pid := c.nextPid, dead := false, fn := fn, nPages := nPages, fstPage := page
          next := 0, regs := spawnRegs stub page nPages rs }
      let c := { c with
        pageBitmap := bm
        allocated := answer :: c.allocated
        nextPid := (c.nextPid + 1) % 2 ^ 32 }
      let c ← modifyTcb answer (fun _ => newProc) c
      let c ← modifyTcb c.lstProc (fun t => { t with next := answer }) c
      let c := { c with lstProc := answer }
      let c ← modifyTcb answer (fun t => { t with next := c.fstProc }) c
      .ok (0, c)

/-- `spawn_kernel_process`; `answer` is what `malloc` returns. -/
def spawnKernelProcess (answer : Nat) (rs : Regs) (c : Ctx) : Nat × Ctx :=
  if answer = 0 then (1, { c with currProc := 0 })
  else
    (0, { c with
      currProc := answer, fstProc := answer, lstProc := answer
      nextPid := (c.nextPid + 1) % 2 ^ 32
      allocated := answer :: c.allocated
      tcbs := Function.update c.tcbs answer
        { pid := c.nextPid, dead := false, fn := 0, nPages := 0, fstPage := 0
          next := answer, regs := rs } })

/-- `__stub`, when the process function has returned. -/
def stubFinish (c : Ctx) : Except Fault Ctx :=
  modifyTcb c.currProc (fun t => { t with dead := true }) c

/-! ## The scheduler -/

/-- `switch_ctx`. -/
def switchCtx (rs : Regs) (c : Ctx) : Except Fault (Regs × Ctx) := do
  let c ← modifyTcb c.currProc (fun t => { t with regs := rs }) c
  let curr ← readTcb c c.currProc
  let c := { c with currProc := curr.next }
  let curr ← readTcb c c.currProc
  .ok (curr.regs, c)

/-- The loop of `scheduler` that frees the dead processes behind the current
one. -/
def reapLoop : Nat → Ctx → Except Fault Ctx
  | 0, _ => .error .endless
  | fuel + 1, c => do
      let curr ← readTcb c c.currProc
      let tmp ← readTcb c curr.next
      if tmp.dead then
        let c := { c with pageBitmap := freePages tmp.fstPage tmp.nPages c.pageBitmap }
        let c ← modifyTcb c.currProc (fun t => { t with next := tmp.next }) c
        reapLoop fuel (freeTcb curr.next c)
      else .ok c

/-- `scheduler`: the frame it leaves in `*rs`, and the state. -/
def scheduler (rs : Regs) (c : Ctx) : Except Fault (Regs × Ctx) :=
  let now := c.ticks
  if c.schedulerOn = true ∧ (c.lastTicks + quantum) % 2 ^ 32 < now then
    let c := { c with lastTicks := now }
    if c.lockCtx = 0 then do
      let curr ← readTcb c c.currProc
      if curr.next ≠ c.currProc then
        let c ← reapLoop (c.allocated.length + 1) c
        switchCtx rs c
      else .ok (rs, c)
    else .ok (rs, c)
  else .ok (rs, c)

/-- `timer_handler` (`kernel/src/timer.c`). -/
def timerHandler (rs : Regs) (c : Ctx) : Except Fault (Regs × Ctx) :=
  scheduler rs { c with ticks := (c.ticks + 1) % 2 ^ 32 }

/-! ## The debug entry points -/

/-- The addresses of `__stub`, `process_x` and `process_y`. -/
structure CodeAddrs where
  stub : Nat
  processX : Nat
  processY : Nat

/-- What `malloc` returns for the three control blocks of
`__spawn_dummy_processes`. -/
structure DummyBlocks where
  kernel : Nat
  x : Nat
  y : Nat

/-- `__spawn_dummy_processes`; the flag says which of its two messages is
printed, `true` for the error. -/
def spawnDummyProcesses (code : CodeAddrs) (blocks : DummyBlocks) (rs : Regs) (c : Ctx) :
    Except Fault (Bool × Ctx) := do
  let (k, c) := spawnKernelProcess blocks.kernel rs c
  let (x, c) ← spawnProcess code.stub blocks.x rs code.processX 8 c
  let (y, c) ← spawnProcess code.stub blocks.y rs code.processY 1 c
  .ok (k ≠ 0 || x ≠ 0 || y ≠ 0, c)

/-- `__proc_kb_debug`, which the release of the right shift key calls.
`fstPress` is its `fst_press`; the first result is the flag of
`__spawn_dummy_processes`, where that runs. -/
def procKbDebug (code : CodeAddrs) (blocks : DummyBlocks) (rs : Regs) (fstPress : Bool)
    (c : Ctx) : Except Fault (Bool × Bool × Ctx) :=
  if fstPress = true then do
    let (failed, c) ← spawnDummyProcesses code blocks rs c
    .ok (failed, false, c)
  else .ok (false, fstPress, { c with schedulerOn := !c.schedulerOn })

/-- `__process_test`, which the shell's `process` command calls. -/
def processTest (c : Ctx) : Ctx := { c with currProc := c.fstProc, schedulerOn := true }

end DonutOS.Kernel
