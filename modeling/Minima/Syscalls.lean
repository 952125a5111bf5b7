/-
System calls (`syscalls.c`, and `irq_common` and `do_irq` of `idt.c`).

`int 0x80` of a user task pushes `ss`, `esp`, `eflags`, `cs` and `eip` on the kernel
stack of the task; `irq128` and `irq_common` push the other registers on top of
them and pass a pointer to this `struct irq_regs` to `do_irq`, which calls
`do_syscall`.  On the way back the registers are popped again, so that the user
gets back what was pushed.

* `Instr`, `irqCommonEntry`, `irqCommonExit` — the assembly, instruction by
  instruction, on a stack of words;
* `doSyscall` — a computation that records which handler it calls, which entries of
  `current->files` it reads and what the handler returns;
* `int80_eq` — a system call that returns to the user leaves all registers as they
  were, `eax` included: the result of the handler is lost;
* `Contract` — what a system call should do;
* `contract_iff` — it does so only when nothing is to be returned, or when the result
  happens to be the number of the system call.
-/
import Minima.Traced
import Mathlib.Data.BitVec
import Mathlib.Tactic.IntervalCases

namespace Syscalls

open Traced (bind_of_ok ofOption_some pure_bind_eq stop)
open List

/-! ### Entering and leaving the kernel -/

abbrev Word := BitVec 32

abbrev Selector := BitVec 16

structure Cpu where
  eax : Word
  ecx : Word
  edx : Word
  ebx : Word
  esp : Word
  ebp : Word
  esi : Word
  edi : Word
  ds : Selector
  es : Selector
  fs : Selector
  gs : Selector
  cs : Selector
  ss : Selector
  eip : Word
  eflags : Word

inductive Seg
  | ds
  | es
  | fs
  | gs

def Cpu.seg (c : Cpu) : Seg → Selector
  | .ds => c.ds
  | .es => c.es
  | .fs => c.fs
  | .gs => c.gs

def Cpu.setSeg (c : Cpu) (v : Selector) : Seg → Cpu
  | .ds => { c with ds := v }
  | .es => { c with es := v }
  | .fs => { c with fs := v }
  | .gs => { c with gs := v }

/-- The registers, and what is on the kernel stack of the task, top first. -/
structure Machine where
  cpu : Cpu
  stack : List Word

def Machine.push (m : Machine) (w : Word) : Machine :=
  ⟨{ m.cpu with esp := m.cpu.esp - 4 }, w :: m.stack⟩

def Machine.pop (m : Machine) : Option (Word × Machine) :=
  match m.stack with
  | [] => none
  | w :: stack => some (w, ⟨{ m.cpu with esp := m.cpu.esp + 4 }, stack⟩)

/-- The instructions of `irq128` and `irq_common`. -/
inductive Instr
  | push (imm : Word)
  | pushad
  | pushSeg (s : Seg)
  | pushEbx
  | movBx (imm : BitVec 16)
  | movSegBx (s : Seg)
  | popEbx
  | pushEsp
  | addEsp (n : ℕ)
  | popSeg (s : Seg)
  | popad
  | iret

/-- What an instruction does; there is no value when it reads beyond the top of the
kernel stack.  The `esp` that `pushad` stores is the one before it, and `popad` skips
it.  This `iret` returns to user mode, hence it pops `esp` and `ss` too. -/
def Instr.exec : Instr → Machine → Option Machine
  | .push imm, m => some (m.push imm)
  | .pushad, m =>
    some ((((((((m.push m.cpu.eax).push m.cpu.ecx).push m.cpu.edx).push m.cpu.ebx).push
      m.cpu.esp).push m.cpu.ebp).push m.cpu.esi).push m.cpu.edi)
  | .pushSeg s, m => some (m.push ((m.cpu.seg s).setWidth 32))
  | .pushEbx, m => some (m.push m.cpu.ebx)
  | .movBx imm, m =>
    some { m with cpu.ebx := (m.cpu.ebx &&& 0xFFFF0000) ||| imm.setWidth 32 }
  | .movSegBx s, m => some { m with cpu := m.cpu.setSeg (m.cpu.ebx.setWidth 16) s }
  | .popEbx, m => do
    let (w, m) ← m.pop
    return { m with cpu.ebx := w }
  | .pushEsp, m => some (m.push m.cpu.esp)
  | .addEsp n, m =>
    if n / 4 ≤ m.stack.length then
      some ⟨{ m.cpu with esp := m.cpu.esp + BitVec.ofNat 32 n }, m.stack.drop (n / 4)⟩
    else none
  | .popSeg s, m => do
    let (w, m) ← m.pop
    return { m with cpu := m.cpu.setSeg (w.setWidth 16) s }
  | .popad, m =>
    match m.stack with
    | edi :: esi :: ebp :: _ :: ebx :: edx :: ecx :: eax :: stack =>
      some ⟨{ m.cpu with edi, esi, ebp, ebx, edx, ecx, eax, esp := m.cpu.esp + 32 }, stack⟩
    | _ => none
  | .iret, m =>
    match m.stack with
    | eip :: cs :: eflags :: esp :: ss :: stack =>
      some ⟨{ m.cpu with
        eip, eflags, esp, cs := cs.setWidth 16, ss := ss.setWidth 16 }, stack⟩
    | _ => none

def run (l : List Instr) (m : Machine) : Option Machine := l.foldlM (fun m i => i.exec m) m

/-- `irq128` -/
def irq128 : List Instr := [.push 0, .push 128]

/-- `irq_common`, up to the call of `do_irq`. -/
def irqCommonEntry : List Instr :=
  [.pushad, .pushSeg .ds, .pushSeg .es, .pushSeg .fs, .pushSeg .gs, .pushEbx, .movBx 0x10,
    .movSegBx .ds, .movSegBx .es, .movSegBx .fs, .movSegBx .gs, .popEbx, .pushEsp]

/-- `irq_common`, after the call of `do_irq`. -/
def irqCommonExit : List Instr :=
  [.addEsp 4, .popSeg .gs, .popSeg .fs, .popSeg .es, .popSeg .ds, .popad, .addEsp 8, .iret]

/-- What the processor does at an interrupt in user mode: the stack is the kernel
stack of the task, which is empty.  The gate is an interrupt gate, hence `IF` is
cleared (and `TF`, `NT`, `RF` and `VM`). -/
def interrupt (esp0 : Word) (u : Cpu) : Machine :=
  let m : Machine := ⟨{ u with
    esp := esp0, cs := 0x08, ss := 0x10, eflags := u.eflags &&& ~~~0x34300 }, []⟩
  ((((m.push (u.ss.setWidth 32)).push u.esp).push u.eflags).push (u.cs.setWidth 32)).push u.eip

/-- `struct irq_regs` -/
structure IrqRegs where
  gs : Word
  fs : Word
  es : Word
  ds : Word
  edi : Word
  esi : Word
  ebp : Word
  esp : Word
  ebx : Word
  edx : Word
  ecx : Word
  eax : Word
  irqNum : Word
  error : Word
  eip : Word
  cs : Word
  eflags : Word

/-- The structure that begins at the top of some stack. -/
def IrqRegs.ofStack : List Word → Option IrqRegs
  | gs :: fs :: es :: ds :: edi :: esi :: ebp :: esp :: ebx :: edx :: ecx :: eax :: irqNum ::
      error :: eip :: cs :: eflags :: _ =>
    some ⟨gs, fs, es, ds, edi, esi, ebp, esp, ebx, edx, ecx, eax, irqNum, error, eip, cs, eflags⟩
  | _ => none

/-! ### `do_irq`, `do_syscall` and the handlers -/

/-- What a handler pointer points at. -/
inductive Handler
  | null
  | sysExit
  | sysSleep
  | sysRead
  | sysWrite
  /-- some other address -/
  | code (addr : Word)
deriving DecidableEq

/-- `struct syscall` -/
structure Entry where
  handler : Handler
  args : ℕ
deriving DecidableEq

/-- `syscalls[]` -/
def syscalls : List Entry := [⟨.sysExit, 1⟩, ⟨.sysSleep, 1⟩, ⟨.sysRead, 3⟩, ⟨.sysWrite, 3⟩]

inductive Event
  /-- `do_syscall` calls the handler of entry `i` -/
  | dispatch (i : Word) (h : Handler) (args : List Word)
  /-- `current->files[fd]` is read -/
  | files (fd : ℤ)
  /-- the handler returns -/
  | ret (v : Word)

/-- Why a system call does not return to the user. -/
inductive Stop
  /-- the task has become `ts_stopping`: `sched` does not return -/
  | terminated
  /-- the kernel runs code that is not the code of a handler -/
  | wild
  /-- the kernel stack has been read beyond its top -/
  | stackFault
deriving DecidableEq

/-- What the kernel finds outside the functions modelled here.  An address that is not mapped, or a
call that does not come back, ends the task. -/
structure Env where
  /-- the kernel stack that `g_tss` points to -/
  esp0 : Word
  /-- the `struct syscall` that memory holds `i` entries after the start of the table,
  for an `i` beyond its end; nothing if there is no memory -/
  beyond : ℕ → Option Entry
  /-- `current->files[fd]`; 0 is `NULL` -/
  file : ℤ → Option Word
  vfsRead : Word → Word → Word → Option Word
  vfsWrite : Word → Word → Word → Option Word
  /-- `pic_get_isr` -/
  picIsr : Word
  /-- the handlers of the other interrupts -/
  irqHandler : IrqRegs → Traced Event Stop Word
  /-- what compiled code leaves in `ecx`, `edx` and `eflags`, and in the word of its
  argument -/
  scratch : Word × Word × Word × Word
  /-- what a handler finds in the place of an argument it has not been given -/
  junk : Word

def einval : Word := 2

def ebadf : Word := 7

/-- `sys$read` and `sys$write`: the same but for the function of the file system. -/
def sysTransfer (env : Env) (vfs : Word → Word → Word → Option Word) (fd buf count : Word) :
    Traced Event Stop Word := do
  .call (.files fd.toInt)
  let f ← .ofOption .terminated (env.file fd.toInt)
  if f = 0 then return -ebadf
  .ofOption .terminated (vfs f buf count)

/-- `sys$read` -/
def sysRead (env : Env) : Word → Word → Word → Traced Event Stop Word :=
  sysTransfer env env.vfsRead

/-- `sys$write` -/
def sysWrite (env : Env) : Word → Word → Word → Traced Event Stop Word :=
  sysTransfer env env.vfsWrite

/-- `sys$sleep` -/
def sysSleep (ms : Word) : Traced Event Stop Word :=
  if ms.toInt < 1 then return -einval else return 0

/-- The call through the pointer, with the arguments on the stack. -/
def runHandler (env : Env) (h : Handler) (args : List Word) : Traced Event Stop Word :=
  let arg i := args.getD i env.junk
  match h with
  | .null => .stop .wild
  | .sysExit => .stop .terminated
  | .sysSleep => sysSleep (arg 0)
  | .sysRead => sysRead env (arg 0) (arg 1) (arg 2)
  | .sysWrite => sysWrite env (arg 0) (arg 1) (arg 2)
  | .code _ => .stop .wild

def callHandler (env : Env) (i : Word) (h : Handler) (args : List Word) :
    Traced Event Stop Word := do
  .call (.dispatch i h args)
  let v ← runHandler env h args
  .call (.ret v)
  return v

/-- `syscalls[i]`: an entry has eight bytes, and the address wraps around. -/
def Env.fetch (env : Env) (i : Word) : Option Entry :=
  let n := i.toNat * 8 % 2 ^ 32 / 8
  match syscalls[n]? with
  | some sc => some sc
  | none => env.beyond n

/-- The `switch` of `do_syscall`. -/
def passArgs (env : Env) (regs : IrqRegs) (sc : Entry) : Traced Event Stop Word :=
  match sc.args with
  | 0 => callHandler env regs.eax sc.handler []
  | 1 => callHandler env regs.eax sc.handler [regs.ebx]
  | 2 => callHandler env regs.eax sc.handler [regs.ebx, regs.ecx]
  | 3 => callHandler env regs.eax sc.handler [regs.ebx, regs.ecx, regs.edx]
  | 4 => callHandler env regs.eax sc.handler [regs.ebx, regs.ecx, regs.edx, regs.esi]
  | 5 => callHandler env regs.eax sc.handler [regs.ebx, regs.ecx, regs.edx, regs.esi, regs.edi]
  | 6 => callHandler env regs.eax sc.handler
      [regs.ebx, regs.ecx, regs.edx, regs.esi, regs.edi, regs.ebp]
  | _ => return 0

/-- `do_syscall` -/
def doSyscall (env : Env) (regs : IrqRegs) : Traced Event Stop Word := do
  let sc ← .ofOption .terminated (env.fetch regs.eax)
  -- `current->state = ts_stopping; sched();`
  (if sc.handler = .null then .stop .terminated else passArgs env regs sc)

/-- `do_irq` -/
def doIrq (env : Env) (regs : IrqRegs) : Traced Event Stop Word :=
  if regs.irqNum = 0x20 + 7 ∧ env.picIsr &&& 0x80 = 0 then return 0
  else if regs.irqNum = 0x20 + 15 ∧ env.picIsr &&& 0x8000 = 0 then return 0
  else if regs.irqNum = 128 then doSyscall env regs
  else env.irqHandler regs

/-- The registers when `do_irq` returns `v`: compiled code keeps `ebx`, `esi`, `edi`,
`ebp`, `esp` and the segment registers. -/
def afterCall (env : Env) (m : Machine) (v : Word) : Machine :=
  ⟨{ m.cpu with
    eax := v, ecx := env.scratch.1, edx := env.scratch.2.1, eflags := env.scratch.2.2.1 },
    env.scratch.2.2.2 :: m.stack.tail⟩

/-- `int 0x80` in user mode, with the registers `u`: the registers when the user goes
on. -/
def int80 (env : Env) (u : Cpu) : Traced Event Stop Cpu := do
  let m ← .ofOption .stackFault (run (irq128 ++ irqCommonEntry) (interrupt env.esp0 u))
  -- the word on top is the argument of `do_irq`, the address of the word below it
  let regs ← .ofOption .stackFault (IrqRegs.ofStack m.stack.tail)
  let v ← doIrq env regs
  let m ← .ofOption .stackFault (run irqCommonExit (afterCall env m v))
  return m.cpu

/-! ### The way in and the way out -/

variable {env : Env} {u : Cpu}

/-- What `do_irq` finds at its argument. -/
def frame (env : Env) (u : Cpu) : IrqRegs where
  gs := u.gs.setWidth 32
  fs := u.fs.setWidth 32
  es := u.es.setWidth 32
  ds := u.ds.setWidth 32
  edi := u.edi
  esi := u.esi
  ebp := u.ebp
  esp := env.esp0 - 4 - 4 - 4 - 4 - 4 - 4 - 4
  ebx := u.ebx
  edx := u.edx
  ecx := u.ecx
  eax := u.eax
  irqNum := 128
  error := 0
  eip := u.eip
  cs := u.cs.setWidth 32
  eflags := u.eflags

/-- The kernel stack when `do_irq` is called, without the argument. -/
def saved (env : Env) (u : Cpu) : List Word :=
  let f := frame env u
  [f.gs, f.fs, f.es, f.ds, f.edi, f.esi, f.ebp, f.esp, f.ebx, f.edx, f.ecx, f.eax, f.irqNum,
    f.error, f.eip, f.cs, f.eflags, u.esp, u.ss.setWidth 32]

theorem run_entry (env : Env) (u : Cpu) :
    ∃ m, run (irq128 ++ irqCommonEntry) (interrupt env.esp0 u) = some m ∧
      m.stack.tail = saved env u := by
  simp only [run, irq128, irqCommonEntry, cons_append, nil_append, foldlM_cons,
    foldlM_nil, Instr.exec, interrupt, Machine.push, Machine.pop, Cpu.seg, Cpu.setSeg, pure,
    Option.bind_eq_bind, Option.bind_some, Option.some.injEq, exists_eq_left',
    tail_cons]
  rfl

theorem ofStack_saved (env : Env) (u : Cpu) :
    IrqRegs.ofStack (saved env u) = some (frame env u) := rfl

/-- On the way out the registers get the values that were saved, whatever they have
become. -/
theorem run_exit {m : Machine} (v : Word) (hm : m.stack.tail = saved env u) :
    ∃ m', run irqCommonExit (afterCall env m v) = some m' ∧ m'.cpu = u := by
  have hseg : ∀ s : Selector, (s.setWidth 32).setWidth 16 = s := by
    intro s
    rw [BitVec.setWidth_setWidth_of_le s (by decide), BitVec.setWidth_eq]
  simp only [afterCall, hm, run, irqCommonExit, saved, foldlM_cons, foldlM_nil,
    Instr.exec, Machine.pop, Cpu.setSeg, pure, Option.bind_eq_bind, length_cons,
    length_nil, List.drop]
  simp [frame, hseg]

/-- **The result of the handler is lost**: when the user goes on, all registers are as
they were. -/
theorem int80_eq (env : Env) (u : Cpu) :
    int80 env u = do
      let _ ← doSyscall env (frame env u)
      return u := by
  obtain ⟨m, hentry, hm⟩ := run_entry env u
  have hirq : doIrq env (frame env u) = doSyscall env (frame env u) := rfl
  rw [int80, hentry, ofOption_some, pure_bind_eq, hm, ofStack_saved,
    ofOption_some, pure_bind_eq, hirq]
  congr 1
  funext v
  obtain ⟨m', hexit, hcpu⟩ := run_exit v hm
  rw [hexit, ofOption_some, pure_bind_eq, hcpu]

/-! ### The contract -/

def taskMaxFiles : ℤ := 64

/-- The registers that hold the arguments of a system call, in order. -/
def Cpu.args (u : Cpu) : List Word := [u.ebx, u.ecx, u.edx, u.esi, u.edi, u.ebp]

/-- The handler that is called is that of an entry of the table, and gets as many
argument registers as the entry says. -/
def Valid (u : Cpu) (i : Word) (h : Handler) (args : List Word) : Prop :=
  i = u.eax ∧ ∃ sc, syscalls[i.toNat]? = some sc ∧ sc.handler = h ∧ args = u.args.take sc.args

/-- What a system call should do: it calls a valid handler and returns with the result in `eax` and
all else unchanged, or it terminates the task; and `current->files` is read within its bounds. -/
structure Contract (env : Env) (u : Cpu) : Prop where
  files : ∀ fd, .files fd ∈ (int80 env u).calls → 0 ≤ fd ∧ fd < taskMaxFiles
  dispatch : ∀ i h args, .dispatch i h args ∈ (int80 env u).calls → Valid u i h args
  outcome : (int80 env u).result = .error .terminated ∨
    ∃ i h args v, .dispatch i h args ∈ (int80 env u).calls ∧ .ret v ∈ (int80 env u).calls ∧
      (int80 env u).result = .ok { u with eax := v }

/-- A transfer that leaves nothing to return: the function of the file system does not
come back, or its result is what `eax` holds anyway. -/
def Env.Idle (env : Env) (vfs : Word → Word → Word → Option Word) (u : Cpu) : Prop :=
  (0 ≤ u.ebx.toInt ∧ u.ebx.toInt < taskMaxFiles) ∧
    ∀ f, env.file u.ebx.toInt = some f → f ≠ 0 ∧ ∀ v, vfs f u.ecx u.edx = some v → v = u.eax

/-- The system calls that are served as they should be. -/
inductive Served (env : Env) (u : Cpu) : Prop
  /-- `syscalls[eax]` is a page fault, or its handler is `NULL` -/
  | unknown (h : ∀ sc, env.fetch u.eax = some sc → sc.handler = .null)
  | exit (h : u.eax = 0)
  | read (h : u.eax = 2) (hidle : env.Idle env.vfsRead u)
  | write (h : u.eax = 3) (hidle : env.Idle env.vfsWrite u)

/-! ### What a call does -/

variable {v : Word}

theorem int80_of_ok (h : (doSyscall env (frame env u)).result = .ok v) :
    int80 env u = ⟨(doSyscall env (frame env u)).calls, .ok u⟩ := by
  rw [int80_eq, bind_of_ok h]
  exact congrArg (fun l => (⟨l, .ok u⟩ : Traced Event Stop Cpu)) (append_nil _)

variable {e : Stop}

theorem int80_of_error (h : (doSyscall env (frame env u)).result = .error e) :
    int80 env u = ⟨(doSyscall env (frame env u)).calls, .error e⟩ := by
  rw [int80_eq, Traced.bind_of_error h]

variable {i : Word} {h : Handler} {args : List Word}

theorem callHandler_of_ok (hret : (runHandler env h args).result = .ok v) :
    callHandler env i h args =
      ⟨.dispatch i h args :: ((runHandler env h args).calls ++ [.ret v]), .ok v⟩ := by
  have hrest : (do
      let v ← runHandler env h args
      .call (.ret v)
      return v) = ⟨(runHandler env h args).calls ++ [.ret v], .ok v⟩ :=
    bind_of_ok hret
  rw [callHandler, hrest]
  rfl

theorem callHandler_of_error (hstop : (runHandler env h args).result = .error e) :
    callHandler env i h args = ⟨.dispatch i h args :: (runHandler env h args).calls, .error e⟩ := by
  have hrest : (do
      let v ← runHandler env h args
      .call (.ret v)
      return v) = ⟨(runHandler env h args).calls, .error e⟩ :=
    Traced.bind_of_error hstop
  rw [callHandler, hrest]
  rfl

variable {sc : Entry}

theorem passArgs_eq (h : sc.args ≤ 6) :
    passArgs env (frame env u) sc = callHandler env u.eax sc.handler (u.args.take sc.args) := by
  obtain ⟨handler, n⟩ := sc
  interval_cases n <;> rfl

theorem passArgs_of_many {regs : IrqRegs} (h : ¬ sc.args ≤ 6) :
    passArgs env regs sc = return 0 := by
  obtain ⟨handler, n⟩ := sc
  have hn : ¬ n ≤ 6 := h
  obtain ⟨k, rfl⟩ : ∃ k, n = k + 7 := ⟨n - 7, by omega⟩
  rfl

theorem doSyscall_of_fetch (hfetch : env.fetch u.eax = some sc) (hnull : sc.handler ≠ .null) :
    doSyscall env (frame env u) = passArgs env (frame env u) sc := by
  rw [doSyscall, show (frame env u).eax = u.eax from rfl, hfetch, ofOption_some,
    pure_bind_eq, if_neg hnull]

/-! ### The contract, handler by handler -/

section Called

variable {h : Handler} {args : List Word} {v : Word}

theorem sysTransfer_eq (vfs : Word → Word → Word → Option Word) (fd buf count : Word) :
    sysTransfer env vfs fd buf count = ⟨[.files fd.toInt],
      match env.file fd.toInt with
      | none => .error .terminated
      | some f => if f = 0 then .ok (-ebadf) else
        match vfs f buf count with
        | none => .error .terminated
        | some v => .ok v⟩ := by
  rw [sysTransfer, bind_of_ok rfl]
  cases env.file fd.toInt with
  | none => rfl
  | some f =>
    rw [ofOption_some, pure_bind_eq]
    by_cases hf : f = 0
    · simp only [hf, if_true]
      rfl
    · simp only [hf, if_false]
      cases vfs f buf count with
      | none => rfl
      | some v => rfl

theorem runHandler_calls (env : Env) (h : Handler) (args : List Word) :
    ∀ e ∈ (runHandler env h args).calls, ∃ fd, e = .files fd := by
  have htransfer : ∀ vfs fd buf count, ∀ e ∈ (sysTransfer env vfs fd buf count).calls,
      ∃ fd, e = .files fd := by
    intro vfs fd buf count e he
    rw [sysTransfer_eq] at he
    exact ⟨_, mem_singleton.mp he⟩
  intro e he
  cases h with
  | null => simp [runHandler, stop] at he
  | sysExit => simp [runHandler, stop] at he
  | sysSleep =>
    simp only [runHandler, sysSleep] at he
    split at he <;> simp [pure] at he
  | sysRead => exact htransfer _ _ _ _ e he
  | sysWrite => exact htransfer _ _ _ _ e he
  | code addr => simp [runHandler, stop] at he

theorem contract_of_ok
    (hcall : doSyscall env (frame env u) = callHandler env u.eax h args)
    (hret : (runHandler env h args).result = .ok v) :
    Contract env u ↔
      (∀ fd, .files fd ∈ (runHandler env h args).calls → 0 ≤ fd ∧ fd < taskMaxFiles) ∧
        Valid u u.eax h args ∧ v = u.eax := by
  have heq := callHandler_of_ok (i := u.eax) hret
  have hint : int80 env u =
      ⟨.dispatch u.eax h args :: ((runHandler env h args).calls ++ [.ret v]), .ok u⟩ := by
    rw [int80_of_ok (by rw [hcall, heq]), hcall, heq]
  have honly := runHandler_calls env h args
  have hret_mem : ∀ w, .ret w ∈ (int80 env u).calls → w = v := by
    intro w hw
    simp only [hint, mem_cons, reduceCtorEq, mem_append, not_mem_nil, or_false,
      false_or] at hw
    rcases hw with hw | hw
    · obtain ⟨fd, hfd⟩ := honly _ hw
      cases hfd
    · exact Event.ret.inj hw
  constructor
  · rintro ⟨hfiles, hdispatch, houtcome⟩
    refine ⟨fun fd hfd => hfiles fd (by simp [hint, hfd]), hdispatch _ _ _ (by simp [hint]), ?_⟩
    rcases houtcome with hstop | ⟨i, h', args', w, -, hw, hresult⟩
    · rw [hint] at hstop
      cases hstop
    · -- the user sees the `eax` of before, which should be the result
      rw [hint] at hresult
      rw [← hret_mem w hw]
      exact (congrArg Cpu.eax (Except.ok.inj hresult)).symm
  · rintro ⟨hfiles, hvalid, rfl⟩
    refine ⟨fun fd hfd => hfiles fd (by simpa [hint] using hfd), fun i h' args' hmem => ?_,
      .inr ⟨u.eax, h, args, u.eax, by simp [hint], by simp [hint], by rw [hint]⟩⟩
    simp only [hint, mem_cons, reduceCtorEq, mem_append, not_mem_nil,
      or_false] at hmem
    rcases hmem with hmem | hmem
    · cases hmem
      exact hvalid
    · obtain ⟨fd, hfd⟩ := honly _ hmem
      cases hfd

theorem contract_of_terminated
    (hcall : doSyscall env (frame env u) = callHandler env u.eax h args)
    (hstop : (runHandler env h args).result = .error .terminated) :
    Contract env u ↔
      (∀ fd, .files fd ∈ (runHandler env h args).calls → 0 ≤ fd ∧ fd < taskMaxFiles) ∧
        Valid u u.eax h args := by
  have heq := callHandler_of_error (i := u.eax) hstop
  have hint : int80 env u =
      ⟨.dispatch u.eax h args :: (runHandler env h args).calls, .error .terminated⟩ := by
    rw [int80_of_error (by rw [hcall, heq]), hcall, heq]
  have honly := runHandler_calls env h args
  constructor
  · rintro ⟨hfiles, hdispatch, -⟩
    exact ⟨fun fd hfd => hfiles fd (by simp [hint, hfd]), hdispatch _ _ _ (by simp [hint])⟩
  · rintro ⟨hfiles, hvalid⟩
    refine ⟨fun fd hfd => hfiles fd (by simpa [hint] using hfd), fun i h' args' hmem => ?_,
      .inl (by rw [hint])⟩
    rw [hint] at hmem
    rcases mem_cons.mp hmem with hmem | hmem
    · cases hmem
      exact hvalid
    · obtain ⟨fd, hfd⟩ := honly _ hmem
      cases hfd

theorem Contract.valid (hc : Contract env u)
    (hcall : doSyscall env (frame env u) = callHandler env u.eax h args) :
    Valid u u.eax h args := by
  refine hc.dispatch _ _ _ ?_
  cases hrun : (runHandler env h args).result with
  | ok v =>
    have heq := callHandler_of_ok (i := u.eax) hrun
    rw [int80_of_ok (by rw [hcall, heq]), hcall, heq]
    exact mem_cons_self
  | error e =>
    have heq := callHandler_of_error (i := u.eax) hrun
    rw [int80_of_error (by rw [hcall, heq]), hcall, heq]
    exact mem_cons_self

end Called

/-! ### Which system calls are served -/

theorem fetch_of_lt (h : syscalls[i.toNat]? = some sc) : env.fetch i = some sc := by
  have hlt : i.toNat < 4 := by
    by_contra hge
    have hlen : syscalls.length ≤ i.toNat := by
      simp only [syscalls, length_cons, length_nil]
      omega
    rw [getElem?_eq_none hlen] at h
    cases h
  have hslot : i.toNat * 8 % 2 ^ 32 / 8 = i.toNat := by omega
  rw [Env.fetch]
  simp only [hslot, h]

theorem contract_transfer {vfs : Word → Word → Word → Option Word}
    (hcall : doSyscall env (frame env u) =
      callHandler env u.eax h [u.ebx, u.ecx, u.edx])
    (hrun : runHandler env h [u.ebx, u.ecx, u.edx] = sysTransfer env vfs u.ebx u.ecx u.edx)
    (hvalid : Valid u u.eax h [u.ebx, u.ecx, u.edx]) (heax : -ebadf ≠ u.eax) :
    Contract env u ↔ env.Idle vfs u := by
  have hfiles : (∀ fd, .files fd ∈ (runHandler env h [u.ebx, u.ecx, u.edx]).calls →
      0 ≤ fd ∧ fd < taskMaxFiles) ↔ 0 ≤ u.ebx.toInt ∧ u.ebx.toInt < taskMaxFiles := by
    rw [hrun, sysTransfer_eq]
    simp
  rw [Env.Idle, ← hfiles]
  have hresult := congrArg Traced.result (hrun.trans (sysTransfer_eq vfs u.ebx u.ecx u.edx))
  cases hfile : env.file u.ebx.toInt with
  | none =>
    simp only [hfile] at hresult
    rw [contract_of_terminated hcall hresult]
    simp [hvalid]
  | some f =>
    simp only [hfile] at hresult
    by_cases hf : f = 0
    · -- `-EBADF` is not in `eax`
      rw [if_pos hf] at hresult
      rw [contract_of_ok hcall hresult]
      simp [heax, hf]
    · rw [if_neg hf] at hresult
      cases hvfs : vfs f u.ecx u.edx with
      | none =>
        simp only [hvfs] at hresult
        rw [contract_of_terminated hcall hresult]
        simp [hvalid, show f ≠ 0#32 from hf, hvfs]
      | some v =>
        simp only [hvfs] at hresult
        rw [contract_of_ok hcall hresult]
        simp [hvalid, show f ≠ 0#32 from hf, hvfs]

theorem doSyscall_of_lt (env : Env) (h : syscalls[u.eax.toNat]? = some sc)
    (hnull : sc.handler ≠ .null) (hargs : sc.args ≤ 6) :
    doSyscall env (frame env u) = callHandler env u.eax sc.handler (u.args.take sc.args) := by
  rw [doSyscall_of_fetch (fetch_of_lt h) hnull, passArgs_eq hargs]

theorem eax_of_lt (h : u.eax.toNat < 4) : u.eax = 0 ∨ u.eax = 1 ∨ u.eax = 2 ∨ u.eax = 3 := by
  have hcases : u.eax.toNat = 0 ∨ u.eax.toNat = 1 ∨ u.eax.toNat = 2 ∨ u.eax.toNat = 3 := by omega
  rcases hcases with hn | hn | hn | hn
  · exact .inl (BitVec.eq_of_toNat_eq hn)
  · exact .inr (.inl (BitVec.eq_of_toNat_eq hn))
  · exact .inr (.inr (.inl (BitVec.eq_of_toNat_eq hn)))
  · exact .inr (.inr (.inr (BitVec.eq_of_toNat_eq hn)))

/-- The system calls of the table that are served: not `sys$sleep`, whose result is
never 1. -/
theorem contract_of_lt (hlt : u.eax.toNat < 4) : Contract env u ↔
    u.eax = 0 ∨ u.eax = 2 ∧ env.Idle env.vfsRead u ∨ u.eax = 3 ∧ env.Idle env.vfsWrite u := by
  rcases eax_of_lt hlt with heax | heax | heax | heax
  · have hentry : syscalls[u.eax.toNat]? = some ⟨.sysExit, 1⟩ := by rw [heax]; rfl
    have hcall := doSyscall_of_lt env hentry (by decide) (by decide)
    rw [contract_of_terminated hcall rfl]
    simp only [heax, true_or, iff_true]
    exact ⟨fun fd hfd => absurd hfd (by simp [runHandler, stop]),
      heax ▸ rfl, _, heax ▸ hentry, rfl, rfl⟩
  · have hentry : syscalls[u.eax.toNat]? = some ⟨.sysSleep, 1⟩ := by rw [heax]; rfl
    have hcall := doSyscall_of_lt env hentry (by decide) (by decide)
    obtain ⟨v, hret, hv⟩ : ∃ v, (runHandler env .sysSleep (u.args.take 1)).result = .ok v ∧
        v ≠ 1 := by
      simp only [runHandler, sysSleep]
      split
      · exact ⟨_, rfl, by decide⟩
      · exact ⟨_, rfl, by decide⟩
    rw [contract_of_ok hcall hret]
    simp [heax, show v ≠ 1#32 from hv]
  · have hentry : syscalls[u.eax.toNat]? = some ⟨.sysRead, 3⟩ := by rw [heax]; rfl
    have hcall := doSyscall_of_lt env hentry (by decide) (by decide)
    rw [contract_transfer hcall rfl ⟨rfl, _, hentry, rfl, rfl⟩ (by rw [heax]; decide)]
    simp [heax]
  · have hentry : syscalls[u.eax.toNat]? = some ⟨.sysWrite, 3⟩ := by rw [heax]; rfl
    have hcall := doSyscall_of_lt env hentry (by decide) (by decide)
    rw [contract_transfer hcall rfl ⟨rfl, _, hentry, rfl, rfl⟩ (by rw [heax]; decide)]
    simp [heax]

theorem contract_of_unknown (h : ∀ sc, env.fetch u.eax = some sc → sc.handler = .null) :
    Contract env u := by
  have hstop : doSyscall env (frame env u) = .stop .terminated := by
    rw [doSyscall, show (frame env u).eax = u.eax from rfl]
    cases hfetch : env.fetch u.eax with
    | none => rfl
    | some sc => rw [ofOption_some, pure_bind_eq, if_pos (h sc hfetch)]
  have hint : int80 env u = ⟨[], .error .terminated⟩ := by
    rw [int80_of_error (by rw [hstop]; rfl), hstop]
    rfl
  refine ⟨fun fd hfd => ?_, fun i h args hmem => ?_, .inl (by rw [hint])⟩
  · simp [hint] at hfd
  · simp [hint] at hmem

/-- **The system calls that are served as they should be** are `sys$exit`, those whose
entry has no handler, and the transfers with nothing to return. -/
theorem contract_iff (env : Env) (u : Cpu) : Contract env u ↔ Served env u := by
  by_cases hlt : u.eax.toNat < 4
  · rw [contract_of_lt hlt]
    constructor
    · rintro (heax | ⟨heax, hidle⟩ | ⟨heax, hidle⟩)
      · exact .exit heax
      · exact .read heax hidle
      · exact .write heax hidle
    · rintro (hunknown | heax | ⟨heax, hidle⟩ | ⟨heax, hidle⟩)
      · -- every entry of the table has a handler
        have hentry : ∃ sc, syscalls[u.eax.toNat]? = some sc ∧ sc.handler ≠ .null := by
          rcases eax_of_lt hlt with heax | heax | heax | heax <;> rw [heax] <;>
            exact ⟨_, rfl, by decide⟩
        obtain ⟨sc, hsc, hnull⟩ := hentry
        exact absurd (hunknown sc (fetch_of_lt hsc)) hnull
      · exact .inl heax
      · exact .inr (.inl ⟨heax, hidle⟩)
      · exact .inr (.inr ⟨heax, hidle⟩)
  · have hserved : Served env u ↔ ∀ sc, env.fetch u.eax = some sc → sc.handler = .null := by
      constructor
      · rintro (hunknown | heax | ⟨heax, -⟩ | ⟨heax, -⟩)
        · exact hunknown
        all_goals exact absurd (by rw [heax]; decide) hlt
      · exact .unknown
    rw [hserved]
    refine ⟨fun hc sc hfetch => ?_, contract_of_unknown⟩
    by_contra hnull
    have hcall := doSyscall_of_fetch hfetch hnull
    by_cases hargs : sc.args ≤ 6
    · -- a handler that is not in the table is called
      rw [passArgs_eq hargs] at hcall
      obtain ⟨-, sc', hsc', -⟩ := hc.valid hcall
      have hlen := (List.getElem?_eq_some_iff.mp hsc').1
      simp only [syscalls, List.length_cons, List.length_nil] at hlen
      omega
    · -- no handler is called, and the task goes on
      rw [passArgs_of_many hargs] at hcall
      have hint : int80 env u = ⟨[], .ok u⟩ := by
        rw [int80_of_ok (by rw [hcall]; rfl), hcall]
        rfl
      rcases hc.outcome with hstop | ⟨i, h, args, v, hmem, -⟩
      · simp [hint] at hstop
      · simp [hint] at hmem

/-! ### Calls that are not served -/

/-- A kernel with open files and some code pointer after the end of `syscalls[]`. -/
def openFiles : Env where
  esp0 := 0xC0208000
  beyond _ := some ⟨.code 0xC0012340, 2⟩
  file _ := some 0xD0010040
  vfsRead _ _ count := some count
  vfsWrite _ _ count := some count
  picIsr := 0
  irqHandler _ := return 0
  scratch := (0, 0, 0x202, 0)
  junk := 0

/-- A user task about to make the system call `eax`. -/
def userRegs (eax ebx : Word) : Cpu where
  eax := eax
  ecx := 0x8048100
  edx := 16
  ebx := ebx
  esp := 0xC0203FF8
  ebp := 0
  esi := 0
  edi := 0
  ds := 0x23
  es := 0x23
  fs := 0x23
  gs := 0x23
  cs := 0x1B
  ss := 0x23
  eip := 0x8048010
  eflags := 0x202

/-- `sys$sleep(10)` returns 0, but the user finds 1 in `eax`; system call 4 calls what stands after
the table; and `sys$read(-1, ...)` reads before `current->files`. -/
theorem syscall_results_lost :
    (.ret 0 ∈ (int80 openFiles (userRegs 1 10)).calls ∧
      (int80 openFiles (userRegs 1 10)).result = .ok (userRegs 1 10) ∧
      ¬ Contract openFiles (userRegs 1 10)) ∧
    (.dispatch 4 (.code 0xC0012340) [0, 0x8048100] ∈ (int80 openFiles (userRegs 4 0)).calls ∧
      ¬ Contract openFiles (userRegs 4 0)) ∧
    (.files (-1) ∈ (int80 openFiles (userRegs 2 0xFFFFFFFF)).calls ∧
      ¬ Contract openFiles (userRegs 2 0xFFFFFFFF)) := by
  refine ⟨⟨?_, ?_, fun hc => ?_⟩, ⟨?_, fun hc => ?_⟩, ?_, fun hc => ?_⟩
  · exact .tail _ (.head _)
  · rw [int80_of_ok rfl]
  · rw [contract_of_lt (by decide)] at hc
    rcases hc with hc | ⟨hc, -⟩ | ⟨hc, -⟩ <;> exact absurd hc (by decide)
  · exact .head _
  · have hcall : doSyscall openFiles (frame openFiles (userRegs 4 0)) =
        callHandler openFiles 4 (.code 0xC0012340) [0, 0x8048100] := rfl
    obtain ⟨-, sc, hsc, -⟩ := hc.valid hcall
    cases hsc
  · exact .tail _ (.head _)
  · have hbound := (hc.files (-1) (by exact .tail _ (.head _))).1
    omega

end Syscalls
