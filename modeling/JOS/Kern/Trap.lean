import JOS.Kern.Syscall

/-!
# Traps

`kern/trap.c`: `page_fault_handler`, `trap_dispatch` and `trap`. A trap comes with the
frame the hardware and `trapentry.S` have pushed, with CR2, and with what the console
would give a `sys_cgetc`.

A trap from user mode works on `curenv->env_tf`; a trap from kernel mode is one that
wakes a halted CPU, where `curenv` is null. A trap inside the kernel's own code is not
a case of its own: the functions that would fault return `Stop.panic`.
-/

namespace JOS

/-- What the hardware delivers. -/
structure TrapIn where
  /-- The trap frame. -/
  tf : Trapframe
  /-- The faulting address of a page fault. -/
  cr2 : Word
  /-- The character waiting at the console. -/
  getc : Word
  deriving DecidableEq, Repr

def T_BRKPT : Word := 3#32
def T_PGFLT : Word := 14#32
def T_SYSCALL : Word := 48#32
def IRQ_OFFSET : Word := 32#32
def IRQ_SPURIOUS : Word := 7#32

/-- The system call a frame asks for. -/
def TrapIn.args (t : TrapIn) : SysArgs where
  no := t.tf.tfRegs.regEax
  a1 := t.tf.tfRegs.regEdx
  a2 := t.tf.tfRegs.regEcx
  a3 := t.tf.tfRegs.regEbx
  a4 := t.tf.tfRegs.regEdi
  a5 := t.tf.tfRegs.regEsi
  getc := t.getc

/-- `sizeof(struct UTrapframe)`. -/
def utfSize : Word := 52#32

/-- Where `page_fault_handler` puts the `struct UTrapframe` of a fault with stack pointer `esp`. -/
def utfAddr (esp : Word) : Word :=
  if esp ≥ UXSTACKTOP - PGSIZE ∧ esp ≤ UXSTACKTOP - 1 then esp - utfSize - 4
    else UXSTACKTOP - utfSize

/-- The words of the `struct UTrapframe`, from its first field up. -/
def utfWords (faultVa : Word) (tf : Trapframe) : List Word :=
  [faultVa, tf.tfErr, tf.tfRegs.regEdi, tf.tfRegs.regEsi, tf.tfRegs.regEbp, tf.tfRegs.regOesp,
    tf.tfRegs.regEbx, tf.tfRegs.regEdx, tf.tfRegs.regEcx, tf.tfRegs.regEax, tf.tfEip, tf.tfEflags,
    tf.tfEsp]

/-- The user-mode part of `page_fault_handler`, with `tf = &curenv->env_tf`. -/
def pageFaultHandler (s : KState) (c cur : ℕ) (faultVa : Word) : Except Leave KState := do
  let s ← if (s.envs cur).envPgfaultUpcall = 0 then envDestroy s c cur else pure s
  let tf := (s.envs cur).envTf
  let s ← userMemAssert s c cur (utfAddr tf.tfEsp) utfSize PTE_W
  let m ← liftStop (storeWords s.mem (s.cpus c).cr3 (utfAddr tf.tfEsp) (utfWords faultVa tf))
  let s := { s with mem := m }.setEnv cur { s.envs cur with
    envTf := { tf with tfEip := (s.envs cur).envPgfaultUpcall, tfEsp := utfAddr tf.tfEsp } }
  .error (envRun s c cur)

/-- `trap_dispatch` of a trap from user mode. -/
def trapDispatch (s : KState) (c cur : ℕ) (t : TrapIn) : Except Leave KState :=
  if t.tf.tfTrapno = T_PGFLT then pageFaultHandler s c cur t.cr2
  else if t.tf.tfTrapno = T_BRKPT then .error (.stop .monitor)
  else if t.tf.tfTrapno = T_SYSCALL then do
    let (r, s) ← syscall s c cur t.args
    let tf := (s.envs cur).envTf
    return s.setEnv cur { s.envs cur with
      envTf := { tf with tfRegs := { tf.tfRegs with regEax := r } } }
  else if t.tf.tfTrapno = IRQ_OFFSET + IRQ_SPURIOUS then .ok s
  else if t.tf.tfTrapno = IRQ_OFFSET then .error (schedYield s c)
  else envDestroy s c cur

/-- `trap_dispatch` of a trap that wakes a halted CPU. -/
def trapDispatchKernel (s : KState) (c : ℕ) (t : TrapIn) : Except Leave KState :=
  if t.tf.tfTrapno = T_PGFLT then .error (.stop .panic)
  else if t.tf.tfTrapno = T_BRKPT then .error (.stop .monitor)
  else if t.tf.tfTrapno = T_SYSCALL then .error (.stop .undef)
  else if t.tf.tfTrapno = IRQ_OFFSET + IRQ_SPURIOUS then .ok s
  else if t.tf.tfTrapno = IRQ_OFFSET then .error (schedYield s c)
  else .error (.stop .panic)

/-- The end of `trap`, when `trap_dispatch` has returned. -/
def trapReturn (s : KState) (c : ℕ) : Leave :=
  match s.curenv c with
  | some cur => if s.status cur = .running then envRun s c cur else schedYield s c
  | none => schedYield s c

/-- What a function that may leave comes to, when `k` follows it. -/
def leaveWith (r : Except Leave KState) (k : KState → Leave) : Leave :=
  match r with
  | .error l => l
  | .ok s => k s

/-- The state in which `trap_dispatch` gets a trap from user mode: the frame is in
`curenv->env_tf`. -/
def trapEntry (s : KState) (c cur : ℕ) (t : TrapIn) : KState :=
  (s.setCpu c { s.cpus c with cpuStatus := .started }).setEnv cur { s.envs cur with envTf := t.tf }

/-- `trap` on CPU `c`. -/
def trap (s : KState) (c : ℕ) (t : TrapIn) : Leave :=
  if t.tf.tfCs &&& 3 = 3 then
    match s.curenv c with
    | none => .stop .panic
    | some cur =>
      if s.status cur = .dying then
        let s := s.setCpu c { s.cpus c with cpuStatus := .started }
        leaveWith (liftStop (envFree s c cur)) fun s =>
          schedYield ((s.setCurenv c none).log (.clear c)) c
      else leaveWith (trapDispatch (trapEntry s c cur t) c cur t) fun s => trapReturn s c
  else
    let s := s.setCpu c { s.cpus c with cpuStatus := .started }
    leaveWith (trapDispatchKernel s c t) fun s => trapReturn s c

end JOS
