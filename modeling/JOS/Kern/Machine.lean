import JOS.Kern.Trap
import JOS.Kern.Icode
import JOS.General.Run

/-!
# The machine

The kernel and any number of CPUs, as the big kernel lock makes it: every entry into
the kernel is one step. Between two steps the lock is free, and a CPU is in user mode
(its `cpu_env` is the environment it runs), halted by `sched_halt`, or still booting.

What a user program does to its registers between its traps is not a step: a trap
brings any register values. A store to memory is one (`store`), a byte at a time, and
only below `UTOP`: no page above is writable to user programs. `create` is
`env_create`; the kernel calls it while it boots, and nothing here depends on when it
does.
-/

namespace JOS

/-- What can happen next. -/
inductive Event where
  /-- `env_create` of an ELF image on CPU `c`. -/
  | create (c : ℕ) (elf : Elf)
  /-- CPU `c` has finished booting and calls `sched_yield`. -/
  | start (c : ℕ)
  /-- A trap on CPU `c`. -/
  | trap (c : ℕ) (t : TrapIn)
  /-- The program on CPU `c` stores a byte. -/
  | store (c : ℕ) (va : Word) (b : BitVec 8)

/-- The CPU an event happens on. -/
def Event.cpu : Event → ℕ
  | .create c _ => c
  | .start c => c
  | .trap c _ => c
  | .store c _ _ => c

/-- The CPU an event takes into the kernel and back, or to a halt. -/
def Event.enters : Event → Option ℕ
  | .start c => some c
  | .trap c _ => some c
  | _ => none

/-- The state in which the lock was released, if it was. -/
def Leave.state? : Leave → Option KState
  | .gone s => some s
  | .stop _ => none

/-- A trap fits the CPU it happens on: it comes from user mode when the CPU runs an environment,
and from the kernel's code segment when the CPU is halted. -/
def trapFits (s : KState) (c : ℕ) (t : TrapIn) : Bool :=
  match s.curenv c with
  | some _ => t.tf.tfCs &&& 3 == 3
  | none => t.tf.tfCs == GD_KT && (s.cpus c).cpuStatus == .halted

/-- A store of one byte by the program on CPU `c`; `none` when it cannot do it without a fault. -/
def userStore (s : KState) (c : ℕ) (va : Word) (b : BitVec 8) : Option KState :=
  if s.curenv c ≠ none ∧ va < UTOP then
    match translate s.mem (s.cpus c).cr3 va with
    | some pte => if test pte PTE_W && test pte PTE_U then
        some { s with mem := s.mem.storeAt pte va b } else none
    | none => none
  else none

/-- One step; `none` when the event cannot happen or the kernel stops. -/
def step (s : KState) (ev : Event) : Option KState :=
  let s := s.reset
  match ev with
  | .create c elf => (envCreate s c elf).toOption
  | .start c =>
    if s.curenv c = none ∧ (s.cpus c).cpuStatus = .started then (schedYield s c).state? else none
  | .trap c t => if trapFits s c t then (trap s c t).state? else none
  | .store c va b => userStore s c va b

end JOS
