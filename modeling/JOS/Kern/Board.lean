import JOS.Kern.Trapentry

/-!
# The machine with the registers of its CPUs

Between two steps of the kernel a CPU runs the instructions of a program, or waits in `sched_halt`.
A trap goes through the gate and `_alltraps`: the frame that `trap` gets is the one in memory that
its argument points to. The CPU comes back through `env_pop_tf`, which is called with the address of
`env_tf` of the environment that it runs.

What the C code of the kernel does to memory, and what it has in registers when it calls
`env_pop_tf`, comes with the event; it must have written `env_tf` as the kernel's records say. What
other CPUs write meanwhile is left out: the stubs read nothing but what they have pushed on the
stack of their own CPU.
-/

namespace JOS

/-- Where things are in the kernel. -/
structure KernelAddrs where
  /-- The task state segment of each CPU. -/
  ts : ℕ → Taskstate
  /-- The instruction behind the call of `trap`. -/
  next : Word
  /-- `&envs[e].env_tf`. -/
  envTf : ℕ → Word

/-- The kernel and the CPUs. -/
structure Board where
  kern : KState
  cores : ℕ → Core

/-- What can happen next. -/
inductive BoardEvent where
  /-- The program on CPU `c` executes, and has these registers then. -/
  | user (c : ℕ) (r : ProgRegs)
  /-- CPU `c` takes a gate. -/
  | trap (c : ℕ) (cause : Cause) (err cr2 getc : Word) (z : Core)
  /-- Another step of the machine. -/
  | other (ev : Event) (z : Core)

/-- The end of `sched_halt`, on a CPU with the kernel's stack at `esp0`. -/
def Core.halt (z : Core) (esp0 : Word) : Core :=
  let y := (({ z with regs := { z.regs with ebp := 0, esp := esp0 } } : Core).push 0).push 0
  { y with regs := { y.regs with eflags := y.regs.eflags ||| FL_IF } }

namespace Board

variable (k : KernelAddrs) (b : Board)

/-- CPU `c` leaves the kernel in the state `s`. -/
def leave (c : ℕ) (s : KState) (z : Core) : Option Board :=
  if z.cs = GD_KT then
    match s.curenv c with
    | some e =>
      if readFrame z.mem (k.envTf e) = (s.envs e).envTf then
        some ⟨s, Function.update b.cores c (z.execAll (envPopTf (k.envTf e)))⟩
      else none
    | none => some ⟨s, Function.update b.cores c (z.halt (k.ts c).tsEsp0)⟩
  else none

/-- What `trap` finds when CPU `c` takes a gate. -/
def trapIn (c : ℕ) (cause : Cause) (err cr2 getc : Word) : TrapIn :=
  let y := (b.cores c).enter (k.ts c) cause err k.next
  ⟨readFrame y.mem y.trapArg, cr2, getc⟩

/-- The event of the kernel's machine. -/
def event : BoardEvent → Option Event
  | .user _ _ => none
  | .trap c cause err cr2 getc _ => some (.trap c (b.trapIn k c cause err cr2 getc))
  | .other ev _ => some ev

/-- One step. -/
def step : BoardEvent → Option Board
  | .user c r =>
    if b.kern.curenv c ≠ none ∧ r.cpl = (b.cores c).cpl then
      some { b with cores := Function.update b.cores c { b.cores c with toProgRegs := r } }
    else none
  | .trap c cause err cr2 getc z =>
    if cause.possible (b.cores c).cpl.toNat then
      (JOS.step b.kern (.trap c (b.trapIn k c cause err cr2 getc))).bind fun s => b.leave k c s z
    else none
  | .other (.trap _ _) _ => none
  | .other (.start c) z => (JOS.step b.kern (.start c)).bind fun s => b.leave k c s z
  | .other ev _ => (JOS.step b.kern ev).map fun s => { b with kern := s }

end Board

end JOS
