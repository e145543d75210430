import JOS.Lib.Upcall

/-!
# The way into the kernel and out of it

The stubs of `kern/trapentry.S` with `_alltraps`, and `env_pop_tf` (`kern/env.c`), as the
instructions they consist of, and what the CPU does around them: it takes a gate, and `iret`. Memory
is what the kernel's half of the address space shows, so no access faults. A push of a selector
leaves the upper half of its slot as it is.
-/

namespace JOS

def GD_KD : BitVec 16 := 0x10#16

/-! ### The CPU -/

/-- What a program has in registers. -/
structure ProgRegs where
  regs : UserRegs
  es : BitVec 16
  ds : BitVec 16
  cs : BitVec 16
  ss : BitVec 16
  deriving DecidableEq, Repr

/-- A CPU, and memory as the kernel sees it. -/
structure Core extends ProgRegs where
  mem : Word → BitVec 8

/-- The part of the task state segment that `trap_init_percpu` sets. -/
structure Taskstate where
  tsEsp0 : Word
  tsSs0 : BitVec 16

/-- The registers that a trap frame holds. -/
def Trapframe.prog (tf : Trapframe) : ProgRegs := ⟨tf.user, tf.tfEs, tf.tfDs, tf.tfCs, tf.tfSs⟩

/-- The privilege level. -/
def ProgRegs.cpl (x : ProgRegs) : BitVec 16 := x.cs &&& 3

/-- The word at `a`, little end first. -/
def load32 (m : Word → BitVec 8) (a : Word) : Word := m (a + 3) ++ m (a + 2) ++ m (a + 1) ++ m a

/-- The half word at `a`. -/
def load16 (m : Word → BitVec 8) (a : Word) : BitVec 16 := m (a + 1) ++ m a

/-- Memory after the store of the lowest `n` bytes of `w` at `a`. -/
def storeLow (n : ℕ) (m : Word → BitVec 8) (a w : Word) : Word → BitVec 8 := fun b =>
  if (b - a).toNat < n then byteOf w (b - a).toNat else m b

namespace Core

/-- The stack pointer is set. -/
def setEsp (x : Core) (w : Word) : Core := { x with regs := { x.regs with esp := w } }

/-- A push of a word. -/
def push (x : Core) (w : Word) : Core :=
  { x.setEsp (x.regs.esp - 4) with mem := storeLow 4 x.mem (x.regs.esp - 4) w }

/-- A push of a selector. -/
def pushSel (x : Core) (sel : BitVec 16) : Core :=
  { x.setEsp (x.regs.esp - 4) with mem := storeLow 2 x.mem (x.regs.esp - 4) (sel.setWidth 32) }

end Core

/-! ### Instructions -/

/-- A segment register. -/
inductive Seg where
  | ds
  | es
  deriving DecidableEq, Repr

/-- The instructions on the way into the kernel and out of it. -/
inductive KInstr where
  /-- `pushl $imm` -/
  | pushl (imm : Word)
  /-- `pushl %seg` -/
  | pushSeg (seg : Seg)
  /-- `popl %seg` -/
  | popSeg (seg : Seg)
  | pushal
  | popal
  /-- `pushl %esp` -/
  | pushEsp
  /-- `movl w, %esp` -/
  | movlEsp (w : Word)
  /-- `addl $imm, %esp` -/
  | addlEsp (imm : Word)
  /-- `call`, with the next instruction at `next`. -/
  | call (next : Word)
  | iret
  deriving DecidableEq, Repr

namespace Core

def seg (x : Core) : Seg → BitVec 16
  | .ds => x.ds
  | .es => x.es

def setSeg (x : Core) (sel : BitVec 16) : Seg → Core
  | .ds => { x with ds := sel }
  | .es => { x with es := sel }

/-- `pushal` pushes the stack pointer that it begins with. -/
def pushal (x : Core) : Core :=
  (((((((x.push x.regs.eax).push x.regs.ecx).push x.regs.edx).push x.regs.ebx).push x.regs.esp).push
    x.regs.ebp).push
    x.regs.esi).push x.regs.edi

/-- `popal`; the word for `esp` is skipped. -/
def popal (x : Core) : Core :=
  let a := x.regs.esp
  { x with regs := { x.regs with
      edi := load32 x.mem a
      esi := load32 x.mem (a + 4)
      ebp := load32 x.mem (a + 8)
      ebx := load32 x.mem (a + 16)
      edx := load32 x.mem (a + 20)
      ecx := load32 x.mem (a + 24)
      eax := load32 x.mem (a + 28)
      esp := a + 32 } }

/-- `iret`: the stack of a program is switched to when there is one to go back to. -/
def iret (x : Core) : Core :=
  let a := x.regs.esp
  let y : Core := { x with
    cs := load16 x.mem (a + 4)
    regs := { x.regs with eip := load32 x.mem a, eflags := load32 x.mem (a + 8), esp := a + 12 } }
  if y.cpl = x.cpl then y else { y.setEsp (load32 x.mem (a + 12)) with ss := load16 x.mem (a + 16) }

/-- One instruction. -/
def exec (x : Core) : KInstr → Core
  | .pushl imm => x.push imm
  | .pushSeg s => x.pushSel (x.seg s)
  | .popSeg s => (x.setSeg (load16 x.mem x.regs.esp) s).setEsp (x.regs.esp + 4)
  | .pushal => x.pushal
  | .popal => x.popal
  | .pushEsp => x.push x.regs.esp
  | .movlEsp w => x.setEsp w
  | .addlEsp imm =>
    { x with
      regs := { x.regs with
        esp := x.regs.esp + imm, eflags := addFlags x.regs.eflags x.regs.esp imm } }
  | .call next => x.push next
  | .iret => x.iret

/-- Instructions one after another. -/
def execAll (x : Core) (code : List KInstr) : Core := code.foldl exec x

end Core

/-! ### `kern/trapentry.S` -/

/-- A stub: without an error code of the CPU's, it pushes a zero. -/
def TrapHandler.code (h : TrapHandler) : List KInstr :=
  (if h.errorCode then [] else [.pushl 0]) ++ [.pushl h.num]

/-- `_alltraps`; `next` is behind the call of `trap`. -/
def alltraps (next : Word) : List KInstr :=
  [.pushSeg .ds, .pushSeg .es, .pushal, .pushl (GD_KD.setWidth 32), .popSeg .ds,
    .pushl (GD_KD.setWidth 32), .popSeg .es, .pushEsp,
    .call next]

/-- `env_pop_tf(tf)`. -/
def envPopTf (tf : Word) : List KInstr :=
  [.movlEsp tf, .popal, .popSeg .es, .popSeg .ds, .addlEsp 8, .iret]

/-! ### Gates -/

/-- The exceptions with an error code. -/
def errorVectors : List Word := [T_DBLFLT, T_TSS, T_SEGNP, T_STACK, T_GPFLT, T_PGFLT, T_ALIGN]

/-- Whether the CPU pushes an error code: it does for an exception that has one, also when it raises
that because of the gate. -/
def Cause.pushesError (cpl : ℕ) (cause : Cause) : Bool :=
  match cause with
  | .exception _ => cause.vector cpl ∈ errorVectors
  | .software v => (idt v).gdDpl.toNat < cpl ∨ (idt v).gdP = 0
  | .hardware v => (idt v).gdP = 0

/-- What can happen: only programs execute `int`, and devices have the vectors from `IRQ_OFFSET`
on. -/
def Cause.possible (cpl : ℕ) : Cause → Bool
  | .exception _ => true
  | .software _ => cpl = 3
  | .hardware v => IRQ_OFFSET ≤ v

/-- A CPU that goes on at another privilege level changes to the stack of that level, and pushes the
old one's place. -/
def Core.switchStack (x : Core) (ts : Taskstate) (sel : BitVec 16) : Core :=
  if x.cpl = sel &&& 3 then x
    else ({ x.setEsp ts.tsEsp0 with ss := ts.tsSs0 }.pushSel x.ss).push x.regs.esp

/-- The CPU takes the gate `g`, and is in front of its handler. -/
def Core.deliver (x : Core) (ts : Taskstate) (g : Gatedesc) (err : Option Word) : Core :=
  let y := (((x.switchStack ts g.gdSel).push x.regs.eflags).pushSel x.cs).push x.regs.eip
  let y := (err.map y.push).getD y
  { y with cs := g.gdSel, regs := { y.regs with eflags := g.eflags x.regs.eflags } }

/-- The way into the kernel, up to the first instruction of `trap`. -/
def Core.enter (x : Core) (ts : Taskstate) (cause : Cause) (err next : Word) : Core :=
  let cpl := x.cpl.toNat
  let g := idt (cause.vector cpl)
  (x.deliver ts g (if cause.pushesError cpl then some err else none)).execAll
    (g.gdOff.code ++ alltraps next)

/-! ### Trap frames in memory -/

/-- The `struct Trapframe` at `a`. -/
def readFrame (m : Word → BitVec 8) (a : Word) : Trapframe where
  tfRegs :=
    { regEdi := load32 m a
      regEsi := load32 m (a + 4)
      regEbp := load32 m (a + 8)
      regOesp := load32 m (a + 12)
      regEbx := load32 m (a + 16)
      regEdx := load32 m (a + 20)
      regEcx := load32 m (a + 24)
      regEax := load32 m (a + 28) }
  tfEs := load16 m (a + 32)
  tfDs := load16 m (a + 36)
  tfTrapno := load32 m (a + 40)
  tfErr := load32 m (a + 44)
  tfEip := load32 m (a + 48)
  tfCs := load16 m (a + 52)
  tfEflags := load32 m (a + 56)
  tfEsp := load32 m (a + 60)
  tfSs := load16 m (a + 64)

/-- The argument of `trap`, at its first instruction. -/
def Core.trapArg (x : Core) : Word := load32 x.mem (x.regs.esp + 4)

end JOS
