import JOS.Kern.Trap

/-!
# The gates

`trap_init` (`kern/trap.c`) fills the interrupt descriptor table with `SETGATE`
(`inc/mmu.h`); the handlers come from `TRAPHANDLER` (`kern/trapentry.S`) and push the
trap number. Then what the CPU does with the table: which gate it takes, and what EFLAGS
are behind it.

A gate names its handler here, and not the two halves of its address; fields that
`SETGATE` sets to 0 are left out.
-/

namespace JOS

def T_DIVIDE : Word := 0#32
def T_DEBUG : Word := 1#32
def T_NMI : Word := 2#32
def T_OFLOW : Word := 4#32
def T_BOUND : Word := 5#32
def T_ILLOP : Word := 6#32
def T_DEVICE : Word := 7#32
def T_DBLFLT : Word := 8#32
def T_TSS : Word := 10#32
def T_SEGNP : Word := 11#32
def T_STACK : Word := 12#32
def T_GPFLT : Word := 13#32
def T_FPERR : Word := 16#32
def T_ALIGN : Word := 17#32
def T_MCHK : Word := 18#32
def T_SIMDERR : Word := 19#32

/-- `FL_IOPL_MASK`. -/
def FL_IOPL_MASK : Word := 0x3000#32

/-- A handler: the number it pushes, and whether the CPU has pushed an error code before it. -/
structure TrapHandler where
  num : Word
  errorCode : Bool
  deriving DecidableEq, Repr

def TRAPHANDLER (num : Word) : TrapHandler := ⟨num, true⟩
def TRAPHANDLER_NOEC (num : Word) : TrapHandler := ⟨num, false⟩

def STS_IG32 : BitVec 4 := 0xE#4
def STS_TG32 : BitVec 4 := 0xF#4

/-- `struct Gatedesc`. -/
structure Gatedesc where
  gdOff : TrapHandler
  gdSel : BitVec 16
  gdType : BitVec 4
  gdDpl : BitVec 2
  gdP : BitVec 1
  deriving DecidableEq, Repr

/-- `SETGATE`. -/
def SETGATE (istrap : Bool) (sel : BitVec 16) (off : TrapHandler) (dpl : BitVec 2) : Gatedesc :=
  ⟨off, sel, if istrap then STS_TG32 else STS_IG32, dpl, 1⟩

/-- What `trap_init` sets, in its order; `IRQ_0` to `IRQ_15` are the handlers of the last
sixteen. -/
def trapInit : List (Word × Gatedesc) :=
  [(T_DIVIDE, SETGATE false GD_KT (TRAPHANDLER_NOEC T_DIVIDE) 0),
    (T_DEBUG, SETGATE false GD_KT (TRAPHANDLER_NOEC T_DEBUG) 0),
    (T_NMI, SETGATE false GD_KT (TRAPHANDLER_NOEC T_NMI) 0),
    (T_BRKPT, SETGATE true GD_KT (TRAPHANDLER_NOEC T_BRKPT) 3),
    (T_OFLOW, SETGATE false GD_KT (TRAPHANDLER_NOEC T_OFLOW) 0),
    (T_BOUND, SETGATE false GD_KT (TRAPHANDLER_NOEC T_BOUND) 0),
    (T_ILLOP, SETGATE false GD_KT (TRAPHANDLER_NOEC T_ILLOP) 0),
    (T_DEVICE, SETGATE false GD_KT (TRAPHANDLER_NOEC T_DEVICE) 0),
    (T_DBLFLT, SETGATE false GD_KT (TRAPHANDLER T_DBLFLT) 0),
    (T_TSS, SETGATE false GD_KT (TRAPHANDLER T_TSS) 0),
    (T_SEGNP, SETGATE false GD_KT (TRAPHANDLER T_SEGNP) 0),
    (T_STACK, SETGATE false GD_KT (TRAPHANDLER T_STACK) 0),
    (T_GPFLT, SETGATE false GD_KT (TRAPHANDLER T_GPFLT) 0),
    (T_PGFLT, SETGATE false GD_KT (TRAPHANDLER T_PGFLT) 0),
    (T_FPERR, SETGATE false GD_KT (TRAPHANDLER_NOEC T_FPERR) 0),
    (T_ALIGN, SETGATE false GD_KT (TRAPHANDLER T_ALIGN) 0),
    (T_MCHK, SETGATE false GD_KT (TRAPHANDLER_NOEC T_MCHK) 0),
    (T_SIMDERR, SETGATE false GD_KT (TRAPHANDLER_NOEC T_SIMDERR) 0),
    (T_SYSCALL, SETGATE false GD_KT (TRAPHANDLER_NOEC T_SYSCALL) 3)] ++
  (List.range 16).map fun i =>
    (IRQ_OFFSET + BitVec.ofNat 32 i,
      SETGATE false GD_KT (TRAPHANDLER_NOEC (IRQ_OFFSET + BitVec.ofNat 32 i)) 0)

/-- A descriptor that `trap_init` does not set. -/
def noGate : Gatedesc := ⟨⟨0, false⟩, 0, 0, 0, 0⟩

/-- The table `idt` after `trap_init`. -/
def idt (v : Word) : Gatedesc := (trapInit.lookup v).getD noGate

/-- What makes the CPU take a gate. -/
inductive Cause where
  /-- A fault, a trap or an abort that the CPU raises, or a non-maskable interrupt. -/
  | exception (v : Word)
  /-- An instruction such as `int` or `int3`. -/
  | software (v : Word)
  /-- An interrupt of a device. -/
  | hardware (v : Word)
  deriving DecidableEq, Repr

/-- The gate that is taken, from code of privilege level `cpl`: a program may only use gates that
are open to it, and a gate that is not present raises an exception of its own. -/
def Cause.vector (cpl : ℕ) : Cause → Word
  | .exception v => if (idt v).gdP = 0 then T_SEGNP else v
  | .software v => if (idt v).gdDpl.toNat < cpl then T_GPFLT
      else if (idt v).gdP = 0 then T_SEGNP else v
  | .hardware v => if (idt v).gdP = 0 then T_SEGNP else v

/-- EFLAGS behind a gate: an interrupt gate clears `FL_IF`, a trap gate does not. -/
def Gatedesc.eflags (g : Gatedesc) (eflags : Word) : Word :=
  if g.gdType = STS_IG32 then eflags &&& ~~~FL_IF else eflags

/-- `assert(!(read_eflags() & FL_IF))`, at the beginning of `trap`: whether it holds there. -/
def trapAssert (g : Gatedesc) (eflags : Word) : Bool := !test (g.eflags eflags) FL_IF

end JOS
