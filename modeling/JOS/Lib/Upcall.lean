import JOS.Envs.Flags

/-!
# The page-fault upcall

`_pgfault_upcall` of `lib/pfentry.S`, as the instructions it consists of. `Running` is a program on
a CPU, with the machine around it; its loads and stores go through the page tables of its
environment, and `none` is a page fault. The value of `eip` matters where the code calls and
returns, and is left alone in between. Between two instructions of the upcall the program does
nothing else.
-/

namespace JOS

/-! ### A program on a CPU -/

/-- The registers of a program. -/
structure UserRegs where
  eax : Word
  ecx : Word
  edx : Word
  ebx : Word
  esp : Word
  ebp : Word
  esi : Word
  edi : Word
  eip : Word
  eflags : Word
  deriving DecidableEq, Repr

/-- The registers of a program that a trap frame holds. -/
def Trapframe.user (tf : Trapframe) : UserRegs where
  eax := tf.tfRegs.regEax
  ecx := tf.tfRegs.regEcx
  edx := tf.tfRegs.regEdx
  ebx := tf.tfRegs.regEbx
  esp := tf.tfEsp
  ebp := tf.tfRegs.regEbp
  esi := tf.tfRegs.regEsi
  edi := tf.tfRegs.regEdi
  eip := tf.tfEip
  eflags := tf.tfEflags

/-- A program that a CPU runs. -/
structure Running where
  kern : KState
  cpu : ℕ
  regs : UserRegs

namespace Running

/-- Physical memory. -/
def mem (x : Running) : Mem := x.kern.mem

/-- The page directory that the CPU has loaded. -/
def dir (x : Running) : ℕ := (x.kern.cpus x.cpu).cr3

/-- A load of one byte. -/
def load8 (x : Running) (va : Word) : Option (BitVec 8) :=
  (translate x.mem x.dir va).bind fun pte => if test pte PTE_U then
    loadByte x.mem x.dir va else none

/-- A load of four bytes, little end first. -/
def load (x : Running) (va : Word) : Option Word := do
  let b₀ ← x.load8 va
  let b₁ ← x.load8 (va + 1)
  let b₂ ← x.load8 (va + 2)
  let b₃ ← x.load8 (va + 3)
  return b₃ ++ b₂ ++ b₁ ++ b₀

/-- A store of one byte. -/
def store8 (x : Running) (va : Word) (b : BitVec 8) : Option Running :=
  (userStore x.kern x.cpu va b).map fun s => { x with kern := s }

/-- A store of four bytes. -/
def store (x : Running) (va w : Word) : Option Running :=
  (List.range 4).foldlM (fun x k => x.store8 (va + BitVec.ofNat 32 k) (byteOf w k)) x

/-- The same program, with other registers. -/
def withRegs (x : Running) (r : UserRegs) : Running := { x with regs := r }

end Running

/-! ### Instructions -/

/-- A general register. -/
inductive Reg where
  | eax
  | ecx
  | edx
  | ebx
  | esp
  | ebp
  | esi
  | edi
  deriving DecidableEq, Repr

namespace UserRegs

def get (r : UserRegs) : Reg → Word
  | .eax => r.eax
  | .ecx => r.ecx
  | .edx => r.edx
  | .ebx => r.ebx
  | .esp => r.esp
  | .ebp => r.ebp
  | .esi => r.esi
  | .edi => r.edi

def set (r : UserRegs) (w : Word) : Reg → UserRegs
  | .eax => { r with eax := w }
  | .ecx => { r with ecx := w }
  | .edx => { r with edx := w }
  | .ebx => { r with ebx := w }
  | .esp => { r with esp := w }
  | .ebp => { r with ebp := w }
  | .esi => { r with esi := w }
  | .edi => { r with edi := w }

end UserRegs

/-- CF, PF, AF, ZF, SF and OF. -/
def FL_STATUS : Word := 0x8D5#32

/-- EFLAGS after arithmetic on `a` and `b` with the result `r`. -/
def arithFlags (old a b r : Word) (carry overflow : Bool) : Word :=
  let parity := ((List.range 8).filter fun i => r.getLsbD i).length % 2 == 0
  let bit (f : Bool) (i : ℕ) : Word := if f then 1#32 <<< i else 0#32
  let aux := (a ^^^ b ^^^ r).getLsbD 4
  (old &&& ~~~FL_STATUS) |||
    ((bit carry 0 ||| bit parity 2 ||| bit aux 4 ||| bit (r == 0) 6 ||| bit r.msb 7 |||
    bit overflow 11) &&& FL_STATUS)

def addFlags (old a b : Word) : Word :=
  arithFlags old a b (a + b) (a + b < a) ((a ^^^ (a + b)) &&& (b ^^^ (a + b))).msb

def subFlags (old a b : Word) : Word :=
  arithFlags old a b (a - b) (a < b) ((a ^^^ b) &&& (a ^^^ (a - b))).msb

/-- The instructions of the upcall. -/
inductive Instr where
  /-- `pushl %src` -/
  | pushl (src : Reg)
  /-- `movl addr, %dst` -/
  | movlFrom (addr : Word) (dst : Reg)
  /-- `movl disp(%base), %dst` -/
  | movlLoad (disp : Word) (base dst : Reg)
  /-- `movl %src, (%base)` -/
  | movlStore (src base : Reg)
  /-- `addl $imm, %dst` -/
  | addl (imm : Word) (dst : Reg)
  /-- `subl $imm, disp(%base)` -/
  | sublAt (imm disp : Word) (base : Reg)
  /-- `popl %dst` -/
  | popl (dst : Reg)
  | popal
  | popfl
  /-- `call *%target`, with the next instruction at `next`. -/
  | call (target : Reg) (next : Word)
  | ret
  deriving DecidableEq, Repr

/-- One instruction. -/
def exec (x : Running) : Instr → Option Running
  | .pushl src => do
    let y ← x.store (x.regs.esp - 4) (x.regs.get src)
    return y.withRegs { x.regs with esp := x.regs.esp - 4 }
  | .movlFrom addr dst => do
    let w ← x.load addr
    return x.withRegs (x.regs.set w dst)
  | .movlLoad disp base dst => do
    let w ← x.load (x.regs.get base + disp)
    return x.withRegs (x.regs.set w dst)
  | .movlStore src base => x.store (x.regs.get base) (x.regs.get src)
  | .addl imm dst =>
    let a := x.regs.get dst
    some (x.withRegs { x.regs.set (a + imm) dst with eflags := addFlags x.regs.eflags a imm })
  | .sublAt imm disp base => do
    let a ← x.load (x.regs.get base + disp)
    let y ← x.store (x.regs.get base + disp) (a - imm)
    return y.withRegs { x.regs with eflags := subFlags x.regs.eflags a imm }
  | .popl dst => do
    let w ← x.load x.regs.esp
    -- `popl %esp` loads the word
    return x.withRegs ({ x.regs with esp := x.regs.esp + 4 }.set w dst)
  | .popal => do
    let esp := x.regs.esp
    let edi ← x.load esp
    let esi ← x.load (esp + 4)
    let ebp ← x.load (esp + 8)
    -- the word for `esp` is skipped
    let ebx ← x.load (esp + 16)
    let edx ← x.load (esp + 20)
    let ecx ← x.load (esp + 24)
    let eax ← x.load (esp + 28)
    return x.withRegs { x.regs with
      edi := edi, esi := esi, ebp := ebp, ebx := ebx, edx := edx, ecx := ecx, eax :=
        eax, esp := esp + 32 }
  | .popfl => do
    let w ← x.load x.regs.esp
    return x.withRegs { x.regs with esp := x.regs.esp + 4, eflags := userFlags x.regs.eflags w }
  | .call target next => do
    let y ← x.store (x.regs.esp - 4) next
    return y.withRegs { x.regs with esp := x.regs.esp - 4, eip := x.regs.get target }
  | .ret => do
    let w ← x.load x.regs.esp
    return x.withRegs { x.regs with esp := x.regs.esp + 4, eip := w }

/-- Instructions one after another. -/
def execAll (code : List Instr) (x : Running) : Option Running := code.foldlM exec x

/-! ### `lib/pfentry.S` -/

/-- Where the parts of the upcall are. -/
structure UpcallAddrs where
  /-- Its first instruction. -/
  pgfaultUpcall : Word
  /-- The variable `_pgfault_handler`. -/
  pgfaultHandler : Word
  /-- The instruction behind the call of the handler. -/
  next : Word

/-- `_pgfault_upcall` up to the C handler. -/
def upcallHead (addrs : UpcallAddrs) : List Instr :=
  [.pushl .esp, .movlFrom addrs.pgfaultHandler .eax, .call .eax addrs.next]

/-- `_pgfault_upcall` from the return of the handler on. -/
def upcallTail : List Instr :=
  [.addl 4 .esp,
    -- the trap-time `eip` is pushed to the trap-time stack
    .movlLoad 0x28 .esp .eax, .sublAt 4 0x30 .esp, .movlLoad 0x30 .esp .ebp, .movlStore .eax .ebp,
    -- `fault_va` and `err` are dropped
    .popl .eax, .popl .eax,
    .popal, .addl 4 .esp, .popfl, .popl .esp, .ret]

end JOS
