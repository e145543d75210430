import JOS.Kern.MemInit
import JOS.Lib.Upcall

/-!
# Programs that fork

`fork`, `duppage` and `pgfault` of `lib/fork.c`, with `set_pgfault_handler` of `lib/pgfault.c` and
the stubs of `lib/syscall.c`, run by any number of programs on the kernel of `Kern.Machine`. `Lib`
is where a program is in this code: `fork` says where it is in `fork`, and `fault` where it is in
the handler, which a page fault may start at any time. The code goes on in steps that end at a
system call, or at a store (`Move.go`), and each system call is a trap, with the arguments that the
code passes (`Lib.call`). What else a program does is to store to its memory (`Move.store`; `fork`
and the upcall themselves do it, to their stacks), to call `fork`, and to make system calls that map
nothing.

`panic` is where a program stops: it prints nothing here.
-/

namespace JOS

open Function (update)

/-! ### `lib/fork.c` -/

def PTE_COW : Word := 0x800#32
def FEC_WR : Word := 0x2#32

/-- What the linker places. -/
structure Symbols where
  /-- The variable `_pgfault_handler`. -/
  pgfaultHandler : Word
  /-- The function `pgfault`. -/
  pgfault : Word
  /-- The upcall `_pgfault_upcall`. -/
  pgfaultUpcall : Word
  /-- The variable `thisenv`. -/
  thisenv : Word

/-- Where a program is in `fork`. -/
inductive ForkPc where
  /-- In its own code. -/
  | idle
  /-- `set_pgfault_handler`: `if (_pgfault_handler == 0)`. -/
  | handlerTest
  /-- `sys_page_alloc(0, UXSTACKTOP-PGSIZE, ..)`. -/
  | handlerAlloc
  /-- `sys_env_set_pgfault_upcall(0, _pgfault_upcall)`. -/
  | handlerUpcall
  /-- `_pgfault_handler = handler`, from byte `k` on. -/
  | handlerStore (k : ℕ)
  /-- `sys_exofork()`. -/
  | exofork
  /-- `sys_getenvid()`, in the child. -/
  | getenvid
  /-- `thisenv = p`, from byte `k` on. -/
  | thisenvStore (p : Word) (k : ℕ)
  /-- The loop over the pages, in the parent. -/
  | scan (envid addr : Word)
  /-- The test of `duppage`. -/
  | dup (envid addr : Word)
  /-- The first `sys_page_map` for a page to be copied on write. -/
  | dupChild (envid addr : Word)
  /-- The second one. -/
  | dupSelf (envid addr : Word)
  /-- `sys_page_map` for another page. -/
  | dupRead (envid addr : Word)
  /-- `sys_page_alloc(envid, UXSTACKTOP-PGSIZE, ..)`. -/
  | stackAlloc (envid : Word)
  /-- `sys_env_set_pgfault_upcall(envid, _pgfault_upcall)`. -/
  | upcallSet (envid : Word)
  /-- `sys_env_set_status(envid, ENV_RUNNABLE)`. -/
  | statusSet (envid : Word)
  /-- `panic`. -/
  | panicked
  deriving DecidableEq, Repr

/-- Where a program is in its page fault handler `pgfault`. -/
inductive FaultPc where
  /-- Not in the handler. -/
  | none
  /-- The test. -/
  | entered (va err : Word)
  /-- `sys_page_alloc(0, PFTEMP, ..)`. -/
  | alloc (addr : Word)
  /-- `memcpy(PFTEMP, addr, PGSIZE)`, from byte `n` on. -/
  | copy (addr : Word) (n : ℕ)
  /-- `sys_page_map(0, PFTEMP, 0, addr, ..)`. -/
  | map (addr : Word)
  /-- `sys_page_unmap(0, PFTEMP)`. -/
  | unmap (addr : Word)
  deriving DecidableEq, Repr

/-- Where a program is in the library. -/
structure Lib where
  fork : ForkPc
  fault : FaultPc
  deriving DecidableEq, Repr

/-- A system call with its arguments. -/
structure Call where
  no : SysNo
  args : List Word

/-- The address of page `pn`. -/
def pageAddr (pn : ℕ) : Word := BitVec.ofNat 32 pn * PGSIZE

/-! ### The page tables, as a program sees them -/

/-- The program that CPU `c` runs. -/
def KState.program (s : KState) (c : ℕ) : Running where
  kern := s
  cpu := c
  regs := (s.envs ((s.curenv c).getD 0)).envTf.user

/-- `uvpt[pn]`. -/
def uvpt (x : Running) (pn : ℕ) : Option Word := x.load (UVPT + BitVec.ofNat 32 pn * 4)

/-- `uvpd[i]`. -/
def uvpd (x : Running) (i : ℕ) : Option Word :=
  x.load (UVPT + (UVPT >>> 12) * 4 + BitVec.ofNat 32 i * 4)

/-! ### Between two system calls -/

namespace Lib

/-- A program that has just started. -/
def start : Lib := ⟨.idle, .none⟩

def panicked : Lib := ⟨.panicked, .none⟩

/-- The child of a `fork`: `sys_exofork` has returned 0. -/
def child : Lib := ⟨.getenvid, .none⟩

/-- The system call that comes next. -/
def call (y : Symbols) (l : Lib) : Option Call :=
  match l.fault with
  | .none =>
    match l.fork with
    | .handlerAlloc => some ⟨.pageAlloc, [0, UXSTACKTOP - PGSIZE, PTE_U ||| PTE_W ||| PTE_P, 0, 0]⟩
    | .handlerUpcall => some ⟨.envSetPgfaultUpcall, [0, y.pgfaultUpcall, 0, 0, 0]⟩
    | .exofork => some ⟨.exofork, []⟩
    | .getenvid => some ⟨.getenvid, [0, 0, 0, 0, 0]⟩
    | .dupChild envid addr =>
      some ⟨.pageMap, [0, pageAddr (PGNUM addr), envid, pageAddr (PGNUM addr),
        PTE_COW ||| PTE_U ||| PTE_P]⟩
    | .dupSelf _ addr => some
        ⟨.pageMap, [0, pageAddr (PGNUM addr), 0, pageAddr (PGNUM addr),
        PTE_COW ||| PTE_U ||| PTE_P]⟩
    | .dupRead envid addr =>
        some ⟨.pageMap, [0, pageAddr (PGNUM addr), envid, pageAddr (PGNUM addr), PTE_U ||| PTE_P]⟩
    | .stackAlloc envid => some
        ⟨.pageAlloc, [envid, UXSTACKTOP - PGSIZE, PTE_U ||| PTE_W ||| PTE_P, 0, 0]⟩
    | .upcallSet envid => some ⟨.envSetPgfaultUpcall, [envid, y.pgfaultUpcall, 0, 0, 0]⟩
    | .statusSet envid => some ⟨.envSetStatus, [envid, 2, 0, 0, 0]⟩
    | _ => none
  | .alloc _ => some ⟨.pageAlloc, [0, PFTEMP, PTE_W ||| PTE_U ||| PTE_P, 0, 0]⟩
  | .map addr => some ⟨.pageMap, [0, PFTEMP, 0, addr, PTE_W ||| PTE_U ||| PTE_P]⟩
  | .unmap _ => some ⟨.pageUnmap, [0, PFTEMP, 0, 0, 0]⟩
  | _ => none

/-- Where `fork` goes on when its system call has returned `r`. A result that is an error or, for
the stub, too large is the end. -/
def forkAnswered (r : Word) : ForkPc → ForkPc
  | .handlerAlloc => if r = 0 then .handlerUpcall else .panicked
  | .handlerUpcall => if r = 0 then .handlerStore 0 else .panicked
  | .exofork => if r.toInt < 0 then .panicked else if r = 0 then .getenvid else .scan r 0
  | .getenvid => .thisenvStore (UENVS + BitVec.ofNat 32 (ENVX r) * sizeofEnv) 0
  | .dupChild envid addr => if r = 0 then .dupSelf envid addr else .panicked
  | .dupSelf envid addr => if r = 0 then .scan envid (addr + PGSIZE) else .panicked
  | .dupRead envid addr => if r = 0 then .scan envid (addr + PGSIZE) else .panicked
  | .stackAlloc envid => if r = 0 then .upcallSet envid else .panicked
  | .upcallSet envid => if 0 < r.toInt then .panicked else .statusSet envid
  | .statusSet _ => if r = 0 then .idle else .panicked
  | pc => pc

/-- Where the program goes on when its system call has returned `r`. -/
def answered (l : Lib) (r : Word) : Lib :=
  match l.fault with
  | .alloc addr => if r = 0 then { l with fault := .copy addr 0 } else panicked
  | .map addr => if r = 0 then { l with fault := .unmap addr } else panicked
  | .unmap _ => if r = 0 then { l with fault := .none } else panicked
  | _ => { l with fork := forkAnswered r l.fork }

/-- The test of `pgfault`. -/
def pgfaultTest (x : Running) (va err : Word) : Option Bool :=
  if !test err FEC_WR then some false
  else do
    let pde ← uvpd x (PDX va)
    if !test pde PTE_P then some false
    else do
      let pte ← uvpt x (PGNUM va)
      some (~~~pte &&& (PTE_COW ||| PTE_P) == 0#32)

/-- The test of the loop of `fork`. -/
def scanTest (x : Running) (addr : Word) : Option Bool := do
  let pde ← uvpd x (PDX addr)
  if !test pde PTE_P then some false
  else do
    let pte ← uvpt x (PGNUM addr)
    some (test pte PTE_P && test pte PTE_U)

/-- One step of `fork` that is no system call. -/
def goFork (y : Symbols) (s : KState) (c : ℕ) : ForkPc → Option (KState × ForkPc)
  | .handlerTest => do
    let handler ← (s.program c).load y.pgfaultHandler
    some (s, if handler = 0 then .handlerAlloc else .handlerStore 0)
  | .handlerStore k => do
    let s ← step s (.store c (y.pgfaultHandler + BitVec.ofNat 32 k) (byteOf y.pgfault k))
    some (s, if k < 3 then .handlerStore (k + 1) else .exofork)
  | .thisenvStore p k => do
    let s ← step s (.store c (y.thisenv + BitVec.ofNat 32 k) (byteOf p k))
    some (s, if k < 3 then .thisenvStore p (k + 1) else .idle)
  | .scan envid addr =>
    if addr < USTACKTOP then do
      let b ← scanTest (s.program c) addr
      some (s, if b then .dup envid addr else .scan envid (addr + PGSIZE))
    else some (s, .stackAlloc envid)
  | .dup envid addr => do
    let pte ← uvpt (s.program c) (PGNUM addr)
    some (s, if test pte PTE_W || test pte PTE_COW then .dupChild envid addr
      else .dupRead envid addr)
  | _ => none

/-- One step of the library that is no system call. -/
def go (y : Symbols) (s : KState) (c : ℕ) (l : Lib) : Option (KState × Lib) :=
  match l.fault with
  | .none => (goFork y s c l.fork).map fun x => (x.1, { l with fork := x.2 })
  | .entered va err => do
    let b ← pgfaultTest (s.program c) va err
    some (s, if b then { l with fault := .alloc (ROUNDDOWN va PGSIZE) } else panicked)
  | .copy addr n => do
    let b ← (s.program c).load8 (addr + BitVec.ofNat 32 n)
    let s ← step s (.store c (PFTEMP + BitVec.ofNat 32 n) b)
    some (s, { l with fault := if n + 1 < PGSIZE.toNat then .copy addr (n + 1) else .map addr })
  | _ => none

/-- The program may store at `va`: its handler stores to the exception stack only. -/
def stores (l : Lib) (va : Word) : Bool :=
  l.fork != .panicked && (l.fault == .none || decide (USTACKTOP ≤ va))

end Lib

/-- The trap makes the system call. -/
def TrapIn.makes (t : TrapIn) (k : Call) : Bool :=
  SysNo.ofWord t.args.no == some k.no && [t.args.a1, t.args.a2, t.args.a3, t.args.a4,
    t.args.a5].take k.args.length == k.args

/-- A system call of the program's own code: it maps nothing, and destroys no other environment. -/
def TrapIn.harmless (t : TrapIn) : Bool :=
  match SysNo.ofWord t.args.no with
  | none => true
  | some .cputs => true
  | some .cgetc => true
  | some .getenvid => true
  | some .yield => true
  | some .envDestroy => t.args.a1 == 0
  | some _ => false

/-- The trap fits where the program is: the handler makes no page fault of its own. -/
def Lib.traps (y : Symbols) (l : Lib) (t : TrapIn) : Bool :=
  if t.tf.tfTrapno = T_PGFLT then l.fault == .none && l.fork != .panicked
  else if t.tf.tfTrapno = T_SYSCALL then
    match l.call y with
    | some k => t.makes k
    | none => l == .start && t.harmless
  else true

/-! ### Programs and the kernel -/

/-- The kernel, and where each program is. -/
structure World where
  kern : KState
  lib : ℕ → Lib

/-- What can happen next. -/
inductive Move where
  /-- CPU `c` has finished booting. -/
  | start (c : ℕ)
  /-- The program on CPU `c` stores a byte. -/
  | store (c : ℕ) (va : Word) (b : BitVec 8)
  /-- The program on CPU `c` calls `fork`. -/
  | fork (c : ℕ)
  /-- The library goes on, on CPU `c`. -/
  | go (c : ℕ)
  /-- A trap on CPU `c`. -/
  | trap (c : ℕ) (t : TrapIn)

namespace World

/-- Where the programs are after a trap of `e` that has led to `s`. The page fault of a program that
is not destroyed starts its handler. -/
def afterTrap (y : Symbols) (lib : ℕ → Lib) (e : ℕ) (t : TrapIn) (s : KState) : ℕ → Lib :=
  if s.dirs e = none then update lib e .start
  else if t.tf.tfTrapno = T_PGFLT then update lib e
    { lib e with fault := .entered t.cr2 t.tf.tfErr }
  else if t.tf.tfTrapno = T_SYSCALL then
    match (lib e).call y with
    | none => lib
    | some k =>
      let r := (s.envs e).envTf.tfRegs.regEax
      let lib' := update lib e ((lib e).answered r)
      if k.no = .exofork ∧ 0 < r.toInt then update lib' (ENVX r) .child else lib'
  else lib

/-- One move; `none` when it cannot happen. -/
def step (y : Symbols) (w : World) : Move → Option World
  | .start c => (JOS.step w.kern (.start c)).map fun s => { w with kern := s }
  | .store c va b => do
    let e ← w.kern.curenv c
    if (w.lib e).stores va then (JOS.step w.kern (.store c va b)).map fun s =>
      { w with kern := s } else none
  | .fork c => do
    let e ← w.kern.curenv c
    if w.lib e = .start then
      some { w with lib := update w.lib e { w.lib e with fork := .handlerTest } } else none
  | .go c => do
    let e ← w.kern.curenv c
    let (s, l) ← (w.lib e).go y w.kern c
    some ⟨s, update w.lib e l⟩
  | .trap c t =>
    match w.kern.curenv c with
    | none => (JOS.step w.kern (.trap c t)).map fun s => { w with kern := s }
    | some e =>
      if (w.lib e).traps y t then (JOS.step w.kern (.trap c t)).map fun s =>
        ⟨s, afterTrap y w.lib e t s⟩ else none

end World

end JOS
