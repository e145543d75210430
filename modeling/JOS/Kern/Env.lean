import JOS.Kern.Pmap

/-!
# Environments

`kern/env.c`: the environment table, `envid2env`, `env_alloc` with `env_setup_vm`,
`region_alloc` and `env_free`. The functions that do not come back to their caller
(`env_destroy` of the running environment, `env_run`) are in `JOS.Kern.Sched`.

## The model

A `struct Env *` is an index into `envs`, and `env_pgdir` is the page of the
directory, `none` when null. `curenv` is `cpu_env` of the CPU the code runs on, so a
function that uses it takes the CPU's number.

`acts` is not in the source: it lists what the last entry into the kernel did to the
states of environments and to `curenv`, latest first, for statements about when
`env_run` and `env_free` are executed. Nothing reads it.
-/

namespace JOS

/-- `env_status`. -/
inductive EnvStatus where
  | free
  | dying
  | runnable
  | running
  | notRunnable
  deriving DecidableEq, Repr

/-- `struct PushRegs`. -/
structure PushRegs where
  regEdi : Word
  regEsi : Word
  regEbp : Word
  regOesp : Word
  regEbx : Word
  regEdx : Word
  regEcx : Word
  regEax : Word
  deriving DecidableEq, Repr

/-- `struct Trapframe`. -/
structure Trapframe where
  tfRegs : PushRegs
  tfEs : BitVec 16
  tfDs : BitVec 16
  tfTrapno : Word
  tfErr : Word
  tfEip : Word
  tfCs : BitVec 16
  tfEflags : Word
  tfEsp : Word
  tfSs : BitVec 16
  deriving DecidableEq, Repr

/-- `struct Env`. -/
structure Env where
  /-- Saved registers. -/
  envTf : Trapframe
  /-- Next free environment. -/
  envLink : Option ℕ
  /-- Unique environment identifier. -/
  envId : Word
  /-- `env_id` of this environment's parent. -/
  envParentId : Word
  /-- Status of the environment. -/
  envStatus : EnvStatus
  /-- Number of times the environment has run. -/
  envRuns : Word
  /-- The CPU that the environment is running on. -/
  envCpunum : ℕ
  /-- The page directory. -/
  envPgdir : Option ℕ
  /-- Page fault upcall entry point. -/
  envPgfaultUpcall : Word
  /-- The environment is blocked receiving. -/
  envIpcRecving : Bool
  /-- Where to map a received page. -/
  envIpcDstva : Word
  /-- Data value sent to us. -/
  envIpcValue : Word
  /-- `env_id` of the sender. -/
  envIpcFrom : Word
  /-- Permissions of the received page. -/
  envIpcPerm : Word

/-- `cpu_status`. -/
inductive CpuStatus where
  | unused
  | started
  | halted
  deriving DecidableEq, Repr

/-- `struct CpuInfo`, and the CPU's CR3. -/
structure CpuInfo where
  /-- The status of the CPU. -/
  cpuStatus : CpuStatus
  /-- The currently running environment. -/
  cpuEnv : Option ℕ
  /-- The page directory loaded in CR3. -/
  cr3 : ℕ

/-- What an entry into the kernel does to environments and to `curenv`. -/
inductive Act where
  /-- `env_create` or `sys_exofork` got `e` from `env_alloc` and left it in the status `st`. -/
  | alloc (e : ℕ) (st : EnvStatus)
  /-- `env_free(e)` on CPU `c`. -/
  | free (c e : ℕ)
  /-- `env_destroy(e)` made `e` a zombie. -/
  | zombie (e : ℕ)
  /-- `sys_env_set_status` gave `e` the status `st`. -/
  | setStatus (e : ℕ) (st : EnvStatus)
  /-- `sys_ipc_try_send` completed a send to `e`. -/
  | ipc (e : ℕ)
  /-- `sys_ipc_recv` blocked `e`. -/
  | block (e : ℕ)
  /-- `curenv = NULL` on CPU `c`. -/
  | clear (c : ℕ)
  /-- `env_run(e)` on CPU `c`. -/
  | run (c e : ℕ)
  deriving DecidableEq, Repr

/-- The state of the kernel. -/
structure KState where
  /-- Physical memory and its bookkeeping. -/
  mem : Mem
  /-- The array `envs`. -/
  envs : ℕ → Env
  /-- The head of the list of free environments. -/
  envFreeList : Option ℕ
  /-- The array `cpus`. -/
  cpus : ℕ → CpuInfo
  /-- What the last kernel entry did. -/
  acts : List Act

def NENV : ℕ := 1024
def ENVGENSHIFT : ℕ := 12

/-- `ENVX(envid)`. -/
def ENVX (envid : Word) : ℕ := (envid &&& 0x3FF#32).toNat

theorem ENVX_lt (envid : Word) : ENVX envid < NENV := by
  rw [ENVX, BitVec.toNat_and]
  exact lt_of_le_of_lt Nat.and_le_right (by decide)

namespace KState

/-- Overwrite `envs[e]`. -/
def setEnv (s : KState) (e : ℕ) (x : Env) : KState := { s with envs := Function.update s.envs e x }

@[simp] theorem setEnv_envs_self (s : KState) (e : ℕ) (x : Env) : (s.setEnv e x).envs e = x :=
  Function.update_self _ _ _

/-- Overwrite `cpus[c]`. -/
def setCpu (s : KState) (c : ℕ) (x : CpuInfo) : KState :=
  { s with cpus := Function.update s.cpus c x }

/-- `curenv` on CPU `c`. -/
def curenv (s : KState) (c : ℕ) : Option ℕ := (s.cpus c).cpuEnv

/-- `curenv = o` on CPU `c`. -/
def setCurenv (s : KState) (c : ℕ) (o : Option ℕ) : KState :=
  s.setCpu c { s.cpus c with cpuEnv := o }

/-- `lcr3` on CPU `c`. -/
def lcr3 (s : KState) (c p : ℕ) : KState := s.setCpu c { s.cpus c with cr3 := p }

/-- `e->env_status = st`. -/
def setStatus (s : KState) (e : ℕ) (st : EnvStatus) : KState :=
  s.setEnv e { s.envs e with envStatus := st }

/-- The status of environment `e`. -/
def status (s : KState) (e : ℕ) : EnvStatus := (s.envs e).envStatus

/-- Record an act. -/
def log (s : KState) (a : Act) : KState := { s with acts := a :: s.acts }

/-- Nothing has been done yet. -/
def reset (s : KState) : KState := { s with acts := [] }

/-- The page directories of the environments. -/
def dirs (s : KState) (e : ℕ) : Option ℕ := (s.envs e).envPgdir

end KState

/-- A pointer that is used: null is undefined behaviour. -/
def deref {α : Type} : Option α → Except Stop α
  | none => .error .undef
  | some a => .ok a

/-- `envid2env`, on a CPU whose `curenv` is `cur`; `none` is `-E_BAD_ENV`. -/
def envid2env (s : KState) (cur : ℕ) (envid : Word) (checkperm : Bool) : Option ℕ :=
  if envid = 0 then some cur
  else
    let e := ENVX envid
    if (s.envs e).envStatus = .free ∨ (s.envs e).envId ≠ envid then none
    else if checkperm ∧ e ≠ cur ∧ (s.envs e).envParentId ≠ (s.envs cur).envId then none
    else some e

/-- `env_setup_vm`: `0`, or `-E_NO_MEM`. -/
def envSetupVm (s : KState) (e : ℕ) : Except Stop (Word × KState) := do
  match ← pageAlloc s.mem true with
  | (none, m) => return (-E_NO_MEM, { s with mem := m })
  | (some p, m) =>
    let m := m.setRef p ((m.pages p).ppRef + 1)
    let pgdir ← kaddr m (page2pa p)
    let m := m.setPage pgdir (m.phys m.kernPgdir)
    let m := m.setWord pgdir (PDX UVPT) (page2pa pgdir ||| PTE_P ||| PTE_U)
    return (0, { s with mem := m }.setEnv e { s.envs e with envPgdir := some pgdir })

def GD_UT : BitVec 16 := 0x18#16
def GD_UD : BitVec 16 := 0x20#16
def GD_KT : BitVec 16 := 0x08#16
def FL_IF : Word := 0x200#32

/-- The registers `env_alloc` gives a new environment. -/
def Trapframe.fresh : Trapframe where
  tfRegs := ⟨0, 0, 0, 0, 0, 0, 0, 0⟩
  tfEs := GD_UD ||| 3
  tfDs := GD_UD ||| 3
  tfTrapno := 0
  tfErr := 0
  tfEip := 0
  tfCs := GD_UT ||| 3
  tfEflags := FL_IF
  tfEsp := USTACKTOP
  tfSs := GD_UD ||| 3

/-- The `env_id` slot `e` gets next, when `old` was its last one. -/
def nextEnvId (old : Word) (e : ℕ) : Word :=
  let generation := (old + (1#32 <<< ENVGENSHIFT)) &&& ~~~(BitVec.ofNat 32 (NENV - 1))
  let generation := if generation.toInt ≤ 0 then 1#32 <<< ENVGENSHIFT else generation
  generation ||| BitVec.ofNat 32 e

/-- The fields `env_alloc` sets in slot `e`. -/
def Env.renew (x : Env) (e : ℕ) (parentId : Word) : Env :=
  { x with
    envId := nextEnvId x.envId e
    envParentId := parentId
    envStatus := .runnable
    envRuns := 0
    envTf := .fresh
    envPgfaultUpcall := 0
    envIpcRecving := false }

/-- `env_alloc`: the new environment, or the error code. -/
def envAlloc (s : KState) (parentId : Word) : Except Stop (Except Word ℕ × KState) :=
  match s.envFreeList with
  | none => .ok (.error (-E_NO_FREE_ENV), s)
  | some e => do
    let (r, s) ← envSetupVm s e
    if r ≠ 0 then return (.error r, s)
    else
      let s := s.setEnv e ((s.envs e).renew e parentId)
      return (.ok e, { s with envFreeList := (s.envs e).envLink })

/-- The loop of `region_alloc`, in the directory `pgdir`. -/
def regionAllocLoop (pgdir : ℕ) (fin : Word) : ℕ → Word → Mem → Except Stop Mem
  | 0, _, m => .ok m
  | n + 1, i, m =>
    if i < fin then do
      match ← pageAlloc m false with
      | (none, _) => .error .panic
      | (some newPage, m) =>
        let (flag, m) ← pageInsert (m.markUser newPage true) pgdir newPage i (PTE_W ||| PTE_U)
        if flag ≠ 0 then .error .panic else regionAllocLoop pgdir fin n (i + PGSIZE) m
    else .ok m

/-- `region_alloc`. -/
def regionAlloc (s : KState) (e : ℕ) (va len : Word) : Except Stop KState := do
  let pgdir ← deref (s.envs e).envPgdir
  let m ← regionAllocLoop pgdir (ROUNDUP (va + len) PGSIZE) (2 ^ 20) (ROUNDDOWN va PGSIZE) s.mem
  return { s with mem := m }

/-- The inner loop of `env_free`: unmap every present entry of the table in page `pt`. -/
def envFreePtes (pgdir pt pdeno : ℕ) (m : Mem) : Except Stop Mem :=
  (List.range NPTENTRIES).foldlM (fun m pteno =>
    if test (m.phys pt pteno) PTE_P then pageRemove m pgdir (PGADDR pdeno pteno 0) else .ok m) m

/-- One pass of the outer loop of `env_free`. -/
def envFreePde (pgdir : ℕ) (m : Mem) (pdeno : ℕ) : Except Stop Mem :=
  if test (m.phys pgdir pdeno) PTE_P then do
    let pa := PTE_ADDR (m.phys pgdir pdeno)
    let pt ← kaddr m pa
    let m ← envFreePtes pgdir pt pdeno m
    let pp ← pa2page m pa
    pageDecref (m.setWord pgdir pdeno 0) pp
  else .ok m

/-- What `env_free` does to memory. -/
def envFreeVm (m : Mem) (pgdir : ℕ) : Except Stop Mem := do
  let m ← (List.range NUPDX).foldlM (envFreePde pgdir) m
  let pp ← pa2page m (page2pa pgdir)
  pageDecref m pp

/-- `env_free`, on CPU `c`. -/
def envFree (s : KState) (c e : ℕ) : Except Stop KState := do
  let s := s.log (.free c e)
  let s := if s.curenv c = some e then s.lcr3 c s.mem.kernPgdir else s
  let pgdir ← deref (s.envs e).envPgdir
  let m ← envFreeVm s.mem pgdir
  let s := { s with mem := m }.setEnv e
    { s.envs e with envPgdir := none, envStatus := .free, envLink := s.envFreeList }
  return { s with envFreeList := some e }

end JOS
