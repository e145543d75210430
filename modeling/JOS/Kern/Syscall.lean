import JOS.Kern.Sched
import JOS.Lib.Printfmt

/-!
# System calls

`kern/syscall.c`. A call runs on CPU `c` for the environment `cur`, which is `curenv`
there, and gives back the value for `eax`; those that may not return to the caller
are in `Except Leave`.

The argument checks of `sys_page_map` and `sys_ipc_try_send` are named
(`pageMapArgs`, `ipcSendArgs`), so that a statement can speak of the calls that get
past them.
-/

namespace JOS

/-- `cprintf("%.*s", len, s)`, with the bytes that CPU `c` reads through CR3. -/
def cputs (s : KState) (c : ℕ) (str len : Word) : Fmt :=
  vprintfmt (loadByte s.mem (s.cpus c).cr3) (bytes "%.*s") [len, str]

/-- `sys_cputs`. -/
def sysCputs (s : KState) (c cur : ℕ) (str len : Word) : Except Leave KState := do
  let s ← userMemAssert s c cur str len PTE_U
  match (cputs s c str len).halt with
  | none => return s
  | some w => .error (.stop w)

/-- `sys_env_destroy`. -/
def sysEnvDestroy (s : KState) (c cur : ℕ) (envid : Word) : Except Leave (Word × KState) :=
  match envid2env s cur envid true with
  | none => return (-E_BAD_ENV, s)
  | some e => return (0, ← envDestroy s c e)

/-- `sys_exofork`. -/
def sysExofork (s : KState) (cur : ℕ) : Except Stop (Word × KState) := do
  match ← envAlloc s (s.envs cur).envId with
  | (.error r, s) => return (r, s)
  | (.ok e, s) =>
    let s := (s.setStatus e .notRunnable).log (.alloc e .notRunnable)
    let tf := (s.envs cur).envTf
    let s := s.setEnv e { s.envs e with
      envTf := { tf with tfRegs := { tf.tfRegs with regEax := 0 } } }
    return ((s.envs e).envId, s)

/-- The statuses `sys_env_set_status` accepts. -/
def statusArg (status : Word) : Option EnvStatus :=
  if status = 2 then some .runnable else if status = 4 then some .notRunnable else none

/-- `sys_env_set_status`. -/
def sysEnvSetStatus (s : KState) (cur : ℕ) (envid status : Word) : Word × KState :=
  match statusArg status with
  | none => (-E_INVAL, s)
  | some st =>
    match envid2env s cur envid true with
    | none => (-E_BAD_ENV, s)
    | some e => (0, (s.setStatus e st).log (.setStatus e st))

/-- `sys_env_set_pgfault_upcall`. -/
def sysEnvSetPgfaultUpcall (s : KState) (cur : ℕ) (envid func : Word) : Word × KState :=
  match envid2env s cur envid true with
  | none => (-E_BAD_ENV, s)
  | some e => (0, s.setEnv e { s.envs e with envPgfaultUpcall := func })

/-- `va < UTOP` and page-aligned. -/
def vaOk (va : Word) : Bool := !(va ≥ UTOP || PGOFF va != 0)

/-- The permissions `sys_page_alloc` and `sys_page_map` accept. -/
def permOk (perm : Word) : Bool :=
  (PTE_U ||| PTE_P) &&& perm == PTE_U ||| PTE_P &&
    perm &&& ~~~(PTE_U ||| PTE_P ||| PTE_AVAIL ||| PTE_W) == 0#32

/-- `sys_page_alloc`. -/
def sysPageAlloc (s : KState) (cur : ℕ) (envid va perm : Word) : Except Stop (Word × KState) :=
  match envid2env s cur envid true with
  | none => .ok (-E_BAD_ENV, s)
  | some e =>
    if !vaOk va then .ok (-E_INVAL, s)
    else if !permOk perm then .ok (-E_INVAL, s)
    else do
      match ← pageAlloc s.mem true with
      | (none, m) => return (-E_NO_MEM, { s with mem := m })
      | (some page, m) =>
        let pgdir ← deref (s.envs e).envPgdir
        let (flag, m) ← pageInsert (m.markUser page true) pgdir page va perm
        if flag ≠ 0 then return (flag, { s with mem := ← pageFree m page })
        else return (0, { s with mem := m })

/-- The checks of `sys_page_map` up to `page_lookup`: the two environments, or the error. -/
def pageMapArgs (s : KState) (cur : ℕ) (srcenvid srcva dstenvid dstva perm : Word) :
    Except Word (ℕ × ℕ) :=
  match envid2env s cur srcenvid true, envid2env s cur dstenvid true with
  | some e₁, some e₂ =>
    if !vaOk srcva then .error (-E_INVAL)
    else if !vaOk dstva then .error (-E_INVAL)
    else if !permOk perm then .error (-E_INVAL)
    else .ok (e₁, e₂)
  | _, _ => .error (-E_BAD_ENV)

/-- `sys_page_map`. When `page_lookup` finds no table it stores no entry pointer, and
`*page_table1` reads through an uninitialised one. -/
def sysPageMap (s : KState) (cur : ℕ) (srcenvid srcva dstenvid dstva perm : Word) :
    Except Stop (Word × KState) :=
  match pageMapArgs s cur srcenvid srcva dstenvid dstva perm with
  | .error r => .ok (r, s)
  | .ok (e₁, e₂) => do
    let pgdir₁ ← deref (s.envs e₁).envPgdir
    let (page, pte) ← deref (← pageLookup s.mem pgdir₁ srcva)
    -- `PTE_W` is 2, so the second comparison is never true
    if s.mem.word pte &&& PTE_W = 0 ∧ perm &&& PTE_W = 1 then return (-E_INVAL, s)
    else
      let pgdir₂ ← deref (s.envs e₂).envPgdir
      let (r, m) ← pageInsert s.mem pgdir₂ page dstva perm
      if r ≠ 0 then return (-E_NO_MEM, { s with mem := m })
      else return (0, { s with mem := m })

/-- `sys_page_unmap`. -/
def sysPageUnmap (s : KState) (cur : ℕ) (envid va : Word) : Except Stop (Word × KState) :=
  match envid2env s cur envid true with
  | none => .ok (-E_BAD_ENV, s)
  | some e =>
    if !vaOk va then .ok (-E_INVAL, s)
    else do
      let pgdir ← deref (s.envs e).envPgdir
      return (0, { s with mem := ← pageRemove s.mem pgdir va })

/-- The checks of `sys_ipc_try_send` up to `page_lookup`: the receiver, or the error. -/
def ipcSendArgs (s : KState) (cur : ℕ) (envid : Word) : Except Word ℕ :=
  match envid2env s cur envid false with
  | none => .error (-E_BAD_ENV)
  | some e => if !(s.envs e).envIpcRecving then .error (-E_IPC_NOT_RECV) else .ok e

/-- The checks of `sys_ipc_try_send` on the page to send, whose entry is `pte`. -/
def ipcPageOk (pte srcva perm : Word) : Bool :=
  !(test perm (~~~PTE_SYSCALL) || !test perm PTE_U || !test perm PTE_P) &&
    !(test perm PTE_W && !test pte PTE_W) && PGOFF srcva == 0#32

/-- The page transfer of `sys_ipc_try_send` to `e`: `0`, or the error. -/
def ipcSendPage (s : KState) (cur e : ℕ) (srcva perm : Word) : Except Stop (Word × KState) := do
  let pgdir ← deref (s.envs cur).envPgdir
  match ← pageLookup s.mem pgdir srcva with
  | none => return (-E_INVAL, s)
  | some (pg, pte) =>
    if !ipcPageOk (s.mem.word pte) srcva perm then return (-E_INVAL, s)
    else if (s.envs e).envIpcDstva < UTOP then
      let dst ← deref (s.envs e).envPgdir
      let (flag, m) ← pageInsert s.mem dst pg (s.envs e).envIpcDstva perm
      let s := { s with mem := m }
      if flag ≠ 0 then return (flag, s)
      else return (0, s.setEnv e { s.envs e with envIpcPerm := perm })
    else return (0, s)

/-- What `sys_ipc_try_send` writes to the receiver `e`. -/
def ipcDeliver (s : KState) (cur e : ℕ) (value : Word) : KState :=
  (s.setEnv e { s.envs e with
    envIpcRecving := false
    envIpcFrom := (s.envs cur).envId
    envIpcValue := value
    envStatus := .runnable
    envTf := { (s.envs e).envTf with tfRegs := { (s.envs e).envTf.tfRegs with regEax := 0 } } }).log
    (.ipc e)

/-- `sys_ipc_try_send`. -/
def sysIpcTrySend (s : KState) (cur : ℕ) (envid value srcva perm : Word) :
    Except Stop (Word × KState) :=
  match ipcSendArgs s cur envid with
  | .error r => .ok (r, s)
  | .ok e =>
    if srcva < UTOP then do
      let (r, s) ← ipcSendPage s cur e srcva perm
      if r ≠ 0 then return (r, s) else return (0, ipcDeliver s cur e value)
    else .ok (0, ipcDeliver s cur e value)

/-- `sys_ipc_recv`: it returns only on error. -/
def sysIpcRecv (s : KState) (c cur : ℕ) (dstva : Word) : Except Leave (Word × KState) :=
  if dstva < UTOP ∧ PGOFF dstva ≠ 0 then return (-E_INVAL, s)
  else
    let s := (s.setEnv cur { s.envs cur with
      envIpcRecving := true, envStatus := .notRunnable, envIpcDstva := dstva }).log (.block cur)
    .error (schedYield s c)

/-- The system call numbers, `inc/syscall.h`. -/
inductive SysNo where
  | cputs
  | cgetc
  | getenvid
  | envDestroy
  | pageAlloc
  | pageMap
  | pageUnmap
  | exofork
  | envSetStatus
  | envSetPgfaultUpcall
  | yield
  | ipcTrySend
  | ipcRecv
  deriving DecidableEq, Repr

/-- The call with a given number, if there is one. -/
def SysNo.ofWord (w : Word) : Option SysNo :=
  [SysNo.cputs, .cgetc, .getenvid, .envDestroy, .pageAlloc, .pageMap, .pageUnmap, .exofork,
    .envSetStatus, .envSetPgfaultUpcall, .yield, .ipcTrySend, .ipcRecv][w.toNat]?

/-- A system call as the user makes it, with what `cons_getc` would give it. -/
structure SysArgs where
  /-- The number. -/
  no : Word
  a1 : Word
  a2 : Word
  a3 : Word
  a4 : Word
  a5 : Word
  /-- The character waiting at the console. -/
  getc : Word
  deriving DecidableEq, Repr

/-- `syscall`. -/
def syscall (s : KState) (c cur : ℕ) (a : SysArgs) : Except Leave (Word × KState) :=
  match SysNo.ofWord a.no with
  | some .cputs => do return (0, ← sysCputs s c cur a.a1 a.a2)
  | some .cgetc => .ok (a.getc, s)
  | some .envDestroy => sysEnvDestroy s c cur a.a1
  | some .getenvid => .ok ((s.envs cur).envId, s)
  | some .yield => .error (schedYield s c)
  | some .exofork => liftStop (sysExofork s cur)
  | some .envSetStatus => .ok (sysEnvSetStatus s cur a.a1 a.a2)
  | some .pageAlloc => liftStop (sysPageAlloc s cur a.a1 a.a2 a.a3)
  | some .pageMap => liftStop (sysPageMap s cur a.a1 a.a2 a.a3 a.a4 a.a5)
  | some .pageUnmap => liftStop (sysPageUnmap s cur a.a1 a.a2)
  | some .envSetPgfaultUpcall => .ok (sysEnvSetPgfaultUpcall s cur a.a1 a.a2)
  | some .ipcRecv => sysIpcRecv s c cur a.a1
  | some .ipcTrySend => liftStop (sysIpcTrySend s cur a.a1 a.a2 a.a3 a.a4)
  | none => .ok (-E_NO_SYS, s)

end JOS
