import JOS.Kern.Env

/-!
# Leaving the kernel

The functions that do not return to their caller: `env_run` and `env_destroy`
(`kern/env.c`), `sched_yield` and `sched_halt` (`kern/sched.c`) and, since it may
destroy the running environment, `user_mem_assert` (`kern/pmap.c`).

`Leave` is how an entry into the kernel ends: by releasing the big kernel lock
(`gone`), in user mode after `env_run` or halted after `sched_halt`, or not at all
(`stop`). A function that may not come back throws a `Leave`.
-/

namespace JOS

/-- How control leaves the kernel. -/
inductive Leave where
  /-- The lock is released, in this state. -/
  | gone (s : KState)
  /-- The kernel stops. -/
  | stop (w : Stop)

/-- Run a function that only returns or stops. -/
def liftStop {α : Type} : Except Stop α → Except Leave α
  | .ok a => .ok a
  | .error w => .error (.stop w)

/-- The beginning of `env_run`: the environment that leaves CPU `c` is runnable again, if it was
running. -/
def release (s : KState) (c : ℕ) : KState :=
  match s.curenv c with
  | some e => if s.status e = .running then s.setStatus e .runnable else s
  | none => s

/-- `env_run(e)` on CPU `c`. `PADDR` of a null directory is a panic. -/
def envRun (s : KState) (c e : ℕ) : Leave :=
  let s := release (s.log (.run c e)) c
  let s := s.setCurenv c (some e)
  let s := s.setEnv e { s.envs e with envStatus := .running, envRuns := (s.envs e).envRuns + 1 }
  match (s.envs e).envPgdir with
  | none => .stop .panic
  | some pgdir => .gone ((s.lcr3 c pgdir).setEnv e { s.envs e with envCpunum := c })

/-- `sched_halt`. -/
def schedHalt (s : KState) (c : ℕ) : Leave :=
  if (List.range NENV).any fun i =>
      s.status i = .runnable ∨ s.status i = .running ∨ s.status i = .dying then
    .gone ((s.setCpu c { s.cpus c with
      cpuEnv := none, cr3 := s.mem.kernPgdir, cpuStatus := .halted }).log (.clear c))
  else .stop .monitor

/-- The environment `sched_yield` finds: the first that is runnable, in circular order, from the
one after `curenv`. -/
def nextRunnable (s : KState) (c : ℕ) : Option ℕ :=
  let envI := match s.curenv c with
    | some e => ENVX (s.envs e).envId + 1
    | none => 0
  ((List.range NENV).map fun i => (envI + i) % NENV).find? fun i => s.status i = .runnable

/-- `sched_yield`. -/
def schedYield (s : KState) (c : ℕ) : Leave :=
  match nextRunnable s c with
  | some i => envRun s c i
  | none =>
    match s.curenv c with
    | some e => if s.status e = .running then envRun s c e else schedHalt s c
    | none => schedHalt s c

/-- `env_destroy(e)` on CPU `c`. -/
def envDestroy (s : KState) (c e : ℕ) : Except Leave KState :=
  if s.status e = .running ∧ s.curenv c ≠ some e then
    .ok ((s.setStatus e .dying).log (.zombie e))
  else do
    let s ← liftStop (envFree s c e)
    if s.curenv c = some e then .error (schedYield ((s.setCurenv c none).log (.clear c)) c)
    else return s

/-- `user_mem_assert(curenv, va, len, perm)` on CPU `c`, where `curenv` is `cur`. -/
def userMemAssert (s : KState) (c cur : ℕ) (va len perm : Word) : Except Leave KState := do
  let pgdir ← liftStop (deref (s.envs cur).envPgdir)
  let (r, _) ← liftStop (userMemCheck s.mem pgdir va len (perm ||| PTE_U))
  if r ≠ 0 then envDestroy s c cur else return s

end JOS
