import JOS.Kern.Env

/-!
# The big kernel lock

`kern/spinlock.c`, and the way of each CPU through the code that takes and releases the
lock: booting (`i386_init`, `boot_aps`, `mp_main` of `kern/init.c`), `trap` up to the
point where the kernel's work begins, and the two exits, `env_run` and `sched_halt`.
The work itself, between the lock and an exit, neither takes nor releases the lock; here
it is one place, `kernel`, from which a CPU goes to one of the exits.

Each access to the lock or to `cpu_status` is a step of its own, so that the CPUs
interleave inside `spin_lock` and `spin_unlock` as well.

`acquired` and `released` are not in the source: they count what a CPU has done since it
entered the kernel last. Nothing reads them.
-/

namespace JOS

open Function (update)

/-- `struct spinlock`, the fields that decide. -/
structure Spinlock where
  /-- Is the lock held? -/
  locked : Bool
  /-- The CPU holding the lock. -/
  cpu : Option ℕ

/-- `holding`, on CPU `c`. -/
def holding (lk : Spinlock) (c : ℕ) : Bool := lk.locked && lk.cpu == some c

/-- Where `lock_kernel` is called. -/
inductive LockSite where
  /-- In `i386_init`. -/
  | i386Init
  /-- In `mp_main`. -/
  | mpMain
  /-- In `trap`, when the CPU was halted; `user` is `(tf->tf_cs & 3) == 3`. -/
  | trapHalted (user : Bool)
  /-- In `trap`, when the trap came from user mode. -/
  | trapUser
  deriving DecidableEq

/-- Where `unlock_kernel` is called. -/
inductive UnlockSite where
  | envRun
  | schedHalt
  deriving DecidableEq

/-- Where a CPU is. -/
inductive Loc where
  /-- Not started. -/
  | off
  /-- In `i386_init`, before `lock_kernel`. -/
  | i386Init
  /-- In `boot_aps`, at CPU `i` of the loop. -/
  | bootAps (i : ℕ)
  /-- In `boot_aps`, waiting for CPU `i`. -/
  | bootWait (i : ℕ)
  /-- In `mp_main`, before `cpu_status` is set. -/
  | mpMain
  /-- At the beginning of `trap`. -/
  | trap (user : Bool)
  /-- In `trap`, before the test of `tf->tf_cs`. -/
  | trapCs (user : Bool)
  /-- In `spin_lock`, before the test of `holding`. -/
  | lock (site : LockSite)
  /-- In the loop of `spin_lock`. -/
  | spin (site : LockSite)
  /-- In `spin_lock`, before `lk->cpu = thiscpu`. -/
  | record (site : LockSite)
  /-- In the kernel's work. -/
  | kernel
  /-- In `sched_halt`, before `cpu_status` is set. -/
  | schedHalt
  /-- In `spin_unlock`, before the test of `holding`. -/
  | unlock (site : UnlockSite)
  /-- In `spin_unlock`, before `lk->cpu = 0`. -/
  | clear (site : UnlockSite)
  /-- In `spin_unlock`, before `lk->locked` is exchanged. -/
  | release (site : UnlockSite)
  /-- In user mode. -/
  | user
  /-- Halted. -/
  | halted
  /-- In `panic`, called by `spin_lock` or `spin_unlock`. -/
  | panic
  deriving DecidableEq

/-- Where `spin_lock` returns to. -/
def LockSite.after : LockSite → Loc
  | .i386Init => .bootAps 0
  | .mpMain => .kernel
  | .trapHalted user => .trapCs user
  | .trapUser => .kernel

/-- Where a CPU goes after `spin_unlock`. -/
def UnlockSite.after : UnlockSite → Loc
  | .envRun => .user
  | .schedHalt => .halted

/-- The lock and the CPUs. -/
structure LockState where
  /-- `kernel_lock`. -/
  lock : Spinlock
  /-- `cpu_status` of each CPU. -/
  status : ℕ → CpuStatus
  /-- Where each CPU is. -/
  loc : ℕ → Loc
  /-- How often the CPU has acquired the lock since it entered the kernel. -/
  acquired : ℕ → ℕ
  /-- How often it has released the lock since then. -/
  released : ℕ → ℕ

namespace LockState

/-- CPU `c` goes on at `l`. -/
def goto (s : LockState) (c : ℕ) (l : Loc) : LockState := { s with loc := update s.loc c l }

/-- `xchg(&thiscpu->cpu_status, st)`, on CPU `c`. -/
def setStatus (s : LockState) (c : ℕ) (st : CpuStatus) : LockState :=
  { s with status := update s.status c st }

/-- CPU `c` enters the kernel. -/
def enter (s : LockState) (c : ℕ) (l : Loc) : LockState :=
  { s.goto c l with acquired := update s.acquired c 0, released := update s.released c 0 }

end LockState

/-- What a CPU does next. -/
inductive LockEvent where
  /-- The next step of the code it is in. -/
  | go (c : ℕ)
  /-- The kernel's work on CPU `c` ends in `env_run`. -/
  | envRun (c : ℕ)
  /-- The kernel's work on CPU `c` ends in `sched_halt`. -/
  | schedHalt (c : ℕ)
  /-- A trap in user mode, or an interrupt of a halted CPU. -/
  | trap (c : ℕ)

/-- The next step of CPU `c`, on a machine with `ncpu` CPUs. -/
def lockGo (ncpu : ℕ) (s : LockState) (c : ℕ) : Option LockState :=
  match s.loc c with
  | .i386Init => some (s.goto c (.lock .i386Init))
  | .bootAps i =>
    if i < ncpu then
      if i = c then some (s.goto c (.bootAps (i + 1)))
      else if s.loc i = .off then some ((s.goto i .mpMain).goto c (.bootWait i))
      else none
    else some (s.goto c .kernel)
  | .bootWait i => some (if s.status i = .started then s.goto c (.bootAps (i + 1)) else s)
  | .mpMain => some ((s.setStatus c .started).goto c (.lock .mpMain))
  | .trap user =>
    some ((s.setStatus c .started).goto c
      (if s.status c = .halted then .lock (.trapHalted user) else .trapCs user))
  | .trapCs user => some (s.goto c (if user then .lock .trapUser else .kernel))
  | .lock site => some (s.goto c (if holding s.lock c then .panic else .spin site))
  | .spin site =>
    some (if s.lock.locked then s else
      { s.goto c (.record site) with
        lock := { s.lock with locked := true }, acquired :=
          update s.acquired c (s.acquired c + 1) })
  | .record site => some { s.goto c site.after with lock := { s.lock with cpu := some c } }
  | .schedHalt => some ((s.setStatus c .halted).goto c (.unlock .schedHalt))
  | .unlock site => some (s.goto c (if holding s.lock c then .clear site else .panic))
  | .clear site => some { s.goto c (.release site) with lock := { s.lock with cpu := none } }
  | .release site =>
    some { s.goto c site.after with
      lock := { s.lock with locked := false }, released := update s.released c (s.released c + 1) }
  | .off | .kernel | .user | .halted | .panic => none

/-- One step; `none` when the event cannot happen. -/
def lockStep (ncpu : ℕ) (s : LockState) : LockEvent → Option LockState
  | .go c => lockGo ncpu s c
  | .envRun c => if s.loc c = .kernel then some (s.goto c (.unlock .envRun)) else none
  | .schedHalt c => if s.loc c = .kernel then some (s.goto c .schedHalt) else none
  | .trap c =>
    match s.loc c with
    | .user => some (s.enter c (.trap true))
    | .halted => some (s.enter c (.trap false))
    | _ => none

/-- The boot CPU is in `i386_init`, after `mp_init`; the others are off. -/
def lockBoot (bootcpu : ℕ) : LockState where
  lock := ⟨false, none⟩
  status c := if c = bootcpu then .started else .unused
  loc c := if c = bootcpu then .i386Init else .off
  acquired _ := 0
  released _ := 0

end JOS
