import JOS.Sched.OneCpu

/-!
# A live address space is not torn down

`env_free(e)` may only be executed when no other CPU runs `e`, and when `e` still has
its page directory. `env_destroy` leaves an environment that runs on another CPU to that
CPU, but it recognises it by its status `ENV_RUNNING`: once it is `ENV_DYING`, or
`ENV_NOT_RUNNABLE` by `sys_env_set_status`, a further `sys_env_destroy` frees it at
once. `LeavesOthers NotFreeOrRunnable` excludes that, and what would make an
environment run twice.
-/

namespace JOS

open JOS.General

variable {s₀ s s' : KState} {ev : Event} {c e : ℕ} {p : Procs}

/-- The statuses of an environment that a CPU runs, when others may stop it. -/
def NotFreeOrRunnable (st : EnvStatus) : Prop := st ≠ .free ∧ st ≠ .runnable

theorem occupied_notFreeOrRunnable : Occupied NotFreeOrRunnable :=
  ⟨⟨nofun, nofun⟩, ⟨nofun, nofun⟩, fun h => h.2 rfl⟩

/-! ### Environments have page directories -/

/-- An environment that is not free has a page directory. -/
def LiveOk (p : Procs) : Prop := ∀ e, p.status e ≠ .free → p.live e = true

/-- `envid2env` gives the caller, or an environment that is not free. -/
theorem envid2env_some {cur : ℕ} {envid : Word} {checkperm : Bool}
    (h : envid2env s cur envid checkperm = some e) :
    e = cur ∨ s.status e ≠ .free := by
  simp only [envid2env] at h
  split_ifs at h with h₀ h₁
  · exact .inl (Option.some.inj h).symm
  · cases h
    exact .inr fun hst => h₁ (.inl hst)

theorem ipcSendArgs_ok {cur : ℕ} {envid : Word} (h : ipcSendArgs s cur envid = .ok e) :
    envid2env s cur envid false = some e := by
  rw [ipcSendArgs] at h
  cases henv : envid2env s cur envid false with
  | none => simp [henv] at h
  | some e' =>
    simp only [henv] at h
    split_ifs at h
    cases h
    rfl

/-- The environments system calls act on are the caller, or not free. -/
theorem SetsStatus.target {st : EnvStatus} (h : SetsStatus s ev c e st) : s.curenv c = some e ∨
    s.status e ≠ .free := by
  obtain ⟨cur, a, s₁, ⟨t, -, hcur, -, -, -, rfl⟩, -, -, henv⟩ := h
  have hfresh : Fresh s (trapEntry s.reset c cur t) := fresh_trapEntry t
  rcases envid2env_some henv with rfl | hst
  · exact .inl hcur
  · rw [← procs_status, hfresh.1] at hst
    exact .inr hst

theorem Sends.target (h : Sends s ev c e) : s.curenv c = some e ∨ s.status e ≠ .free := by
  obtain ⟨cur, a, s₁, ⟨t, -, hcur, -, -, -, rfl⟩, -, hargs, -⟩ := h
  have hfresh : Fresh s (trapEntry s.reset c cur t) := fresh_trapEntry t
  rcases envid2env_some (ipcSendArgs_ok hargs) with rfl | hst
  · exact .inl hcur
  · rw [← procs_status, hfresh.1] at hst
    exact .inr hst

theorem Receives.curenv (h : Receives s ev c e) : s.curenv c = some e ∧ s.status e ≠ .dying := by
  obtain ⟨a, s₁, ⟨t, -, hcur, hst, -⟩, -⟩ := h
  exact ⟨hcur, hst⟩

/-- A system call of the event writes the status of `e`. -/
def Writes (s : KState) (ev : Event) (c e : ℕ) : Prop :=
  (∃ st, SetsStatus s ev c e st) ∨ Sends s ev c e ∨ Receives s ev c e

/-- An act keeps page directories where they are needed, when system calls only write the status of
environments that have one. -/
theorem LiveOk.act {a : Act} (hwrites : ∀ e, Writes s ev c e → s.procs.live e = true) (h : LiveOk p)
    (hg : Guard s ev c p a) : LiveOk (p.act a) := by
  -- a new status of an environment that has a directory
  have hset : ∀ e st, p.live e = true →
      LiveOk { p with status := Function.update p.status e st } := by
    intro e st hlive e' he'
    by_cases hee : e' = e
    · rw [hee]; exact hlive
    · simp only [Function.update_of_ne hee] at he'
      exact h e' he'
  cases a with
  | alloc e st =>
    intro e' he'
    by_cases hee : e' = e
    · simp [Procs.act, hee]
    · simp only [Procs.act, Function.update_of_ne hee] at he' ⊢
      exact h e' he'
  | free c' e =>
    intro e' he'
    by_cases hee : e' = e
    · simp [Procs.act, hee] at he'
    · simp only [Procs.act, Function.update_of_ne hee] at he' ⊢
      exact h e' he'
  | zombie e =>
    obtain ⟨rfl, hst, -⟩ := hg
    exact hset e _ (h e (by simp [hst]))
  | setStatus e st =>
    obtain ⟨rfl, he⟩ := hg
    exact hset e st (hwrites e (.inl ⟨st, he⟩))
  | ipc e =>
    obtain ⟨rfl, he⟩ := hg
    exact hset e _ (hwrites e (.inr (.inl he)))
  | block e =>
    obtain ⟨rfl, he⟩ := hg
    exact hset e _ (hwrites e (.inr (.inr he)))
  | clear c' => exact h
  | run c' e =>
    obtain ⟨-, hlive, -⟩ := hg
    intro e' he'
    by_cases hee : e' = e
    · rw [hee]; exact hlive
    · simp only [Procs.act, Function.update_of_ne hee] at he'
      refine h e' fun hst => he' ?_
      rw [Procs.release_of_ne_running (by simp [hst]), hst]

theorem Booted.liveOk (h : Booted s₀) : LiveOk s₀.procs := fun e he => absurd (h.envs e).1 he

/-- What a step does keeps page directories where they are needed, when the environments of the CPUs
have them. -/
theorem LiveOk.logged {S : EnvStatus → Prop} (hlive : LiveOk s.procs) (hone : OneCpu S none s.procs)
    (h : Logged s ev ev.cpu s') : LiveOk s'.procs := by
  refine h.invariant hlive fun q a _ hq hg => hq.act (fun e he => ?_) hg
  -- the caller has a directory, since the CPU is outside the kernel before the step
  have hcur : s.curenv ev.cpu = some e → s.procs.live e = true := hone.live _ e (by simp)
  rcases he with ⟨st, he⟩ | he | he
  · exact he.target.elim hcur (hlive e)
  · exact he.target.elim hcur (hlive e)
  · exact hcur he.curenv.1

theorem LiveOk.step {S : EnvStatus → Prop} (hlive : LiveOk s.procs) (hone : OneCpu S none s.procs)
    (hs : JOS.step s ev = some s') :
    LiveOk s'.procs := hlive.logged hone (step_logged hs).1

/-! ### In every state of a run -/

/-- The invariant of a run. -/
theorem live_of_reach (h₀ : Booted s₀) (h : Reach step (LeavesOthers NotFreeOrRunnable) s₀ s) :
    OneCpu NotFreeOrRunnable none s.procs ∧ FreeOk s.procs ∧ LiveOk s.procs := by
  refine h.invariant (I := fun s => OneCpu NotFreeOrRunnable none s.procs ∧ FreeOk s.procs ∧
    LiveOk s.procs)
    ⟨h₀.oneCpu, h₀.freeOk, h₀.liveOk⟩ ?_
  rintro s s' ev ⟨hone, hfree, hlive⟩ hok hs
  exact ⟨hone.step occupied_notFreeOrRunnable hfree hok hs, hfree.step hs, hlive.step hone hs⟩

/-- What is to hold of `env_free` in a step from `s` to `s'`: it takes a page directory that is
still there, of an environment that no other CPU runs. -/
def FreesSafely (s s' : KState) : Prop :=
  ∀ c e, .free c e ∈ s'.acts → (s.envs e).envPgdir ≠ none ∧ ∀ c', s.curenv c' = some e → c' = c

/-- Every environment that can be destroyed, because it is not free or because a CPU runs it, has
its page directory. -/
def HasPgdir (s : KState) : Prop :=
  ∀ e, (s.status e ≠ .free ∨ ∃ c, s.curenv c = some e) → (s.envs e).envPgdir ≠ none

/-- **A live address space is never torn down**, nor one twice, in any run in which the system calls
leave the environments of other CPUs alone. -/
theorem freesSafely_of_reach (h₀ : Booted s₀)
    (h : Reach step (LeavesOthers NotFreeOrRunnable) s₀ s) :
    HasPgdir s ∧ ∀ ev s', LeavesOthers NotFreeOrRunnable s ev → step s ev = some s' →
        FreesSafely s s' := by
  obtain ⟨hone, hfree, hlive⟩ := live_of_reach h₀ h
  have hsome : ∀ e, s.procs.live e = true → (s.envs e).envPgdir ≠ none := fun e he hn => by
    rw [procs_live, hn] at he
    cases he
  refine ⟨fun e he => hsome e (he.elim (hlive e) fun ⟨c, hc⟩ => hone.live c e (by simp) hc), ?_⟩
  intro ev s' hok hs c e hmem
  obtain ⟨q, -, hg⟩ := (step_logged hs).1.of_mem (I := fun _ => True) trivial
    (fun _ _ _ _ _ => trivial) hmem
  have hno := hone.not_elsewhere_of_free hok hg
  obtain ⟨rfl, rfl, he, -⟩ := hg
  refine ⟨hsome e he, fun c' hc' => ?_⟩
  by_contra hne
  exact hno ⟨c', hne, hc'⟩

/-- Of two running environments one gets a trap that its CPU does not know, and is freed. -/
theorem freesSafely_trap : ∃ s s', Reach step (LeavesOthers NotFreeOrRunnable) (bootState 2) s ∧
    step s (.trap 0 ⟨Trapframe.fresh, 0, 0⟩) = some s' ∧ .free 0 0 ∈ s'.acts ∧
    s.curenv 1 = some 1 ∧ HasPgdir s ∧ FreesSafely s s' := by
  have hrun : (([Event.create 0 emptyElf, .create 0 emptyElf, .start 0, .start 1].foldlM step
      (bootState 2)).bind
      fun s => (step s (.trap 0 ⟨Trapframe.fresh, 0, 0⟩)).map fun s' =>
        (decide (.free 0 0 ∈ s'.acts), s.curenv 1)) = some (true, some 1) := by decide +kernel
  obtain ⟨s, hs, hrun⟩ := Option.bind_eq_some_iff.mp hrun
  obtain ⟨s', hs', hacts⟩ := Option.map_eq_some_iff.mp hrun
  have hreach : Reach step (LeavesOthers NotFreeOrRunnable) (bootState 2) s := by
    refine Reach.of_foldlM hs fun t e he => leavesOthers_of_not_trap fun c t => ?_
    simp only [List.mem_cons, List.not_mem_nil, or_false] at he
    rcases he with rfl | rfl | rfl | rfl <;> exact nofun
  obtain ⟨hpgdir, hsafe⟩ := freesSafely_of_reach (bootState_booted 2) hreach
  refine ⟨s, s', hreach, hs', of_decide_eq_true (congrArg Prod.fst hacts),
    congrArg Prod.snd hacts, hpgdir,
    hsafe _ _ ?_ hs'⟩
  have hno : (⟨Trapframe.fresh, 0, 0⟩ : TrapIn).tf.tfTrapno ≠ T_SYSCALL := by decide
  exact ⟨fun _ _ _ ⟨_, _, _, h, _⟩ => (not_sysCall_of_trapno hno h).elim,
    fun _ _ ⟨_, _, _, h, _⟩ => (not_sysCall_of_trapno hno h).elim,
    fun _ _ ⟨_, _, _, h, _⟩ => (not_sysCall_of_trapno hno h).elim⟩

/-- An environment forks a child, makes it runnable, and CPU 1 runs it; then the parent on CPU 0
destroys it, which leaves it to CPU 1. -/
def destroyRun : List Event :=
  [.create 0 emptyElf, .start 0, .trap 0 (sysTrap 7 0 0 0 0 0),
    .trap 0 (sysTrap 8 0x1001 2 0 0 0), .start 1,
    .trap 0 (sysTrap 3 0x1001 0 0 0 0)]

/-- After `destroyRun` the child is `ENV_DYING`. When its parent destroys it again, CPU 0 frees its
page directory while CPU 1 runs it. -/
theorem not_freesSafely : ∃ s s', Reach step (fun _ _ => True) (bootState 2) s ∧
    step s (.trap 0 (sysTrap 3 0x1001 0 0 0 0)) = some s' ∧ s.curenv 1 = some 1 ∧
    s'.curenv 1 = some 1 ∧
    .free 0 1 ∈ s'.acts ∧ ¬ FreesSafely s s' := by
  have hrun : ((destroyRun.foldlM step (bootState 2)).bind fun s =>
      (step s (.trap 0 (sysTrap 3 0x1001 0 0 0 0))).map fun s' =>
        (s.curenv 1, s'.curenv 1, decide (.free 0 1 ∈ s'.acts))) =
          some (some 1, some 1, true) := by decide +kernel
  obtain ⟨s, hs, hrun⟩ := Option.bind_eq_some_iff.mp hrun
  obtain ⟨s', hs', hacts⟩ := Option.map_eq_some_iff.mp hrun
  have hfree : .free 0 1 ∈ s'.acts := of_decide_eq_true (congrArg (fun x => x.2.2) hacts)
  have hcur : s.curenv 1 = some 1 := congrArg Prod.fst hacts
  exact ⟨s, s', Reach.of_foldlM hs fun _ _ _ => trivial, hs', hcur,
    congrArg (fun x => x.2.1) hacts, hfree,
    fun h => absurd ((h 0 1 hfree).2 1 hcur) (by decide)⟩

end JOS
