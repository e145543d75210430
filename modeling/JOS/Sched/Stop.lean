import JOS.Sched.Kill

/-!
# A stop request is not lost

After `sys_env_set_status(b, ENV_NOT_RUNNABLE)` the environment `b` is to stay stopped
until somebody sets it `ENV_RUNNABLE`, completes an IPC send to it, or destroys it. The
end of `trap` and `sched_yield` look at the status before they go on with `curenv`;
`page_fault_handler` does not. A stopped environment that is still in user mode on
another CPU and has a page fault there is resumed at its upcall (`Resumes`), which makes
it `ENV_RUNNING`.
-/

namespace JOS

open JOS.General

variable {s₀ s s₁ s₂ s' : KState} {ev : Event} {b c e : ℕ} {p : Procs}

/-! ### The step that stops -/

/-- The end of `trap` runs the environment of the CPU when it is running, and another one
otherwise. -/
theorem trapReturn_acts (h : trapReturn s c = .gone s') : ∃ a, Acts a s s' ∧
    Yields c s.procs a := by
  rcases trapReturn_cases h with ⟨cur, hc, hr, h⟩ | h
  · obtain ⟨hacts, hlive⟩ := envRun_acts h
    exact ⟨_, hacts, rfl, hlive, .inr ⟨hc, hr⟩⟩
  · exact schedYield_acts h

/-- A step that is a system call: the call leaves the kernel, or it returns, its result goes to
`eax`, and `trap` ends. -/
theorem SysCall.step_cases {cur : ℕ} {a : SysArgs} (hcall : SysCall s ev c cur a s₁)
    (hs : step s ev = some s') :
    syscall s₁ c cur a = .error (.gone s') ∨ ∃ r s₂, syscall s₁ c cur a = .ok (r, s₂) ∧
      trapReturn (returned s₂ cur r) c = .gone s' := by
  obtain ⟨t, rfl⟩ : ∃ t, ev = .trap c t := hcall.imp fun _ h => h.1
  simp only [JOS.step] at hs
  split_ifs at hs with hfits
  have h := state?_eq_some.mp hs
  rw [trap_sysCall (show trapFits s c t = true from hfits) hcall] at h
  cases hr : syscall s₁ c cur a with
  | error lv =>
    rw [hr] at h
    exact .inl (congrArg Except.error h)
  | ok x =>
    rw [hr] at h
    exact .inr ⟨x.1, x.2, rfl, h⟩

/-- What a system call that returns leads to. -/
theorem SysCall.step {cur : ℕ} {a : SysArgs} {r : Word} (hcall : SysCall s ev c cur a s₁)
    (hr : syscall s₁ c cur a = .ok (r, s₂)) (hs : step s ev = some s') :
    ∃ s₃, Quiet s₂ s₃ ∧ trapReturn s₃ c = .gone s' := by
  rcases hcall.step_cases hs with herr | ⟨r', s₂', hr', h⟩
  · rw [hr] at herr
    cases herr
  · rw [hr] at hr'
    cases hr'
    refine ⟨_, ?_, h⟩
    refine quiet_setEnv _ _ _ ?_ ?_ ?_ <;> rfl

/-- `sys_env_set_status` sets the status, and then the CPU leaves the kernel. -/
theorem SetsStatus.step {st : EnvStatus} (h : SetsStatus s ev c e st) (hs : step s ev = some s') :
    ∃ a, Yields c (s.procs.act (.setStatus e st)) a ∧
      s'.procs = (s.procs.act (.setStatus e st)).act a ∧
      s'.acts = [a, .setStatus e st] := by
  obtain ⟨cur, a, s₁, hcall, hno, hst, henv⟩ := h
  have hfresh : Fresh s s₁ := by
    obtain ⟨t, -, -, -, -, -, rfl⟩ := hcall
    exact fresh_trapEntry t
  have hr : syscall s₁ c cur a = .ok (0, (s₁.setStatus e st).log (.setStatus e st)) := by
    rw [syscall, hno]
    simp only [sysEnvSetStatus, hst, henv]
  obtain ⟨s₃, hquiet, hret⟩ := hcall.step hr hs
  obtain ⟨y, hacts, hy⟩ := trapReturn_acts hret
  have hprocs : s₃.procs = s.procs.act (.setStatus e st) := by
    rw [hquiet.1, procs_log, procs_setStatus, hfresh.1]
    rfl
  refine ⟨y, hprocs ▸ hy, by rw [hacts.1, hprocs], ?_⟩
  rw [hacts.2, hquiet.2]
  exact congrArg _ (congrArg _ hfresh.2)

/-! ### Afterwards -/

/-- What ends a stop: the environment is made runnable, a send to it completes, or it is freed (when
its slot may be used again). -/
def EndsStop (s : KState) (ev : Event) (b : ℕ) : Prop :=
  (∃ c, SetsStatus s ev c b .runnable) ∨ (∃ c, Sends s ev c b) ∨ Reuses s ev b ∨
    ∃ s' c, step s ev = some s' ∧ .free c b ∈ s'.acts

/-- The environment is stopped, and the last step has not run it. -/
def Stopped (b : ℕ) (s : KState) : Prop := s.status b = .notRunnable ∧ ∀ c, .run c b ∉ s.acts

/-- What `sched_yield` runs is not stopped. -/
theorem not_yields_of_notRunnable {c' : ℕ} (h : p.status b = .notRunnable) :
    ¬ Yields c p (.run c' b) := by
  rintro ⟨-, -, hst | ⟨-, hst⟩⟩ <;> (rw [h] at hst; cases hst)

/-- Running another environment leaves a stopped one as it is. -/
theorem notRunnable_run {c' : ℕ} (h : p.status b = .notRunnable) (hne : b ≠ e) :
    (p.act (.run c' e)).status b = .notRunnable := by
  have hr : p.status b ≠ .running := by rw [h]; exact nofun
  simp only [Procs.act, Function.update_of_ne hne, Procs.release_of_ne_running hr, h]

/-- The step that stops an environment does not run it. -/
theorem stopped_of_setsStatus (h : SetsStatus s ev c b .notRunnable) (hs : step s ev = some s') :
    Stopped b s' := by
  obtain ⟨a, hy, hprocs, hacts⟩ := h.step hs
  have hst : (s.procs.act (.setStatus b .notRunnable)).status b = .notRunnable := by
    simp [Procs.act]
  generalize s.procs.act (.setStatus b .notRunnable) = p at hy hprocs hst
  have hrun : ∀ c' e, a = .run c' e → b ≠ e := by
    rintro c' e rfl rfl
    exact not_yields_of_notRunnable hst hy
  refine ⟨?_, fun c' hmem => ?_⟩
  · rw [← procs_status, hprocs]
    cases a with
    | run c' e => exact notRunnable_run hst (hrun c' e rfl)
    | clear c' => exact hst
    | _ => exact hy.elim
  · rw [hacts] at hmem
    simp only [List.mem_cons, reduceCtorEq, List.not_mem_nil, or_false] at hmem
    exact hrun c' b hmem.symm rfl

/-- A step leaves a stopped environment stopped, when nothing ends the stop and `page_fault_handler`
does not resume it. -/
theorem Stopped.step (h : Stopped b s) (hends : ¬ EndsStop s ev b) (hres : ∀ c, ¬ Resumes s ev c b)
    (hs : step s ev = some s') : Stopped b s' := by
  have hlog := (step_logged hs).1
  -- `env_run(b)` is within no guard
  have hno : ∀ {q c'}, q.status b = .notRunnable → ¬ Guard s ev ev.cpu q (.run c' b) := by
    rintro q c' hq ⟨-, -, hst | ⟨-, hst | ⟨-, hr⟩⟩⟩
    · rw [hq] at hst
      cases hst
    · rw [hq] at hst
      cases hst
    · exact hres _ hr
  have hact : ∀ q, ∀ a ∈ s'.acts, q.status b = .notRunnable → Guard s ev ev.cpu q a →
      (q.act a).status b = .notRunnable := by
    intro q a ha hq hg
    cases a with
    | alloc e st =>
      have hne : b ≠ e := by
        rintro rfl
        exact hends (.inr (.inr (.inl ⟨s', st, hs, ha⟩)))
      simpa [Procs.act, Function.update_of_ne hne] using hq
    | free c' e =>
      have hne : b ≠ e := by
        rintro rfl
        exact hends (.inr (.inr (.inr ⟨s', c', hs, ha⟩)))
      simpa [Procs.act, Function.update_of_ne hne] using hq
    | zombie e =>
      obtain ⟨rfl, hst, -⟩ := hg
      have hne : b ≠ e := by
        rintro rfl
        rw [procs_status, hst] at hq
        cases hq
      simpa [Procs.act, Function.update_of_ne hne] using hq
    | setStatus e st =>
      obtain ⟨rfl, hset⟩ := hg
      by_cases hne : b = e
      · subst hne
        rcases hset.status with rfl | rfl
        · exact absurd (.inl ⟨_, hset⟩) hends
        · simp [Procs.act]
      · simpa [Procs.act, Function.update_of_ne hne] using hq
    | ipc e =>
      obtain ⟨rfl, hsend⟩ := hg
      have hne : b ≠ e := by
        rintro rfl
        exact hends (.inr (.inl ⟨_, hsend⟩))
      simpa [Procs.act, Function.update_of_ne hne] using hq
    | block e =>
      by_cases hne : b = e
      · simp [Procs.act, hne]
      · simpa [Procs.act, Function.update_of_ne hne] using hq
    | clear c' => exact hq
    | run c' e =>
      refine notRunnable_run hq ?_
      rintro rfl
      exact hno hq hg
  refine ⟨hlog.invariant (I := fun q => q.status b = .notRunnable) h.1 hact, fun c' hmem => ?_⟩
  obtain ⟨q, hq, hg⟩ := hlog.of_mem (I := fun q => q.status b = .notRunnable) h.1 hact hmem
  exact hno hq hg

/-- **A stop request is not lost**: from the step in which `sys_env_set_status(b, ENV_NOT_RUNNABLE)`
returns 0 on, `b` is stopped in every state of every run in which nothing ends the stop and no page
fault of `b` is handed to its upcall. -/
theorem stopped_of_reach (hset : SetsStatus s ev c b .notRunnable) (hs : step s ev = some s₁)
    (h : Reach step (fun s ev => ¬ EndsStop s ev b ∧ ∀ c, ¬ Resumes s ev c b) s₁ s₂) :
    Stopped b s₂ :=
  h.invariant (stopped_of_setsStatus hset hs) fun _ _ _ ht hok hs => ht.step hok.1 hok.2 hs

/-! ### A page fault -/

/-- An environment forks a child, gives it an upcall and an exception stack, makes it runnable, and
CPU 1 runs it. -/
def upcallRun : List Event :=
  [.create 0 emptyElf, .start 0, .trap 0 (sysTrap 7 0 0 0 0 0),
    .trap 0 (sysTrap 9 0x1001 0x800020 0 0 0),
    .trap 0 (sysTrap 4 0x1001 (UXSTACKTOP - PGSIZE) 7 0 0),
    .trap 0 (sysTrap 8 0x1001 2 0 0 0), .start 1]

/-- The parent stops the child. -/
def stopTrap : TrapIn := sysTrap 8 0x1001 4 0 0 0

/-- A page fault at address 0. -/
def faultTrap : TrapIn := ⟨{ Trapframe.fresh with tfTrapno := T_PGFLT }, 0, 0⟩

theorem setsStatus_stopTrap (hcur : s.curenv 0 = some 0) (hst : s.status 0 ≠ .dying)
    (h : envid2env (trapEntry s.reset 0 0 stopTrap) 0 0x1001 true = some 1) :
    SetsStatus s (.trap 0 stopTrap) 0 1 .notRunnable :=
  ⟨0, stopTrap.args, _, ⟨stopTrap, rfl, hcur, hst, rfl, rfl, rfl⟩, by decide, by decide, h⟩

/-- The state before the stop. -/
theorem upcallRun_setsStatus (hs : upcallRun.foldlM step (bootState 2) = some s) :
    SetsStatus s (.trap 0 stopTrap) 0 1 .notRunnable := by
  have hrun : ((upcallRun.foldlM step (bootState 2)).map fun s =>
      (s.curenv 0, decide (s.status 0 = .dying),
        envid2env (trapEntry s.reset 0 0 stopTrap) 0 0x1001 true)) =
        some (some 0, false, some 1) := by decide +kernel
  rw [hs] at hrun
  have h := Option.some.inj hrun
  exact setsStatus_stopTrap (congrArg Prod.fst h) (of_decide_eq_false (congrArg (fun x => x.2.1) h))
    (congrArg (fun x => x.2.2) h)

/-- A trap that is not a system call ends a stop only by freeing or allocating. -/
theorem not_endsStop {t : TrapIn} (hno : t.tf.tfTrapno ≠ T_SYSCALL)
    (hs : step s (.trap c t) = some s')
    (hacts : ∀ a ∈ s'.acts, (∃ c, a = .clear c) ∨ ∃ c e, a = .run c e) :
    ¬ EndsStop s (.trap c t) b := by
  rintro (⟨_, _, _, _, h, -⟩ | ⟨_, _, _, _, h, -⟩ | ⟨s₁, st, hs₁, hmem⟩ | ⟨s₁, c, hs₁, hmem⟩)
  · exact not_sysCall_of_trapno hno h
  · exact not_sysCall_of_trapno hno h
  · rw [hs] at hs₁
    cases hs₁
    rcases hacts _ hmem with ⟨_, h⟩ | ⟨_, _, h⟩ <;> cases h
  · rw [hs] at hs₁
    cases hs₁
    rcases hacts _ hmem with ⟨_, h⟩ | ⟨_, _, h⟩ <;> cases h

/-- The child is stopped, and stays so at a timer interrupt of its CPU. -/
theorem stopped_timer : ∃ s s₁ s₂, Reach step (fun _ _ => True) (bootState 2) s ∧
    SetsStatus s (.trap 0 stopTrap) 0 1 .notRunnable ∧ step s (.trap 0 stopTrap) = some s₁ ∧
    s₁.curenv 1 = some 1 ∧
    step s₁ (.trap 1 timerTrap) = some s₂ ∧ s₂.curenv 1 = none ∧ Stopped 1 s₂ := by
  have hrun : ((upcallRun.foldlM step (bootState 2)).bind fun s =>
      (step s (.trap 0 stopTrap)).bind fun s₁ =>
      (step s₁ (.trap 1 timerTrap)).map fun s₂ => (s₁.curenv 1, s₂.curenv 1, s₂.acts)) =
        some (some 1, none, [.clear 1]) := by decide +kernel
  obtain ⟨s, hs, hrun⟩ := Option.bind_eq_some_iff.mp hrun
  obtain ⟨s₁, hs₁, hrun⟩ := Option.bind_eq_some_iff.mp hrun
  obtain ⟨s₂, hs₂, hcur⟩ := Option.map_eq_some_iff.mp hrun
  have hset := upcallRun_setsStatus hs
  refine ⟨s, s₁, s₂, Reach.of_foldlM hs fun _ _ _ => trivial, hset, hs₁,
    congrArg Prod.fst hcur, hs₂,
    congrArg (fun x => x.2.1) hcur, stopped_of_reach hset hs₁ (.single ⟨?_, ?_⟩ hs₂)⟩
  · have hacts : s₂.acts = [.clear 1] := congrArg (fun x => x.2.2) hcur
    refine not_endsStop (by decide) hs₂ fun a ha => .inl ⟨1, ?_⟩
    rw [hacts] at ha
    exact List.mem_singleton.mp ha
  · rintro c ⟨t, pgdir, ht, -, -, hno, -⟩
    cases ht
    exact absurd hno (by decide)

/-- The child is stopped while CPU 1 runs it; a page fault there, and it runs again. -/
theorem not_stopped : ∃ s s₁ s₂, Reach step (fun _ _ => True) (bootState 2) s ∧
    SetsStatus s (.trap 0 stopTrap) 0 1 .notRunnable ∧ step s (.trap 0 stopTrap) = some s₁ ∧
    s₁.status 1 = .notRunnable ∧ step s₁ (.trap 1 faultTrap) = some s₂ ∧
    ¬ EndsStop s₁ (.trap 1 faultTrap) 1 ∧
    s₂.status 1 = .running ∧ .run 1 1 ∈ s₂.acts ∧ ¬ Stopped 1 s₂ := by
  have hrun : ((upcallRun.foldlM step (bootState 2)).bind fun s =>
      (step s (.trap 0 stopTrap)).bind fun s₁ =>
      (step s₁ (.trap 1 faultTrap)).map fun s₂ => (s₁.status 1, s₂.status 1, s₂.acts)) =
        some (.notRunnable, .running, [.run 1 1]) := by decide +kernel
  obtain ⟨s, hs, hrun⟩ := Option.bind_eq_some_iff.mp hrun
  obtain ⟨s₁, hs₁, hrun⟩ := Option.bind_eq_some_iff.mp hrun
  obtain ⟨s₂, hs₂, hst⟩ := Option.map_eq_some_iff.mp hrun
  have hrunning : s₂.status 1 = .running := congrArg (fun x => x.2.1) hst
  have hacts : s₂.acts = [.run 1 1] := congrArg (fun x => x.2.2) hst
  refine ⟨s, s₁, s₂, Reach.of_foldlM hs fun _ _ _ => trivial, upcallRun_setsStatus hs, hs₁,
    congrArg Prod.fst hst,
    hs₂, ?_, hrunning, by simp [hacts], fun h => ?_⟩
  · refine not_endsStop (by decide) hs₂ fun a ha => .inr ⟨1, 1, ?_⟩
    rw [hacts] at ha
    exact List.mem_singleton.mp ha
  · have := h.1
    rw [hrunning] at this
    cases this

end JOS
