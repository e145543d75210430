import JOS.Sched.Teardown

/-!
# A kill is not lost

An environment that `env_destroy` has made `ENV_DYING` is to become `ENV_FREE`, and
nothing else, until its slot in the table is given to a new environment. The kernel's
own writers of `env_status` keep to that. The three system calls that write the status
of an environment do not look at it first: `sys_env_set_status` and a completed
`sys_ipc_try_send` revive a zombie, and so does `sys_ipc_recv` by an environment that
was freed while it ran. In the runs that do without them on this environment
(`LeavesDead`) a kill stands.
-/

namespace JOS

open JOS.General

variable {s₀ s s' : KState} {ev : Event} {c e : ℕ} {p : Procs}

/-! ### Running environments and zombies have page directories -/

/-- An environment that runs or is to be freed has a page directory. Nothing breaks this. -/
def DyingLive (p : Procs) : Prop := ∀ e, RunningOrDying (p.status e) → p.live e = true

theorem statusArg_of_some {w : Word} {st : EnvStatus} (h : statusArg w = some st) : st = .runnable ∨
    st = .notRunnable := by
  rw [statusArg] at h
  split_ifs at h <;> cases h
  · exact .inl rfl
  · exact .inr rfl

theorem SetsStatus.status {st : EnvStatus} (h : SetsStatus s ev c e st) : st = .runnable ∨
    st = .notRunnable := by
  obtain ⟨cur, a, s₁, -, -, hst, -⟩ := h
  exact statusArg_of_some hst

theorem DyingLive.act {a : Act} (h₀ : DyingLive s.procs) (h : DyingLive p) (hg : Guard s ev c p a) :
    DyingLive (p.act a) := by
  -- a new status that is neither of the two
  have hset : ∀ e st, ¬ RunningOrDying st →
      DyingLive { p with status := Function.update p.status e st } := by
    intro e st hst e' he'
    by_cases hee : e' = e
    · simp only [hee, Function.update_self] at he'
      exact absurd he' hst
    · simp only [Function.update_of_ne hee] at he'
      exact h e' he'
  cases a with
  | alloc e st =>
    intro e' he'
    by_cases hee : e' = e
    · simp [Procs.act, hee]
    · simp only [Procs.act, Function.update_of_ne hee] at he' ⊢
      exact h e' he'
  | free c' e =>
    intro e' he'
    by_cases hee : e' = e
    · simp [Procs.act, hee, RunningOrDying] at he'
    · simp only [Procs.act, Function.update_of_ne hee] at he' ⊢
      exact h e' he'
  | zombie e =>
    obtain ⟨rfl, hst, -⟩ := hg
    intro e' he'
    by_cases hee : e' = e
    · rw [hee]
      exact h₀ e (.inl hst)
    · simp only [Procs.act, Function.update_of_ne hee] at he'
      exact h e' he'
  | setStatus e st =>
    obtain ⟨-, he⟩ := hg
    exact hset e st (by rcases he.status with rfl | rfl <;> simp [RunningOrDying])
  | ipc e => exact hset e _ (by simp [RunningOrDying])
  | block e => exact hset e _ (by simp [RunningOrDying])
  | clear c' => exact h
  | run c' e =>
    obtain ⟨-, hlive, -⟩ := hg
    intro e' he'
    by_cases hee : e' = e
    · rw [hee]; exact hlive
    · simp only [Procs.act, Function.update_of_ne hee] at he'
      refine h e' ?_
      by_cases hst : p.status e' = .running
      · exact .inl hst
      · rwa [Procs.release_of_ne_running hst] at he'

theorem DyingLive.step (h : DyingLive s.procs) (hs : step s ev = some s') : DyingLive s'.procs :=
  (step_logged hs).1.invariant h fun _ _ _ hq hg => h.act hq hg

/-! ### The dead stay dead -/

/-- The environment is a zombie, or its zombie has been freed. -/
def Dead (p : Procs) (e : ℕ) : Prop := p.status e = .dying ∨ p.status e = .free ∧ p.live e = false

/-- The step gives the slot `e` to a new environment. -/
def Reuses (s : KState) (ev : Event) (e : ℕ) : Prop := ∃ s' st, step s ev = some s' ∧
    .alloc e st ∈ s'.acts

/-- No system call writes the status of `e`. -/
def LeavesDead (e : ℕ) (s : KState) (ev : Event) : Prop := ∀ c, ¬ Writes s ev c e

theorem Dead.ne_running (h : Dead p e) : p.status e ≠ .running := by
  rcases h with h | ⟨h, -⟩ <;> rw [h] <;> exact nofun

theorem Dead.ne_runnable (h : Dead p e) : p.status e ≠ .runnable := by
  rcases h with h | ⟨h, -⟩ <;> rw [h] <;> exact nofun

/-- `env_run` is not executed on the dead. -/
theorem Dead.not_run {c' : ℕ} (h : Dead p e) : ¬ Guard s ev c p (.run c' e) := by
  rintro ⟨-, hlive, hst | ⟨-, hst | ⟨rfl, t, pgdir, -, -, hdying, -⟩⟩⟩
  · exact h.ne_runnable hst
  · exact h.ne_running hst
  · rcases h with h | ⟨-, h⟩
    · exact hdying h
    · rw [hlive] at h
      cases h

/-- The environment is as before, or has been freed. -/
def SameOrFreed (e : ℕ) (p q : Procs) : Prop :=
  q.status e = p.status e ∧ q.live e = p.live e ∨ q.status e = .free ∧ q.live e = false

theorem SameOrFreed.dead {q : Procs} (h : SameOrFreed e p q) (hp : Dead p e) : Dead q e := by
  rcases h with ⟨h₁, h₂⟩ | h
  · rw [Dead, h₁, h₂]
    exact hp
  · exact .inr h

/-- An act does nothing to the dead but free them, unless it takes the slot or is a system call that
writes the status. -/
theorem Dead.act {a : Act} (hlive₀ : DyingLive s.procs) (hfree : FreeOk s.procs)
    (hok : LeavesDead e s ev)
    (h : Dead p e) (hg : Guard s ev c p a) (hreuse : s.status e = .free → ∀ st, a ≠ .alloc e st) :
    SameOrFreed e p (p.act a) := by
  -- what happens to another environment
  have hother : ∀ e' st, e ≠ e' →
    SameOrFreed e p { p with status := Function.update p.status e' st } :=
    fun e' st hne => .inl ⟨Function.update_of_ne hne _ _, rfl⟩
  cases a with
  | alloc e' st =>
    obtain ⟨rfl, he'⟩ := hg
    have hne : e ≠ e' := by
      rintro rfl
      rcases h with hdying | ⟨hst, -⟩
      · -- a zombie is not on the list of free environments
        have := hfree.head he'
        rw [hlive₀ e (.inr hdying)] at this
        cases this
      · exact hreuse hst st rfl
    exact .inl ⟨Function.update_of_ne hne _ _, Function.update_of_ne hne _ _⟩
  | free c' e' =>
    by_cases hne : e = e'
    · exact .inr ⟨by simp [Procs.act, hne], by simp [Procs.act, hne]⟩
    · exact .inl ⟨Function.update_of_ne hne _ _, Function.update_of_ne hne _ _⟩
  | zombie e' =>
    obtain ⟨rfl, hst, -⟩ := hg
    exact hother e' _ fun he => h.ne_running (he ▸ hst)
  | setStatus e' st =>
    obtain ⟨rfl, hset⟩ := hg
    exact hother e' _ fun he => hok c (.inl ⟨st, he ▸ hset⟩)
  | ipc e' =>
    obtain ⟨rfl, hsend⟩ := hg
    exact hother e' _ fun he => hok c (.inr (.inl (he ▸ hsend)))
  | block e' =>
    obtain ⟨rfl, hrecv⟩ := hg
    exact hother e' _ fun he => hok c (.inr (.inr (he ▸ hrecv)))
  | clear c' => exact .inl ⟨rfl, rfl⟩
  | run c' e' =>
    have hne : e ≠ e' := by
      rintro rfl
      exact h.not_run hg
    refine .inl ⟨?_, rfl⟩
    simp only [Procs.act, Function.update_of_ne hne, Procs.release_of_ne_running h.ne_running]

/-- What a step is to do with the dead: at most free it. It does not run it, and the CPU that enters
the kernel comes out without it. -/
structure StaysDead (e : ℕ) (s : KState) (ev : Event) (s' : KState) : Prop where
  /-- The only change of status is to `ENV_FREE`. -/
  status : s'.status e = s.status e ∨ s'.status e = .free
  /-- `env_run(e)` is not executed. -/
  not_run : ∀ c, .run c e ∉ s'.acts
  /-- The CPU that enters the kernel does not return to `e`. -/
  curenv : ∀ c, ev.enters = some c → s'.curenv c ≠ some e

/-- A step that leaves the dead alone keeps them dead. -/
theorem Dead.step (hlive : DyingLive s.procs) (hfree : FreeOk s.procs) (hok : LeavesDead e s ev)
    (hreuse : s.status e = .free → ¬ Reuses s ev e) (h : Dead s.procs e)
    (hs : step s ev = some s') :
    Dead s'.procs e ∧ StaysDead e s ev s' := by
  obtain ⟨hlog, hsettled, -⟩ := step_logged hs
  have hact : ∀ q, ∀ a ∈ s'.acts, Dead q e → Guard s ev ev.cpu q a → SameOrFreed e q (q.act a) :=
    fun q a ha hq hg => hq.act hlive hfree hok hg fun hst st ha' =>
      hreuse hst ⟨s', st, hs, ha' ▸ ha⟩
  have hdead : ∀ q, ∀ a ∈ s'.acts, Dead q e → Guard s ev ev.cpu q a → Dead (q.act a) e :=
    fun q a ha hq hg => (hact q a ha hq hg).dead hq
  have hsame : SameOrFreed e s.procs s'.procs := by
    refine (hlog.invariant (I := fun q => Dead q e ∧ SameOrFreed e s.procs q) ⟨h, .inl ⟨rfl, rfl⟩⟩
      fun q a ha hq hg => ⟨hdead q a ha hq.1 hg, ?_⟩).2
    rcases hact q a ha hq.1 hg with ⟨h₁, h₂⟩ | hf
    · rw [SameOrFreed, h₁, h₂]
      exact hq.2
    · exact .inr hf
  refine ⟨hsame.dead h, hsame.imp And.left And.left, fun c hmem => ?_, fun c hc hcur => ?_⟩
  · obtain ⟨q, hq, hg⟩ := hlog.of_mem h hdead hmem
    exact hq.not_run hg
  · obtain ⟨rfl, hset⟩ := hsettled c hc
    exact (hsame.dead h).ne_running (hset e hcur).1

/-! ### In every run -/

/-- The invariant of every run. -/
theorem dyingLive_of_reach (h₀ : Booted s₀) (h : Reach step (fun _ _ => True) s₀ s) :
    DyingLive s.procs ∧ FreeOk s.procs := by
  refine h.invariant (I := fun s => DyingLive s.procs ∧ FreeOk s.procs) ⟨fun e he => ?_, h₀.freeOk⟩
    fun _ _ _ ht _ hs => ⟨ht.1.step hs, ht.2.step hs⟩
  rcases he with he | he <;> (rw [procs_status, (h₀.envs e).1] at he; cases he)

/-- **A kill is never lost.** From any state of any run in which `e` is a zombie, as long as no
system call writes the status of `e` and, once it is free, its slot is not used again: it stays a
zombie until it is freed, stays free, and is not run. -/
theorem staysDead_of_reach (h₀ : Booted s₀) (h : Reach step (fun _ _ => True) s₀ s)
    (he : s.status e = .dying)
    (h' : Reach step (fun s ev => LeavesDead e s ev ∧
    (s.status e = .free → ¬ Reuses s ev e)) s s') :
    (s'.status e = .dying ∨ s'.status e = .free) ∧
      ∀ ev s'', LeavesDead e s' ev → (s'.status e = .free → ¬ Reuses s' ev e) →
        step s' ev = some s'' →
        StaysDead e s' ev s'' := by
  obtain ⟨hlive, hfree⟩ := dyingLive_of_reach h₀ h
  obtain ⟨hdead, hlive', hfree'⟩ : Dead s'.procs e ∧ DyingLive s'.procs ∧ FreeOk s'.procs := by
    refine h'.invariant (I := fun s => Dead s.procs e ∧ DyingLive s.procs ∧ FreeOk s.procs)
      ⟨.inl he, hlive, hfree⟩ ?_
    rintro t t' ev ⟨hdead, hlive, hfree⟩ ⟨hok, hreuse⟩ hs
    exact ⟨(hdead.step hlive hfree hok hreuse hs).1, hlive.step hs, hfree.step hs⟩
  exact ⟨hdead.imp id And.left, fun ev s'' hok hreuse hs =>
    (hdead.step hlive' hfree' hok hreuse hs).2⟩

/-- A timer interrupt. -/
def timerTrap : TrapIn := ⟨{ Trapframe.fresh with tfTrapno := IRQ_OFFSET }, 0, 0⟩

theorem leavesDead_timerTrap : LeavesDead e s (.trap c timerTrap) := by
  have hno : timerTrap.tf.tfTrapno ≠ T_SYSCALL := by decide
  rintro c' (⟨st, _, _, _, h, -⟩ | ⟨_, _, _, h, -⟩ | ⟨_, _, h, -⟩) <;>
    exact not_sysCall_of_trapno hno h

/-- A zombie is freed at its own next trap, after a timer interrupt on the other CPU. -/
theorem staysDead_timer : ∃ s s' s'', Reach step (fun _ _ => True) (bootState 2) s ∧
    s.status 1 = .dying ∧
    step s (.trap 0 timerTrap) = some s' ∧ step s' (.trap 1 timerTrap) = some s'' ∧
    s''.status 1 = .free ∧
    StaysDead 1 s' (.trap 1 timerTrap) s'' := by
  have hrun : ((destroyRun.foldlM step (bootState 2)).bind fun s =>
      (step s (.trap 0 timerTrap)).bind fun s' =>
      (step s' (.trap 1 timerTrap)).map fun s'' => (s.status 1, s'.status 1, s''.status 1)) =
        some (.dying, .dying, .free) := by decide +kernel
  obtain ⟨s, hs, hrun⟩ := Option.bind_eq_some_iff.mp hrun
  obtain ⟨s', hs', hrun⟩ := Option.bind_eq_some_iff.mp hrun
  obtain ⟨s'', hs'', hst⟩ := Option.map_eq_some_iff.mp hrun
  have hst₀ : s.status 1 = .dying := congrArg Prod.fst hst
  have hst₁ : s'.status 1 = .dying := congrArg (fun x => x.2.1) hst
  have hreach : Reach step (fun _ _ => True) (bootState 2) s :=
    Reach.of_foldlM hs fun _ _ _ => trivial
  have hnotFree : ∀ {t : KState}, t.status 1 = .dying → t.status 1 = .free → ∀ ev,
      ¬ Reuses t ev 1 := by
    intro t h h' _
    rw [h] at h'
    cases h'
  have hstays := (staysDead_of_reach (bootState_booted 2) hreach hst₀
    (.single ⟨leavesDead_timerTrap, fun h => hnotFree hst₀ h _⟩ hs')).2
  exact ⟨s, s', s'', hreach, hst₀, hs', hs'', congrArg (fun x => x.2.2) hst,
    hstays _ _ leavesDead_timerTrap (fun h => hnotFree hst₁ h _) hs''⟩

/-- After `destroyRun` the child is a zombie. Its parent makes it runnable again, and at its next
trap CPU 1 returns to it. -/
theorem not_staysDead : ∃ s s' s'', Reach step (fun _ _ => True) (bootState 2) s ∧
    s.status 1 = .dying ∧
    step s (.trap 0 (sysTrap 8 0x1001 2 0 0 0)) = some s' ∧ s'.status 1 = .runnable ∧
    step s' (.trap 1 timerTrap) = some s'' ∧ s''.status 1 = .running ∧ s''.curenv 1 = some 1 ∧
    ¬ StaysDead 1 s (.trap 0 (sysTrap 8 0x1001 2 0 0 0)) s' := by
  have hrun : ((destroyRun.foldlM step (bootState 2)).bind fun s =>
      (step s (.trap 0 (sysTrap 8 0x1001 2 0 0 0))).bind fun s' =>
          (step s' (.trap 1 timerTrap)).map fun s'' =>
        (s.status 1, s'.status 1, s''.status 1, s''.curenv 1)) =
          some (.dying, .runnable, .running, some 1) := by decide +kernel
  obtain ⟨s, hs, hrun⟩ := Option.bind_eq_some_iff.mp hrun
  obtain ⟨s', hs', hrun⟩ := Option.bind_eq_some_iff.mp hrun
  obtain ⟨s'', hs'', hst⟩ := Option.map_eq_some_iff.mp hrun
  have hst₀ : s.status 1 = .dying := congrArg Prod.fst hst
  have hst₁ : s'.status 1 = .runnable := congrArg (fun x => x.2.1) hst
  refine ⟨s, s', s'', Reach.of_foldlM hs fun _ _ _ => trivial, hst₀, hs', hst₁, hs'',
    congrArg (fun x => x.2.2.1) hst, congrArg (fun x => x.2.2.2) hst, fun h => ?_⟩
  have := h.status
  rw [hst₀, hst₁] at this
  rcases this with h | h <;> cases h

end JOS
