import JOS.Sched.Step
import JOS.Kern.Boot

/-!
# An environment runs on one CPU

`OneCpu` is the invariant of the process table that keeps two CPUs apart: each
environment is `curenv` of at most one of them, and what a CPU outside the kernel runs
has a page directory and one of the statuses `S`. The list of free environments is
part of it (`FreeOk`), since `env_alloc` takes what it finds there.

Three system calls can break it, all of them when their target runs on another CPU:
`sys_env_set_status` and a completed `sys_ipc_try_send` write its status, and
`sys_env_destroy` frees it unless it is `ENV_RUNNING`. In the runs where they do not
(`LeavesOthers`) the invariant holds in every state.
-/

namespace JOS

open JOS.General

variable {s₀ s s' : KState} {ev : Event} {c c' e : ℕ} {p : Procs} {S : EnvStatus → Prop}
  {busy : Option ℕ}

/-! ### The list of free environments -/

/-- The list of free environments ends, and the environments on it have no page directory. -/
def FreeOk (p : Procs) : Prop := ∃ l, Chain p.link p.freeList l ∧ ∀ e ∈ l, p.live e = false

theorem FreeOk.head (h : FreeOk p) (he : p.freeList = some e) : p.live e = false := by
  obtain ⟨l, hl, hlive⟩ := h
  rw [he] at hl
  obtain ⟨t, rfl, -⟩ := hl.of_some
  exact hlive e List.mem_cons_self

/-- The first environment of the list is taken. -/
theorem FreeOk.alloc {st : EnvStatus} (h : FreeOk p) (he : p.freeList = some e) :
    FreeOk (p.act (.alloc e st)) := by
  obtain ⟨l, hl, hlive⟩ := h
  rw [he] at hl
  obtain ⟨t, rfl, ht⟩ := hl.of_some
  refine ⟨t, ht, fun e' he' => ?_⟩
  have hne : e' ≠ e := fun h => (List.nodup_cons.mp hl.nodup).1 (h ▸ he')
  simp only [Procs.act, Function.update_of_ne hne]
  exact hlive e' (List.mem_cons_of_mem _ he')

/-- An environment that is not on the list is put on it. -/
theorem FreeOk.free (h : FreeOk p) (he : p.live e = true) : FreeOk (p.act (.free c e)) := by
  obtain ⟨l, hl, hlive⟩ := h
  have hne : ∀ e' ∈ l, e' ≠ e := fun e' he' h => by
    rw [h] at he'
    rw [hlive e he'] at he
    cases he
  refine ⟨e :: l, hl.push ?_ ?_, fun e' he' => ?_⟩
  · simp [Procs.act]
  · exact fun e' he' => by simp [Procs.act, Function.update_of_ne (hne e' he')]
  · rcases List.mem_cons.mp he' with rfl | he'
    · simp [Procs.act]
    · simp only [Procs.act, Function.update_of_ne (hne e' he')]
      exact hlive e' he'

/-- Every act keeps the list of free environments. -/
theorem FreeOk.act {a : Act} (h : FreeOk p) (hg : Guard s ev c p a) : FreeOk (p.act a) := by
  cases a with
  | alloc e st =>
    obtain ⟨rfl, he⟩ := hg
    exact h.alloc he
  | free c' e =>
    obtain ⟨-, -, he, -⟩ := hg
    exact h.free he
  | _ => exact h

theorem Booted.freeOk (h : Booted s₀) : FreeOk s₀.procs := by
  obtain ⟨l, hl, -⟩ := h.envList
  exact ⟨l, hl, fun e _ => by rw [procs_live, (h.envs e).2]; rfl⟩

/-! ### The invariant -/

/-- `OneCpu S busy p`: no environment runs twice, and what the CPUs outside the kernel run has a
status in `S` and a page directory. CPU `busy` is in the kernel. -/
structure OneCpu (S : EnvStatus → Prop) (busy : Option ℕ) (p : Procs) : Prop where
  /-- An environment is `curenv` of one CPU. -/
  inj : ∀ c c' e, p.curenv c = some e → p.curenv c' = some e → c = c'
  /-- The status of what a CPU outside the kernel runs. -/
  status : ∀ c e, busy ≠ some c → p.curenv c = some e → S (p.status e)
  /-- Such an environment has a page directory. -/
  live : ∀ c e, busy ≠ some c → p.curenv c = some e → p.live e = true

/-- Statuses that tell what a CPU runs from what `sched_yield` may pick. -/
structure Occupied (S : EnvStatus → Prop) : Prop where
  running : S .running
  dying : S .dying
  runnable : ¬ S .runnable

/-- Another CPU runs the environment. -/
def Elsewhere (s : KState) (c e : ℕ) : Prop := ∃ c', c' ≠ c ∧ s.curenv c' = some e

/-- The system call leaves environments that run on other CPUs alone: it does not give one a status
outside `S`, complete a send to one, or destroy one that is not `ENV_RUNNING`. -/
def LeavesOthers (S : EnvStatus → Prop) (s : KState) (ev : Event) : Prop :=
  (∀ c e st, SetsStatus s ev c e st → Elsewhere s c e → S st) ∧
    (∀ c e, Sends s ev c e → ¬ Elsewhere s c e) ∧
    ∀ c e, Destroys s ev c e → Elsewhere s c e → s.status e = .running

/-- What changes in one environment, which no CPU outside the kernel runs, these CPUs do not see. -/
theorem OneCpu.congr {q : Procs} (h : OneCpu S busy p) (hcur : q.curenv = p.curenv)
    (he : ∀ c, busy ≠ some c → p.curenv c ≠ some e)
    (hother : ∀ e', e' ≠ e → q.status e' = p.status e' ∧ q.live e' = p.live e') :
    OneCpu S busy q := by
  have hne : ∀ c e', busy ≠ some c → q.curenv c = some e' → e' ≠ e := by
    rintro c e' hc hcur' rfl
    rw [hcur] at hcur'
    exact he c hc hcur'
  refine ⟨by rw [hcur]; exact h.inj, fun c e' hc hcur' => ?_, fun c e' hc hcur' => ?_⟩
  · rw [(hother e' (hne c e' hc hcur')).1]
    exact h.status c e' hc (by rw [← hcur]; exact hcur')
  · rw [(hother e' (hne c e' hc hcur')).2]
    exact h.live c e' hc (by rw [← hcur]; exact hcur')

/-- What is on the list of free environments no CPU runs. -/
theorem OneCpu.alloc {st : EnvStatus} (h₀ : OneCpu S none s.procs) (hfree : FreeOk s.procs)
    (h : OneCpu S busy s.procs) (he : s.envFreeList = some e) :
    OneCpu S busy (s.procs.act (.alloc e st)) := by
  refine h.congr (e := e) rfl (fun c _ hcur => ?_) fun e' he' => ?_
  · have := h₀.live c e (by simp) hcur
    rw [hfree.head he] at this
    cases this
  · simp [Procs.act, Function.update_of_ne he']

/-- `env_free` is not executed on an environment that another CPU runs. -/
theorem OneCpu.not_elsewhere_of_free (h₀ : OneCpu S none s.procs) (hok : LeavesOthers S s ev)
    (hg : Guard s ev c p (.free c' e)) : ¬ Elsewhere s c e := by
  obtain ⟨-, -, -, he | ⟨hd, hst⟩⟩ := hg
  · rintro ⟨c'', hne, hcur⟩
    exact hne (h₀.inj _ _ _ hcur he)
  · exact fun h => hst (hok.2.2 c e hd h)

/-- Each act of a step that leaves others alone keeps the invariant. -/
theorem OneCpu.act {a : Act} (hS : Occupied S) (h₀ : OneCpu S none s.procs) (hfree : FreeOk s.procs)
    (hok : LeavesOthers S s ev) (h : OneCpu S (some c) p) (hg : Guard s ev c p a) :
    OneCpu S (some c) (p.act a) := by
  have hne : ∀ {c'}, some c ≠ some c' → c' ≠ c := fun h h' => h (by rw [h'])
  cases a with
  | alloc e st =>
    obtain ⟨rfl, he⟩ := hg
    exact h₀.alloc hfree h he
  | free c' e =>
    have hno := h₀.not_elsewhere_of_free hok hg
    obtain ⟨-, rfl, -⟩ := hg
    refine h.congr (e := e) rfl (fun c'' hc hcur => hno ⟨c'', hne hc, hcur⟩) fun e' he' => ?_
    simp [Procs.act, Function.update_of_ne he']
  | zombie e =>
    refine ⟨h.inj, fun c' e' hc' hcur => ?_, h.live⟩
    by_cases he' : e' = e
    · subst he'
      simpa [Procs.act] using hS.dying
    · simp only [Procs.act, Function.update_of_ne he']
      exact h.status c' e' hc' hcur
  | setStatus e st =>
    obtain ⟨rfl, he⟩ := hg
    refine ⟨h.inj, fun c' e' hc' hcur => ?_, h.live⟩
    by_cases he' : e' = e
    · subst he'
      simpa [Procs.act] using hok.1 c e' st he ⟨c', hne hc', hcur⟩
    · simp only [Procs.act, Function.update_of_ne he']
      exact h.status c' e' hc' hcur
  | ipc e =>
    obtain ⟨rfl, he⟩ := hg
    refine h.congr (e := e) rfl (fun c' hc hcur => hok.2.1 c e he ⟨c', hne hc, hcur⟩)
      fun e' he' => ?_
    simp [Procs.act, Function.update_of_ne he']
  | block e =>
    obtain ⟨rfl, a, s₁, ⟨t, -, hcur, -⟩, -⟩ := hg
    refine h.congr (e := e) rfl (fun c' hc hcur' => hne hc (h.inj _ _ _ hcur' hcur))
      fun e' he' => ?_
    simp [Procs.act, Function.update_of_ne he']
  | clear c' =>
    obtain ⟨rfl, -⟩ := hg
    have hcur : ∀ c e, (p.act (.clear c')).curenv c = some e → p.curenv c = some e := by
      intro c e hc
      simp only [Procs.act, Function.update_apply] at hc
      split_ifs at hc
      exact hc
    exact ⟨fun c₁ c₂ e h₁ h₂ => h.inj c₁ c₂ e (hcur _ _ h₁) (hcur _ _ h₂),
      fun c e hc he => h.status c e hc (hcur c e he), fun c e hc he => h.live c e hc (hcur c e he)⟩
  | run c' e =>
    obtain ⟨rfl, hlive, he⟩ := hg
    -- no other CPU runs `e`
    have hno : ∀ c, c ≠ c' → p.curenv c ≠ some e := by
      intro c hc hcur
      rcases he with hst | ⟨hcur', -⟩
      · have := h.status c e (fun h => hc (Option.some.inj h).symm) hcur
        exact hS.runnable (hst ▸ this)
      · exact hc (h.inj _ _ _ hcur hcur')
    have hcur : ∀ c, c ≠ c' → (p.act (.run c' e)).curenv c = p.curenv c := fun c hc => by
      simp [Procs.act, Function.update_of_ne hc]
    have hself : (p.act (.run c' e)).curenv c' = some e := by simp [Procs.act]
    refine ⟨fun c₁ c₂ e' h₁ h₂ => ?_, fun c e' hc hce => ?_, fun c e' hc hce => ?_⟩
    · by_cases hc₁ : c₁ = c' <;> by_cases hc₂ : c₂ = c'
      · rw [hc₁, hc₂]
      · rw [hc₁, hself] at h₁
        rw [hcur c₂ hc₂, ← h₁] at h₂
        exact absurd h₂ (hno c₂ hc₂)
      · rw [hc₂, hself] at h₂
        rw [hcur c₁ hc₁, ← h₂] at h₁
        exact absurd h₁ (hno c₁ hc₁)
      · rw [hcur c₁ hc₁] at h₁
        rw [hcur c₂ hc₂] at h₂
        exact h.inj c₁ c₂ e' h₁ h₂
    · have hc' : c ≠ c' := fun h => hc (by rw [h])
      rw [hcur c hc'] at hce
      have hne : e' ≠ e := fun h => hno c hc' (by rw [← h]; exact hce)
      have hne' : p.curenv c' ≠ some e' := fun h' => hc' (h.inj _ _ _ hce h')
      simp only [Procs.act, Function.update_of_ne hne, Procs.release_of_ne hne']
      exact h.status c e' hc hce
    · have hc' : c ≠ c' := fun h => hc (by rw [h])
      rw [hcur c hc'] at hce
      exact h.live c e' hc hce

/-- Every step keeps the list of free environments. -/
theorem FreeOk.step (h : FreeOk s.procs) (hs : step s ev = some s') : FreeOk s'.procs :=
  (step_logged hs).1.invariant h fun _ _ _ hq hg => hq.act hg

/-- The CPU that was in the kernel is settled. -/
theorem OneCpu.settle (hS : Occupied S) (h : OneCpu S (some c) s.procs) (hc : Settled c s) :
    OneCpu S none s.procs := by
  refine ⟨h.inj, fun c' e _ he => ?_, fun c' e _ he => ?_⟩ <;> by_cases hcc : c' = c
  · rw [procs_status, (hc e (hcc ▸ he)).1]
    exact hS.running
  · exact h.status c' e (fun h => hcc (Option.some.inj h).symm) he
  · exact (hc e (hcc ▸ he)).2
  · exact h.live c' e (fun h => hcc (Option.some.inj h).symm) he

/-- A step that leaves others alone keeps the invariant. -/
theorem OneCpu.step (hS : Occupied S) (h : OneCpu S none s.procs) (hfree : FreeOk s.procs)
    (hok : LeavesOthers S s ev) (hs : step s ev = some s') : OneCpu S none s'.procs := by
  obtain ⟨hlog, hsettled, halloc⟩ := step_logged hs
  cases henter : ev.enters with
  | none =>
    refine hlog.invariant h fun q a ha hq hg => ?_
    obtain ⟨e, st, rfl⟩ := halloc henter a ha
    obtain ⟨rfl, he⟩ := hg
    exact h.alloc hfree hq he
  | some c =>
    obtain ⟨rfl, hset⟩ := hsettled c henter
    have hbusy : OneCpu S (some ev.cpu) s.procs :=
      ⟨h.inj, fun c e _ => h.status c e (by simp), fun c e _ => h.live c e (by simp)⟩
    exact (hlog.invariant hbusy fun q a _ hq hg => OneCpu.act hS h hfree hok hq hg).settle hS hset

theorem Booted.oneCpu (h : Booted s₀) : OneCpu S none s₀.procs := by
  have hcur : ∀ c e, s₀.procs.curenv c ≠ some e := fun c e he => by
    rw [procs_curenv, h.cpus c] at he
    cases he
  exact ⟨fun c _ e he => absurd he (hcur c e), fun c e _ he => absurd he (hcur c e), fun c e _ he =>
    absurd he (hcur c e)⟩

/-- The invariant in every state of a run. -/
theorem oneCpu_of_reach (hS : Occupied S) (h₀ : Booted s₀)
    (h : Reach JOS.step (LeavesOthers S) s₀ s) :
    OneCpu S none s.procs ∧ FreeOk s.procs :=
  h.invariant (I := fun s => OneCpu S none s.procs ∧ FreeOk s.procs) ⟨h₀.oneCpu, h₀.freeOk⟩
    fun _ _ _ ht hok hs => ⟨ht.1.step hS ht.2 hok hs, ht.2.step hs⟩

/-! ### In every state of a run -/

/-- The statuses of an environment that a CPU runs. -/
def RunningOrDying (st : EnvStatus) : Prop := st = .running ∨ st = .dying

theorem occupied_runningOrDying : Occupied RunningOrDying :=
  ⟨.inl rfl, .inr rfl, by rintro (h | h) <;> cases h⟩

/-- The environment each CPU runs is its alone, and is running or dying. -/
def RunsAlone (s : KState) : Prop :=
  (∀ c c' e, s.curenv c = some e → s.curenv c' = some e → c = c') ∧
    ∀ c e, s.curenv c = some e → s.status e = .running ∨ s.status e = .dying

/-- **No environment runs on two CPUs at once**, in any run in which the system calls leave the
environments of other CPUs alone. -/
theorem runsAlone_of_reach (h₀ : Booted s₀)
    (h : Reach JOS.step (LeavesOthers RunningOrDying) s₀ s) :
    RunsAlone s := by
  obtain ⟨h, -⟩ := oneCpu_of_reach occupied_runningOrDying h₀ h
  exact ⟨h.inj, fun c e => h.status c e (by simp)⟩

/-- What is not a trap is not a system call. -/
theorem not_sysCall {cur : ℕ} {a : SysArgs} {s₁ : KState} (hev : ∀ c t, ev ≠ .trap c t) :
    ¬ SysCall s ev c cur a s₁ := by
  rintro ⟨t, rfl, -⟩
  exact hev c t rfl

theorem not_sysCall_of_trapno {cur c₀ : ℕ} {a : SysArgs} {s₁ : KState} {t : TrapIn}
    (hno : t.tf.tfTrapno ≠ T_SYSCALL) :
    ¬ SysCall s (.trap c₀ t) c cur a s₁ := by
  rintro ⟨t', ht, -, -, hsys, -⟩
  cases ht
  exact hno hsys

theorem leavesOthers_of_not_trap (hev : ∀ c t, ev ≠ .trap c t) : LeavesOthers S s ev :=
  ⟨fun _ _ _ ⟨_, _, _, h, _⟩ => (not_sysCall hev h).elim, fun _ _ ⟨_, _, _, h, _⟩ =>
    (not_sysCall hev h).elim,
    fun _ _ ⟨_, _, _, h, _⟩ => (not_sysCall hev h).elim⟩

/-- Two CPUs start and run an environment each. -/
theorem runsAlone_two : ∃ s, [.create 0 emptyElf, .create 0 emptyElf, .start 0,
    .start 1].foldlM JOS.step (bootState 2) = some s ∧
    s.curenv 0 = some 0 ∧ s.curenv 1 = some 1 ∧ RunsAlone s := by
  have hrun : (([Event.create 0 emptyElf, .create 0 emptyElf, .start 0, .start 1].foldlM JOS.step
      (bootState 2)).map
      fun s => (s.curenv 0, s.curenv 1)) = some (some 0, some 1) := by decide +kernel
  obtain ⟨s, hs, hcur⟩ := Option.map_eq_some_iff.mp hrun
  refine ⟨s, hs, congrArg Prod.fst hcur, congrArg Prod.snd hcur,
    runsAlone_of_reach (bootState_booted 2) (Reach.of_foldlM hs ?_)⟩
  intro t e he
  refine leavesOthers_of_not_trap fun c t => ?_
  simp only [List.mem_cons, List.not_mem_nil, or_false] at he
  rcases he with rfl | rfl | rfl | rfl <;> exact nofun

/-- An environment forks a child with `sys_exofork` and makes it runnable, and CPU 1 runs it; then
its parent on CPU 0 makes it runnable once more, and yields. -/
def setStatusRun : List Event :=
  [.create 0 emptyElf, .start 0, .trap 0 (sysTrap 7 0 0 0 0 0),
    .trap 0 (sysTrap 8 0x1001 2 0 0 0), .start 1,
    .trap 0 (sysTrap 8 0x1001 2 0 0 0), .trap 0 (sysTrap 10 0 0 0 0 0)]

/-- After `setStatusRun` the child runs on both CPUs. -/
theorem not_runsAlone : ∃ s, Reach JOS.step (fun _ _ => True) (bootState 2) s ∧
    s.curenv 0 = some 1 ∧ s.curenv 1 = some 1 ∧ ¬ RunsAlone s := by
  have hrun : ((setStatusRun.foldlM JOS.step (bootState 2)).map fun s => (s.curenv 0, s.curenv 1)) =
      some (some 1, some 1) := by decide +kernel
  obtain ⟨s, hs, hcur⟩ := Option.map_eq_some_iff.mp hrun
  have h₀ : s.curenv 0 = some 1 := congrArg Prod.fst hcur
  have h₁ : s.curenv 1 = some 1 := congrArg Prod.snd hcur
  exact ⟨s, Reach.of_foldlM hs fun _ _ _ => trivial, h₀, h₁, fun h =>
    absurd (h.1 0 1 1 h₀ h₁) (by decide)⟩

end JOS
