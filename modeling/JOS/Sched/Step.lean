import JOS.Sched.Entry

/-!
# What one step does to the table of processes

Every step of the machine is a log of acts, each under its guard (`step_logged`). The
guards say what the code checks: `sched_yield` only runs an environment that is
runnable, or the one it came from; `env_destroy` only frees one that does not run
elsewhere; a change of status was asked for by a system call with these arguments.
Invariants of the table follow from the guards alone.
-/

namespace JOS

open JOS.General

/-! ### What an event asks for -/

/-- In state `s` the event `ev` is the system call `a`, by the environment `cur` on CPU `c`; it
starts in `s₁`. -/
def SysCall (s : KState) (ev : Event) (c cur : ℕ) (a : SysArgs) (s₁ : KState) : Prop :=
  ∃ t, ev = .trap c t ∧ s.curenv c = some cur ∧ s.status cur ≠ .dying ∧ t.tf.tfTrapno = T_SYSCALL ∧
    a = t.args ∧ s₁ = trapEntry s.reset c cur t

/-- An event is one system call at most. -/
theorem SysCall.unique {c' cur' : ℕ} {a a' : SysArgs} (h : SysCall s ev c cur a s₁)
    (h' : SysCall s ev c' cur' a' s₂) :
    c = c' ∧ cur = cur' ∧ a = a' ∧ s₁ = s₂ := by
  obtain ⟨t, rfl, hcur, -, -, rfl, rfl⟩ := h
  obtain ⟨t', ht, hcur', -, -, rfl, rfl⟩ := h'
  cases ht
  rw [hcur] at hcur'
  cases hcur'
  exact ⟨rfl, rfl, rfl, rfl⟩

/-- `sys_env_set_status(e, st)` on CPU `c`, past its checks. -/
def SetsStatus (s : KState) (ev : Event) (c e : ℕ) (st : EnvStatus) : Prop :=
  ∃ cur a s₁, SysCall s ev c cur a s₁ ∧ SysNo.ofWord a.no = some .envSetStatus ∧
    statusArg a.a2 = some st ∧
    envid2env s₁ cur a.a1 true = some e

/-- `sys_env_destroy(e)` on CPU `c`, past its checks. -/
def Destroys (s : KState) (ev : Event) (c e : ℕ) : Prop :=
  ∃ cur a s₁, SysCall s ev c cur a s₁ ∧ SysNo.ofWord a.no = some .envDestroy ∧
    envid2env s₁ cur a.a1 true = some e

/-- `sys_ipc_try_send` to `e` on CPU `c`, past its checks: nothing keeps it from completing. -/
def Sends (s : KState) (ev : Event) (c e : ℕ) : Prop :=
  ∃ cur a s₁, SysCall s ev c cur a s₁ ∧ SysNo.ofWord a.no = some .ipcTrySend ∧
    ipcSendArgs s₁ cur a.a1 = .ok e ∧
    (a.a3 < UTOP → ∃ s₂, ipcSendPage s₁ cur e a.a3 a.a4 = .ok (0, s₂))

/-- `sys_ipc_recv` by `e` on CPU `c`. -/
def Receives (s : KState) (ev : Event) (c e : ℕ) : Prop :=
  ∃ a s₁, SysCall s ev c e a s₁ ∧ SysNo.ofWord a.no = some .ipcRecv

/-- A page fault of `e` on CPU `c` that `page_fault_handler` hands to the environment: there is an
upcall, and room on the exception stack. -/
def Resumes (s : KState) (ev : Event) (c e : ℕ) : Prop :=
  ∃ t pgdir, ev = .trap c t ∧ s.curenv c = some e ∧ s.status e ≠ .dying ∧ t.tf.tfTrapno = T_PGFLT ∧
    (s.envs e).envPgfaultUpcall ≠ 0 ∧ (s.envs e).envPgdir = some pgdir ∧
    (userMemCheck s.mem pgdir (utfAddr t.tf.tfEsp) utfSize (PTE_W ||| PTE_U)).map Prod.fst = .ok 0

/-- When an act may happen: `p` is the table when it does, in a step that began in `s` with `ev` on
CPU `c`. -/
def Guard (s : KState) (ev : Event) (c : ℕ) (p : Procs) : Act → Prop
  | .alloc e _ => p = s.procs ∧ s.envFreeList = some e
  | .free c' e => c' = c ∧ p = s.procs ∧ p.live e = true ∧
      (s.curenv c = some e ∨ Destroys s ev c e ∧ s.status e ≠ .running)
  | .zombie e => p = s.procs ∧ s.status e = .running ∧ s.curenv c ≠ some e
  | .setStatus e st => p = s.procs ∧ SetsStatus s ev c e st
  | .ipc e => p = s.procs ∧ Sends s ev c e
  | .block e => p = s.procs ∧ Receives s ev c e
  | .clear c' => c' = c ∧ ∀ e, p.curenv c = some e → p.status e ≠ .running
  | .run c' e => c' = c ∧ p.live e = true ∧ (p.status e = .runnable ∨
      p.curenv c = some e ∧ (p.status e = .running ∨ p = s.procs ∧ Resumes s ev c e))

/-! ### Logs of a step -/

variable {s s₁ s₂ s' : KState} {ev : Event} {c cur e : ℕ}

/-- What has happened since the step began in `s` is a log of acts under their guards. -/
def Logged (s : KState) (ev : Event) (c : ℕ) (s₁ : KState) : Prop :=
  Log Procs.act (Guard s ev c) s.procs s₁.acts s₁.procs

/-- CPU `c` is out of the kernel: its environment, if it has one, is running and has a page
directory. -/
def Settled (c : ℕ) (s : KState) : Prop :=
  ∀ e, s.curenv c = some e → s.status e = .running ∧ s.procs.live e = true

/-- Nothing has happened yet. -/
def Fresh (s s₁ : KState) : Prop := s₁.procs = s.procs ∧ s₁.acts = []

theorem fresh_reset (s : KState) : Fresh s s.reset := ⟨rfl, rfl⟩

theorem Fresh.logged (h : Fresh s s₁) : Logged s ev c s₁ := by
  rw [Logged, h.1, h.2]
  exact .nil

theorem Fresh.quiet (h : Fresh s s₁) (h' : Quiet s₁ s₂) : Fresh s s₂ :=
  ⟨h'.1.trans h.1, h'.2.trans h.2⟩

theorem Logged.acts {a : Act} (h : Logged s ev c s₁) (ha : Acts a s₁ s₂)
    (hg : Guard s ev c s₁.procs a) :
    Logged s ev c s₂ := by
  rw [Logged, ha.1, ha.2]
  exact .cons h hg

theorem Logged.quiet (h : Logged s ev c s₁) (h' : Quiet s₁ s₂) : Logged s ev c s₂ := by
  rw [Logged, h'.1, h'.2]
  exact h

/-- After `env_run` the CPU is settled. -/
theorem settled_of_run (ha : Acts (.run c e) s₁ s') (hlive : s₁.procs.live e = true) :
    Settled c s' := by
  intro e' he'
  rw [← procs_curenv, ha.1] at he'
  rw [← procs_status, ha.1]
  simp only [Procs.act, Function.update_self, Option.some.injEq] at he' ⊢
  subst he'
  exact ⟨Function.update_self _ _ _, hlive⟩

/-- After `env_run` and after `curenv = NULL` the CPU is settled. -/
theorem settled_of_yields {a : Act} (ha : Acts a s₁ s') (hy : Yields c s₁.procs a) :
    Settled c s' := by
  cases a with
  | run c' e' =>
    obtain ⟨rfl, hlive, -⟩ := hy
    exact settled_of_run ha hlive
  | clear c' =>
    obtain ⟨rfl, -⟩ := hy
    intro e he
    rw [← procs_curenv, ha.1] at he
    simp [Procs.act] at he
  | _ => exact hy.elim

/-- What `sched_yield` does is within the guards. -/
theorem guard_of_yields {p : Procs} {a : Act} (hy : Yields c p a) : Guard s ev c p a := by
  cases a with
  | run c' e =>
    obtain ⟨rfl, hlive, h | ⟨hc, hr⟩⟩ := hy
    · exact ⟨rfl, hlive, .inl h⟩
    · exact ⟨rfl, hlive, .inr ⟨hc, .inl hr⟩⟩
  | clear c' => exact hy
  | _ => exact hy.elim

/-- A step that ends in `sched_yield`. -/
theorem Logged.schedYield (h : Logged s ev c s₁) (hs : schedYield s₁ c = .gone s') :
    Logged s ev c s' ∧ Settled c s' := by
  obtain ⟨a, ha, hy⟩ := schedYield_acts hs
  exact ⟨h.acts ha (guard_of_yields hy), settled_of_yields ha hy⟩

/-- A step in which the environment of the CPU is freed first. -/
theorem Fresh.exits (h : Fresh s s₁) (hcur : s.curenv c = some e) (hx : Exits c e s₁ s') :
    Logged s ev c s' ∧ Settled c s' := by
  obtain ⟨hlive, s₂, s₃, a, hfree, hclear, ha, hy⟩ := hx
  have hlog : Logged s ev c s₂ := h.logged.acts hfree ⟨rfl, h.1, hlive, .inl hcur⟩
  have hlog' : Logged s ev c s₃ := hlog.acts hclear ⟨rfl, fun e' he' => by
    have hcur' : s₁.procs.curenv c = some e := by rw [h.1]; exact hcur
    rw [hfree.1] at he' ⊢
    have : some e = some e' := hcur'.symm.trans he'
    cases this
    simp [Procs.act]⟩
  exact ⟨hlog'.acts ha (guard_of_yields hy), settled_of_yields ha hy⟩

/-! ### System calls -/

/-- The caller of a system call is the environment of the CPU. -/
theorem SysCall.curenv {a : SysArgs} (hcall : SysCall s ev c cur a s₁) (hfresh : Fresh s s₁) :
    s₁.curenv c = some cur := by
  obtain ⟨t, -, hc, -⟩ := hcall
  rw [← procs_curenv, hfresh.1]
  exact hc

/-- The first act of a step happens in the table the step began with. -/
theorem Fresh.acts {a : Act} (h : Fresh s s₁) (ha : Acts a s₁ s₂) (hg : Guard s ev c s.procs a) :
    Logged s ev c s₂ := h.logged.acts ha (by rw [h.1]; exact hg)

/-- A system call that returns. -/
theorem syscall_ok {a : SysArgs} {r : Word} (hcall : SysCall s ev c cur a s₁) (hfresh : Fresh s s₁)
    (h : syscall s₁ c cur a = .ok (r, s₂)) : Logged s ev c s₂ := by
  have hcur : s₁.curenv c = some cur := hcall.curenv hfresh
  have hquiet : Quiet s₁ s₂ → Logged s ev c s₂ := fun hq => (hfresh.quiet hq).logged
  cases syscall_returns hcur h with
  | same => exact hquiet (.refl _)
  | envDestroy hno henv hd =>
    rcases envDestroy_acts hd with ⟨hst, hne, hacts⟩ | ⟨hst, hne, hlive, hacts⟩
    all_goals rw [← procs_status, hfresh.1, procs_status] at hst; rw [← procs_curenv, hfresh.1,
      procs_curenv] at hne
    · exact hfresh.acts hacts ⟨rfl, hst, hne⟩
    · rw [hfresh.1] at hlive
      exact hfresh.acts hacts ⟨rfl, rfl, hlive, .inr ⟨⟨cur, a, s₁, hcall, hno, henv⟩, hst⟩⟩
  | pageAlloc _ h => exact hquiet (sysPageAlloc_memOnly h).quiet
  | pageMap _ h => exact hquiet (sysPageMap_memOnly h).quiet
  | pageUnmap _ h => exact hquiet (sysPageUnmap_memOnly h).quiet
  | exofork _ h =>
    rcases sysExofork_acts h with hq | ⟨e, hfl, hacts⟩
    · exact hquiet hq
    · rw [← procs_freeList, hfresh.1, procs_freeList] at hfl
      exact hfresh.acts hacts ⟨rfl, hfl⟩
  | envSetStatus hno hst henv =>
    exact hfresh.acts ⟨(procs_log _ _).trans (procs_setStatus _ _ _), rfl⟩ ⟨rfl, cur, a, s₁, hcall,
      hno, hst, henv⟩
  | envSetPgfaultUpcall _ _ => exact hquiet (quiet_setEnv _ _ _ rfl rfl rfl)
  | ipcTrySend hno h =>
    rcases sysIpcTrySend_acts h with hq | ⟨e, hargs, hpage, hacts⟩
    · exact hquiet hq
    · exact hfresh.acts hacts ⟨rfl, cur, a, s₁, hcall, hno, hargs, hpage⟩

theorem blocked_acts (s : KState) (cur : ℕ) (dstva : Word) :
    Acts (.block cur) s (blocked s cur dstva) := by
  refine ⟨?_, rfl⟩
  rw [blocked, procs_log, procs_setEnv]
  have h₂ : (s.envs cur).envPgdir.isSome = s.procs.live cur := rfl
  have h₃ : (s.envs cur).envLink = s.procs.link cur := rfl
  simp only [h₂, h₃, Function.update_eq_self, Procs.act]

/-- A system call that does not return: `sys_yield`, `sys_ipc_recv`, or one that destroys its
caller. -/
theorem syscall_gone {a : SysArgs} (hcall : SysCall s ev c cur a s₁) (hfresh : Fresh s s₁)
    (h : syscall s₁ c cur a = .error (.gone s')) : Logged s ev c s' ∧ Settled c s' := by
  have hcur : s₁.curenv c = some cur := hcall.curenv hfresh
  have hexits : ∀ e, s₁.curenv c = some e ∧ Exits c e s₁ s' → Logged s ev c s' ∧ Settled c s' := by
    rintro e ⟨he, hx⟩
    rw [← procs_curenv, hfresh.1] at he
    exact hfresh.exits he hx
  rcases syscall_gone_cases h with ⟨-, h⟩ | ⟨hno, -, h⟩ | ⟨e, -, -, h⟩ | ⟨-, h⟩
  · exact hfresh.logged.schedYield h
  · exact (hfresh.acts (blocked_acts s₁ cur a.a1) ⟨rfl, a, s₁, hcall, hno⟩).schedYield h
  · exact hexits _ (envDestroy_exits h)
  · exact hexits _ (envDestroy_exits h)

/-! ### Traps -/

/-- The end of `trap`. -/
theorem Logged.trapReturn (h : Logged s ev c s₁) (hs : trapReturn s₁ c = .gone s') :
    Logged s ev c s' ∧ Settled c s' := by
  rcases trapReturn_cases hs with ⟨e, hc, hr, hs⟩ | hs
  · obtain ⟨hacts, hlive⟩ := envRun_acts hs
    have hy : Yields c s₁.procs (.run c e) := ⟨rfl, hlive, .inr ⟨hc, hr⟩⟩
    exact ⟨h.acts hacts (guard_of_yields hy), settled_of_yields hacts hy⟩
  · exact h.schedYield hs

/-- Copying the frame is not seen in the table. -/
theorem fresh_trapEntry (t : TrapIn) : Fresh s (trapEntry s.reset c cur t) := by
  rw [trapEntry]
  refine (fresh_reset s).quiet ((quiet_setCpu _ _ _ ?_).trans (quiet_setEnv _ _ _ ?_ ?_ ?_)) <;> rfl

@[simp] theorem trapEntry_envs (s : KState) (c cur : ℕ) (t : TrapIn) :
    (trapEntry s c cur t).envs cur = { s.envs cur with envTf := t.tf } :=
      KState.setEnv_envs_self _ _ _

/-- `page_fault_handler` destroys the environment, or resumes it at its upcall. -/
theorem pageFaultHandler_gone {t : TrapIn} (hev : ev = .trap c t) (hno : t.tf.tfTrapno = T_PGFLT)
    (hdying : s.status cur ≠ .dying) (hcur : s.curenv c = some cur)
    (h : pageFaultHandler (trapEntry s.reset c cur t) c cur t.cr2 = .error (.gone s')) :
    Logged s ev c s' ∧ Settled c s' := by
  have hfresh : Fresh s (trapEntry s.reset c cur t) := fresh_trapEntry t
  have henv := trapEntry_envs s.reset c cur t
  have hmem : (trapEntry s.reset c cur t).mem = s.mem := rfl
  generalize trapEntry s.reset c cur t = s₁ at h hfresh henv hmem
  have hcur₁ : s₁.curenv c = some cur := by
    rw [← procs_curenv, hfresh.1]
    exact hcur
  rcases pageFaultHandler_cases hcur₁ h with h | ⟨hup, hassert, m, -, h⟩
  · exact hfresh.exits hcur (envDestroy_exits h).2
  · obtain ⟨hacts, hlive⟩ := envRun_acts h
    have hquiet : Quiet s₁ (atUpcall s₁ cur m) :=
      (quiet_mem s₁ m).trans (quiet_setEnv _ _ _ rfl rfl rfl)
    have hrun : Acts (.run c cur) s₁ s' := hquiet.acts hacts
    rw [hquiet.1, hfresh.1] at hlive
    obtain ⟨pgdir, hpgdir⟩ := Option.isSome_iff_exists.mp hlive
    have hcheck := ((userMemAssert_eq_ok hcur₁ (by rw [henv]; exact hpgdir)).mp hassert).2
    rw [henv, hmem] at hcheck
    rw [henv] at hup
    have hres : Resumes s ev c cur := ⟨t, pgdir, hev, hcur, hdying, hno, hup, hpgdir, hcheck⟩
    refine ⟨hfresh.acts hrun ⟨rfl, hlive, .inr ⟨hcur, .inr ⟨rfl, hres⟩⟩⟩, settled_of_run hrun ?_⟩
    rw [hfresh.1]
    exact hlive

/-- A trap from user mode. -/
theorem userTrap_gone {t : TrapIn} (hev : ev = .trap c t) (hdying : s.status cur ≠ .dying)
    (hcur : s.curenv c = some cur)
    (h : UserTrapEnds (trapEntry s.reset c cur t) c cur t s') : Logged s ev c s' ∧
    Settled c s' := by
  have hfresh : Fresh s (trapEntry s.reset c cur t) := fresh_trapEntry t
  cases h with
  | pageFault hpf h => exact pageFaultHandler_gone hev hpf hdying hcur h
  | leaves hsys h => exact syscall_gone ⟨t, hev, hcur, hdying, hsys, rfl, rfl⟩ hfresh h
  | returns hsys hcall _ h =>
    refine ((syscall_ok ⟨t, hev, hcur, hdying, hsys, rfl, rfl⟩ hfresh hcall).quiet ?_).trapReturn h
    refine quiet_setEnv _ _ _ ?_ ?_ ?_ <;> rfl
  | spurious _ h => exact hfresh.logged.trapReturn h
  | timer h => exact hfresh.logged.schedYield h
  | destroys h => exact hfresh.exits hcur (envDestroy_exits h).2

theorem trapFits_user {t : TrapIn} (hcur : s.curenv c = some cur) (hfits : trapFits s c t = true) :
    t.tf.tfCs &&& 3 = 3 := by
  simpa only [trapFits, hcur, beq_iff_eq] using hfits

/-- A trap from user mode, when the environment goes on. -/
theorem trap_user {t : TrapIn} (hcur : s.curenv c = some cur) (hst : s.status cur ≠ .dying)
    (hfits : trapFits s c t = true) :
    trap s.reset c t = leaveWith (trapDispatch (trapEntry s.reset c cur t) c cur t) fun s =>
        trapReturn s c := by
  have hcur : s.reset.curenv c = some cur := hcur
  have hst : ¬ s.reset.status cur = .dying := hst
  rw [trap, if_pos (trapFits_user hcur hfits), hcur]
  dsimp only
  rw [if_neg hst]

/-- A system call from user mode, in `trap`. -/
theorem trap_sysCall {t : TrapIn} {a : SysArgs} (hfits : trapFits s c t = true)
    (hcall : SysCall s (.trap c t) c cur a s₁) :
    trap s.reset c t = match syscall s₁ c cur a with
      | .error l => l
      | .ok (r, s₂) => trapReturn (returned s₂ cur r) c := by
  obtain ⟨t', hev, hcur, hdying, hsys, rfl, rfl⟩ := hcall
  cases hev
  rw [trap_user hcur hdying hfits, trapDispatch, hsys, if_neg (by decide),
    if_neg (by decide), if_pos rfl]
  cases syscall (trapEntry s.reset c cur t) c cur t.args <;> rfl

/-! ### Steps -/

theorem state?_eq_some {l : Leave} : l.state? = some s' ↔ l = .gone s' := by
  cases l <;> simp [Leave.state?]

/-- A trap. -/
theorem trap_gone {t : TrapIn} (hev : ev = .trap c t)
    (h : trap s.reset c t = .gone s') : Logged s ev c s' ∧ Settled c s' := by
  have hfresh : Fresh s (s.reset.setCpu c { s.reset.cpus c with cpuStatus := .started }) :=
    (fresh_reset s).quiet (quiet_setCpu _ _ _ rfl)
  cases trapEnds h with
  | dying hcur _ hfree h => exact hfresh.exits hcur (exits_of_envFree hfree h)
  | user hcur hdying h => exact userTrap_gone hev hdying hcur h
  | wakes _ h =>
    rcases h with h | h
    · exact hfresh.logged.trapReturn h
    · exact hfresh.logged.schedYield h

/-- **Every step is a log of acts under their guards.** It leaves the CPU it takes into the kernel
settled; a step that takes none there only allocates environments. -/
theorem step_logged (h : step s ev = some s') :
    Logged s ev ev.cpu s' ∧ (∀ c, ev.enters = some c → c = ev.cpu ∧ Settled c s') ∧
      (ev.enters = none → ∀ a ∈ s'.acts, ∃ e st, a = .alloc e st) := by
  cases ev with
  | create c elf =>
    refine and_left_comm.mp ⟨nofun, ?_⟩
    cases hcreate : envCreate s.reset c elf with
    | error w => simp [step, hcreate, Except.toOption] at h
    | ok s₁ =>
      simp only [step, hcreate, Except.toOption, Option.some.injEq] at h
      subst h
      obtain ⟨e, hfl, hacts⟩ := envCreate_acts hcreate
      refine ⟨(fresh_reset s).acts hacts ⟨rfl, hfl⟩, fun _ a ha => ?_⟩
      rw [hacts.2] at ha
      exact ⟨e, .runnable, List.mem_singleton.mp ha⟩
  | start c =>
    simp only [step] at h
    split_ifs at h
    have hy : Logged s (.start c) c s' ∧ Settled c s' :=
      (fresh_reset s).logged.schedYield (state?_eq_some.mp h)
    refine ⟨hy.1, fun c' hc' => ?_, nofun⟩
    cases hc'
    exact ⟨rfl, hy.2⟩
  | trap c t =>
    simp only [step] at h
    split_ifs at h
    have ht : Logged s (.trap c t) c s' ∧ Settled c s' := trap_gone rfl (state?_eq_some.mp h)
    refine ⟨ht.1, fun c' hc' => ?_, nofun⟩
    cases hc'
    exact ⟨rfl, ht.2⟩
  | store c va b =>
    have hmem : MemOnly s.reset s' := by
      simp only [step, userStore] at h
      split_ifs at h
      split at h
      · split_ifs at h
        cases h
        exact ⟨_, rfl⟩
      · cases h
    have hfresh := (fresh_reset s).quiet hmem.quiet
    refine ⟨hfresh.logged, nofun, fun _ a ha => ?_⟩
    rw [hfresh.2] at ha
    exact absurd ha List.not_mem_nil

end JOS
