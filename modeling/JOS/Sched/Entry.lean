import JOS.Sched.Procs
import JOS.Sched.Dispatch

/-!
# What each function of the kernel does to the table of processes

One lemma for each function that changes a status, a page directory or `curenv`
(`env_alloc`, `env_free`, `env_destroy`, `env_run`, `sched_yield`, the system calls),
in terms of `Acts`; everything else is `Quiet`.
-/

namespace JOS

open JOS.General

variable {s s' : KState} {c cur e : ℕ}

/-! ### `env_run` and `sched_yield` -/

theorem release_procs (s : KState) (c : ℕ) :
    (release s c).procs = { s.procs with status := s.procs.release c } ∧
        (release s c).acts = s.acts := by
  rw [release, Procs.release, procs_curenv]
  cases s.curenv c with
  | none => exact ⟨rfl, rfl⟩
  | some e =>
    by_cases h : s.status e = .running
    · simp only [h, show s.procs.status e = .running from h, if_true]
      exact ⟨procs_setStatus _ _ _, rfl⟩
    · simp only [h, show ¬ s.procs.status e = .running from h, if_false, and_true]

/-- `env_run` needs a page directory. -/
theorem envRun_acts (h : envRun s c e = .gone s') : Acts (.run c e) s s' ∧
    s.procs.live e = true := by
  obtain ⟨hrel, hacts⟩ := release_procs (s.log (.run c e)) c
  rw [envRun] at h
  generalize release (s.log (.run c e)) c = s₁ at h hrel hacts
  have hlive : s.procs.live e = (s₁.envs e).envPgdir.isSome :=
    (congrFun (congrArg Procs.live hrel) e).symm
  -- the directory is looked at after the status is set
  generalize hs₂ : (s₁.setCurenv c (some e)).setEnv e { (s₁.setCurenv c (some e)).envs e with
    envStatus := .running, envRuns := ((s₁.setCurenv c (some e)).envs e).envRuns + 1 } = s₂ at h
  have hpgdir : (s₂.envs e).envPgdir = (s₁.envs e).envPgdir := by
    rw [← hs₂]
    rw [KState.setEnv_envs_self]
    rfl
  have hacts₂ : Acts (.run c e) s s₂ := by
    refine ⟨?_, by rw [← hs₂]; exact hacts⟩
    have h₁ : ((s₁.setCurenv c (some e)).envs e).envPgdir.isSome = s.procs.live e := hlive.symm
    have h₂ : ((s₁.setCurenv c (some e)).envs e).envLink = s.procs.link e :=
      congrFun (congrArg Procs.link hrel) e
    rw [← hs₂, procs_setEnv, procs_setCurenv, hrel, h₁, h₂]
    simp only [Function.update_eq_self, procs_log, Procs.act]
  rw [hpgdir] at h
  cases hp : (s₁.envs e).envPgdir with
  | none => simp [hp] at h
  | some pgdir =>
    simp only [hp, Leave.gone.injEq] at h
    refine ⟨hacts₂.quiet ?_, by rw [hlive, hp]; rfl⟩
    rw [← h]
    exact (quiet_lcr3 s₂ c pgdir).trans (quiet_setEnv _ _ _ rfl rfl rfl)

/-- `sched_halt` leaves the CPU without environment. -/
theorem schedHalt_acts (h : schedHalt s c = .gone s') : Acts (.clear c) s s' := by
  rw [schedHalt] at h
  split_ifs at h
  cases h
  exact ⟨(procs_log _ _).trans (procs_setCpu s c _), rfl⟩

/-- The environment `sched_yield` finds is runnable. -/
theorem nextRunnable_runnable (h : nextRunnable s c = some e) : s.status e = .runnable := by
  simpa using List.find?_some h

/-- How an entry into the kernel ends on CPU `c`: in an environment that has a page directory and
is runnable, or is running on `c`; or without one, when `curenv` is not running. -/
def Yields (c : ℕ) (p : Procs) : Act → Prop
  | .run c' e => c' = c ∧ p.live e = true ∧
      (p.status e = .runnable ∨ p.curenv c = some e ∧ p.status e = .running)
  | .clear c' => c' = c ∧ ∀ e, p.curenv c = some e → p.status e ≠ .running
  | _ => False

/-- `sched_yield`. -/
theorem schedYield_acts (h : schedYield s c = .gone s') : ∃ a, Acts a s s' ∧
    Yields c s.procs a := by
  rcases schedYield_cases h with ⟨e, hn, h⟩ | ⟨-, e, hc, hr, h⟩ | ⟨-, hr, h⟩
  · obtain ⟨hacts, hlive⟩ := envRun_acts h
    exact ⟨_, hacts, rfl, hlive, .inl (nextRunnable_runnable hn)⟩
  · obtain ⟨hacts, hlive⟩ := envRun_acts h
    exact ⟨_, hacts, rfl, hlive, .inr ⟨hc, hr⟩⟩
  · exact ⟨_, schedHalt_acts h, rfl, hr⟩

/-! ### `env_free` and `env_destroy` -/

/-- `env_free` needs a page directory. The table changes only in `e`. -/
theorem envFree_acts (h : envFree s c e = .ok s') : Acts (.free c e) s s' ∧
    s.procs.live e = true := by
  simp only [envFree, bind_eq_ok, pure_eq_ok, Except.ok.injEq] at h
  obtain ⟨pgdir, hpgdir, m, -, rfl⟩ := h
  -- switching to `kern_pgdir` is not seen in the table
  have hquiet : Quiet (s.log (.free c e))
      (if (s.log (.free c e)).curenv c = some e then (s.log (.free c e)).lcr3 c
        (s.log (.free c e)).mem.kernPgdir
        else s.log (.free c e)) := by
    split_ifs
    · exact quiet_lcr3 _ _ _
    · exact Quiet.refl _
  generalize (if (s.log (.free c e)).curenv c = some e then
    (s.log (.free c e)).lcr3 c (s.log (.free c e)).mem.kernPgdir else s.log (.free c e)) =
      s₁ at hpgdir hquiet ⊢
  obtain ⟨hprocs, hacts⟩ := hquiet
  rw [procs_log] at hprocs
  have hfl : s₁.envFreeList = s.procs.freeList := congrArg Procs.freeList hprocs
  refine ⟨⟨?_, hacts⟩, ?_⟩
  · have hset := procs_setEnv { s₁ with mem := m } e
      { s₁.envs e with envPgdir := none, envStatus := .free, envLink := s₁.envFreeList }
    have hmem : ({ s₁ with mem := m } : KState).procs = s.procs := hprocs
    refine (congrArg (fun p : Procs => { p with freeList := some e }) hset).trans ?_
    rw [hmem, Procs.act, hfl]
    rfl
  · rw [← congrFun (congrArg Procs.live hprocs) e, procs_live]
    cases hp : (s₁.envs e).envPgdir with
    | none => simp [hp, deref] at hpgdir
    | some _ => rfl

/-- `env_destroy` that comes back: a zombie is left to its CPU, or another environment is freed. -/
theorem envDestroy_acts (h : envDestroy s c e = .ok s') :
    s.status e = .running ∧ s.curenv c ≠ some e ∧ Acts (.zombie e) s s' ∨
      s.status e ≠ .running ∧ s.curenv c ≠ some e ∧ s.procs.live e = true ∧
          Acts (.free c e) s s' := by
  obtain ⟨hc, ⟨hr, rfl⟩ | ⟨hr, hfree⟩⟩ := envDestroy_ok h
  · exact .inl ⟨hr, hc, procs_setStatus _ _ _, rfl⟩
  · obtain ⟨hacts, hlive⟩ := envFree_acts hfree
    exact .inr ⟨hr, hc, hlive, hacts⟩

/-- How a CPU leaves the kernel after it has freed the environment it ran. -/
def Exits (c e : ℕ) (s s' : KState) : Prop :=
  s.procs.live e = true ∧ ∃ s₁ s₂ a, Acts (.free c e) s s₁ ∧ Acts (.clear c) s₁ s₂ ∧ Acts a s₂ s' ∧
    Yields c s₂.procs a

/-- Freeing the running environment, and scheduling another one. -/
theorem exits_of_envFree {s₁ : KState} (hfree : envFree s c e = .ok s₁)
    (h : schedYield ((s₁.setCurenv c none).log (.clear c)) c = .gone s') : Exits c e s s' := by
  obtain ⟨hacts, hlive⟩ := envFree_acts hfree
  obtain ⟨a, ha, hy⟩ := schedYield_acts h
  exact ⟨hlive, s₁, _, a, hacts, ⟨(procs_log _ _).trans (procs_setCurenv _ _ _), rfl⟩, ha, hy⟩

/-- `env_destroy` that does not come back frees the environment of the CPU. -/
theorem envDestroy_exits (h : envDestroy s c e = .error (.gone s')) : s.curenv c = some e ∧
    Exits c e s s' := by
  obtain ⟨hc, s₁, hfree, h⟩ := envDestroy_gone h
  exact ⟨hc, exits_of_envFree hfree h⟩

/-- `user_mem_assert` comes back exactly when the check passes, and changes nothing. -/
theorem userMemAssert_eq_ok {pgdir : ℕ} {va len perm : Word} (hcur : s.curenv c = some cur)
    (hpgdir : (s.envs cur).envPgdir = some pgdir) :
    userMemAssert s c cur va len perm = .ok s' ↔
      s' = s ∧ (userMemCheck s.mem pgdir va len (perm ||| PTE_U)).map Prod.fst = .ok 0 := by
  simp only [userMemAssert, hpgdir, deref, liftStop, ok_bind]
  cases userMemCheck s.mem pgdir va len (perm ||| PTE_U) with
  | error w => simp [Except.map]
  | ok r =>
    simp only [ok_bind, Except.map, Except.ok.injEq]
    by_cases hr : r.1 = 0
    · simp [hr, eq_comm]
    · simp only [ne_eq, hr, not_false_eq_true, if_true, and_false, iff_false]
      exact envDestroy_curenv hcur

/-! ### System calls that only touch memory -/

/-- Only memory has changed. -/
def MemOnly (s s' : KState) : Prop := ∃ m, s' = { s with mem := m }

theorem MemOnly.refl (s : KState) : MemOnly s s := ⟨s.mem, rfl⟩

theorem MemOnly.cpus (h : MemOnly s s') : s'.cpus = s.cpus := by
  obtain ⟨m, rfl⟩ := h
  rfl

theorem MemOnly.quiet (h : MemOnly s s') : Quiet s s' := by
  obtain ⟨m, rfl⟩ := h
  exact quiet_mem s m

theorem sysPageAlloc_memOnly {envid va perm r : Word}
    (h : sysPageAlloc s cur envid va perm = .ok (r, s')) :
    MemOnly s s' := by
  simp only [sysPageAlloc] at h
  split at h
  · cases h; exact .refl s
  split_ifs at h
  · cases h; exact .refl s
  · cases h; exact .refl s
  obtain ⟨⟨o, m₁⟩, -, h⟩ := bind_eq_ok.mp h
  cases o with
  | none => cases h; exact ⟨m₁, rfl⟩
  | some page =>
    obtain ⟨pgdir, -, h⟩ := bind_eq_ok.mp h
    obtain ⟨⟨flag, m₂⟩, -, h⟩ := bind_eq_ok.mp h
    dsimp only at h
    split_ifs at h
    · obtain ⟨m₃, -, h⟩ := bind_eq_ok.mp h
      cases h; exact ⟨m₃, rfl⟩
    · cases h; exact ⟨m₂, rfl⟩

theorem sysPageMap_memOnly {srcenvid srcva dstenvid dstva perm r : Word}
    (h : sysPageMap s cur srcenvid srcva dstenvid dstva perm = .ok (r, s')) : MemOnly s s' := by
  simp only [sysPageMap] at h
  split at h
  · cases h; exact .refl s
  obtain ⟨pgdir₁, -, h⟩ := bind_eq_ok.mp h
  obtain ⟨o, -, h⟩ := bind_eq_ok.mp h
  obtain ⟨⟨page, pte⟩, -, h⟩ := bind_eq_ok.mp h
  dsimp only at h
  split_ifs at h
  · cases h; exact .refl s
  obtain ⟨pgdir₂, -, h⟩ := bind_eq_ok.mp h
  obtain ⟨⟨flag, m⟩, -, h⟩ := bind_eq_ok.mp h
  dsimp only at h
  split_ifs at h <;> (cases h; exact ⟨m, rfl⟩)

theorem sysPageUnmap_memOnly {envid va r : Word} (h : sysPageUnmap s cur envid va = .ok (r, s')) :
    MemOnly s s' := by
  simp only [sysPageUnmap] at h
  split at h
  · cases h; exact .refl s
  split_ifs at h
  · cases h; exact .refl s
  obtain ⟨pgdir, -, h⟩ := bind_eq_ok.mp h
  obtain ⟨m, -, h⟩ := bind_eq_ok.mp h
  cases h; exact ⟨m, rfl⟩

/-! ### IPC and `sys_exofork` -/

/-- The page transfer of `sys_ipc_try_send` changes memory and `env_ipc_perm`. -/
theorem ipcSendPage_quiet {srcva perm r : Word} (h : ipcSendPage s cur e srcva perm = .ok (r, s')) :
    Quiet s s' := by
  simp only [ipcSendPage] at h
  obtain ⟨pgdir, -, h⟩ := bind_eq_ok.mp h
  obtain ⟨o, -, h⟩ := bind_eq_ok.mp h
  cases o with
  | none => cases h; exact .refl s
  | some x =>
    obtain ⟨pg, pte⟩ := x
    dsimp only at h
    split_ifs at h
    · cases h; exact .refl s
    · obtain ⟨dst, -, h⟩ := bind_eq_ok.mp h
      obtain ⟨⟨flag, m⟩, -, h⟩ := bind_eq_ok.mp h
      dsimp only at h
      split_ifs at h
      · cases h; exact quiet_mem s m
      · cases h; exact (quiet_mem s m).trans (quiet_setEnv _ _ _ rfl rfl rfl)
    · cases h; exact .refl s

theorem ipcDeliver_acts (value : Word) : Acts (.ipc e) s (ipcDeliver s cur e value) := by
  refine ⟨?_, rfl⟩
  rw [ipcDeliver, procs_log, procs_setEnv]
  have h₂ : (s.envs e).envPgdir.isSome = s.procs.live e := rfl
  have h₃ : (s.envs e).envLink = s.procs.link e := rfl
  simp only [h₂, h₃, Function.update_eq_self, Procs.act]

/-- `sys_ipc_try_send` fails, or completes a send to the receiver. -/
theorem sysIpcTrySend_acts {envid value srcva perm r : Word}
    (h : sysIpcTrySend s cur envid value srcva perm = .ok (r, s')) :
    Quiet s s' ∨ ∃ e, ipcSendArgs s cur envid = .ok e ∧
      (srcva < UTOP → ∃ s₁, ipcSendPage s cur e srcva perm = .ok (0, s₁)) ∧ Acts (.ipc e) s s' := by
  simp only [sysIpcTrySend] at h
  cases hargs : ipcSendArgs s cur envid with
  | error w => simp only [hargs] at h; cases h; exact .inl (.refl s)
  | ok e =>
    simp only [hargs] at h
    split_ifs at h with hva
    · obtain ⟨⟨r₁, s₁⟩, hpage, h⟩ := bind_eq_ok.mp h
      dsimp only at h
      split_ifs at h with hr
      · cases h; exact .inl (ipcSendPage_quiet hpage)
      · cases h
        rw [not_not.mp hr] at hpage
        exact .inr ⟨e, rfl, fun _ => ⟨s₁, hpage⟩,
          (ipcSendPage_quiet hpage).acts (ipcDeliver_acts value)⟩
    · cases h
      exact .inr ⟨e, rfl, fun h => absurd h hva, ipcDeliver_acts value⟩

/-- `env_setup_vm` gives the environment a directory, or does nothing. -/
theorem envSetupVm_procs {r : Word} (h : envSetupVm s e = .ok (r, s')) :
    r ≠ 0 ∧ MemOnly s s' ∨ r = 0 ∧
      s'.procs = { s.procs with live := Function.update s.procs.live e true } ∧
      s'.acts = s.acts := by
  obtain ⟨⟨o, m₁⟩, -, h⟩ := bind_eq_ok.mp h
  cases o with
  | none => cases h; exact .inl ⟨by decide, m₁, rfl⟩
  | some p =>
    obtain ⟨pgdir, -, h⟩ := bind_eq_ok.mp h
    cases h
    refine .inr ⟨rfl, ?_, rfl⟩
    have h₂ : (s.envs e).envStatus = s.procs.status e := rfl
    have h₃ : (s.envs e).envLink = s.procs.link e := rfl
    simp only [procs_setEnv, procs_mem, h₂, h₃, Function.update_eq_self, Option.isSome_some]

/-- `env_alloc` fails, or takes the first environment of the free list. -/
theorem envAlloc_procs {parentId : Word} {r : Except Word ℕ}
    (h : envAlloc s parentId = .ok (r, s')) :
    (∃ w, r = .error w) ∧ Quiet s s' ∨ ∃ e, r = .ok e ∧ s.envFreeList = some e ∧
      s'.procs = s.procs.act (.alloc e .runnable) ∧ s'.acts = s.acts := by
  rw [envAlloc] at h
  cases hfl : s.envFreeList with
  | none => simp only [hfl] at h; cases h; exact .inl ⟨⟨_, rfl⟩, .refl s⟩
  | some e =>
    simp only [hfl] at h
    obtain ⟨⟨r₁, s₁⟩, hvm, h⟩ := bind_eq_ok.mp h
    dsimp only at h
    split_ifs at h with hr
    · cases h
      rcases envSetupVm_procs hvm with ⟨-, hmem⟩ | ⟨h₀, -⟩
      · exact .inl ⟨⟨_, rfl⟩, hmem.quiet⟩
      · exact absurd h₀ hr
    · cases h
      rcases envSetupVm_procs hvm with ⟨h₀, -⟩ | ⟨-, hprocs, hacts⟩
      · exact absurd h₀ hr
      · refine .inr ⟨e, rfl, rfl, ?_, hacts⟩
        have hlive : (s₁.envs e).envPgdir.isSome = true := by
          simpa using congrFun (congrArg Procs.live hprocs) e
        have hlink : (s₁.envs e).envLink = s.procs.link e := congrFun (congrArg Procs.link hprocs) e
        simp only [procs_withFreeList, procs_setEnv, hprocs, KState.setEnv_envs_self, Env.renew,
          hlive, hlink,
          Function.update_eq_self, Function.update_idem, Procs.act]

/-- `sys_exofork` fails, or takes the first environment of the free list. -/
theorem sysExofork_acts {r : Word} (h : sysExofork s cur = .ok (r, s')) :
    Quiet s s' ∨ ∃ e, s.envFreeList = some e ∧ Acts (.alloc e .notRunnable) s s' := by
  obtain ⟨⟨r₁, s₁⟩, halloc, h⟩ := bind_eq_ok.mp h
  rcases envAlloc_procs halloc with ⟨⟨w, rfl⟩, hquiet⟩ | ⟨e, rfl, hfl, hprocs, hacts⟩
  · cases h; exact .inl hquiet
  · cases h
    refine .inr ⟨e, hfl, ?_⟩
    refine Acts.quiet ⟨?_, ?_⟩ (quiet_setEnv _ _ _ rfl rfl rfl)
    · simp only [procs_log, procs_setStatus, hprocs, Procs.act, Function.update_idem]
    · exact congrArg _ hacts

/-! ### `load_icode` -/

theorem regionAlloc_memOnly {va len : Word} (h : regionAlloc s e va len = .ok s') :
    MemOnly s s' := by
  obtain ⟨pgdir, -, h⟩ := bind_eq_ok.mp h
  obtain ⟨m, -, h⟩ := bind_eq_ok.mp h
  cases h; exact ⟨m, rfl⟩

theorem loadSegment_quiet {pgdir : ℕ} {elf : Elf} {ph : Proghdr}
    (h : loadSegment s e pgdir elf ph = .ok s') :
    Quiet s s' := by
  obtain ⟨s₁, hregion, h⟩ := bind_eq_ok.mp h
  obtain ⟨m₁, -, h⟩ := bind_eq_ok.mp h
  obtain ⟨m₂, -, h⟩ := bind_eq_ok.mp h
  cases h
  exact (regionAlloc_memOnly hregion).quiet.trans (quiet_mem s₁ m₂)

/-- `load_icode` changes memory, CR3 and `tf_eip`. -/
theorem loadIcode_quiet {elf : Elf} (h : loadIcode s c e elf = .ok s') : Quiet s s' := by
  rw [loadIcode] at h
  split_ifs at h
  obtain ⟨pgdir, -, h⟩ := bind_eq_ok.mp h
  obtain ⟨s₁, hloop, h⟩ := bind_eq_ok.mp h
  have h₁ : Quiet s s₁ := foldlM_invariant hloop (quiet_lcr3 s c pgdir)
    fun t t' ph _ ht hstep => ht.trans (loadSegment_quiet hstep)
  refine h₁.trans (Quiet.trans ?_ ((quiet_lcr3 _ c _).trans (regionAlloc_memOnly h).quiet))
  refine quiet_setEnv _ _ _ ?_ ?_ ?_ <;> rfl

/-- `env_create` takes the first environment of the free list. -/
theorem envCreate_acts {elf : Elf} (h : envCreate s c elf = .ok s') :
    ∃ e, s.envFreeList = some e ∧ Acts (.alloc e .runnable) s s' := by
  obtain ⟨⟨r, s₁⟩, halloc, h⟩ := bind_eq_ok.mp h
  rcases envAlloc_procs halloc with ⟨⟨w, rfl⟩, -⟩ | ⟨e, rfl, hfl, hprocs, hacts⟩
  · cases h
  · have hlog : Acts (.alloc e .runnable) s (s₁.log (.alloc e .runnable)) :=
      ⟨hprocs, congrArg _ hacts⟩
    exact ⟨e, hfl, hlog.quiet (loadIcode_quiet h)⟩

end JOS
