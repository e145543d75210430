import JOS.Sched.Entry

/-!
# The table of environments

The records of all environments, with `curenv` of each CPU, the head of the list of free
environments and the acts of the kernel entry. `Table.write` says what each `Write` of
the kernel does to it, field by field; the lemmas say which writes a function of the
kernel makes. `JOS.Sched.Procs` is the part of the table that scheduling depends on.
-/

namespace JOS

open JOS.General

open Function (update)

/-- The records of the environments, and who runs them. -/
@[ext]
structure Table where
  /-- The array `envs`. -/
  envs : ℕ → Env
  /-- `curenv` of each CPU. -/
  curenv : ℕ → Option ℕ
  /-- The head of the list of free environments. -/
  freeList : Option ℕ
  /-- What this kernel entry did, latest first. -/
  acts : List Act

/-- The table of a kernel state. -/
def KState.table (s : KState) : Table := ⟨s.envs, s.curenv, s.envFreeList, s.acts⟩

/-- What the kernel writes into the table. -/
inductive Write where
  /-- The registers of `e`. -/
  | frame (e : ℕ) (tf : Trapframe)
  /-- A new environment in slot `e`. -/
  | alloc (e : ℕ) (x : Env)
  /-- `env_free(e)` on CPU `c`. -/
  | free (c e : ℕ)
  /-- `e` becomes a zombie. -/
  | zombie (e : ℕ)
  /-- `sys_env_set_status`. -/
  | status (e : ℕ) (st : EnvStatus)
  /-- `sys_env_set_pgfault_upcall`. -/
  | upcall (e : ℕ) (func : Word)
  /-- `env_ipc_perm`. -/
  | perm (e : ℕ) (perm : Word)
  /-- A completed `sys_ipc_try_send` to `e`. -/
  | deliver (e : ℕ) (sender value : Word)
  /-- `sys_ipc_recv` by `e`. -/
  | recv (e : ℕ) (dstva : Word)
  /-- `curenv = NULL` on CPU `c`. -/
  | clear (c : ℕ)
  /-- `env_run(e)` on CPU `c`. -/
  | run (c e : ℕ)

namespace Table

/-- Overwrite `envs[e]`. -/
def setEnv (t : Table) (e : ℕ) (x : Env) : Table := { t with envs := update t.envs e x }

/-- Record an act. -/
def log (t : Table) (a : Act) : Table := { t with acts := a :: t.acts }

/-- The beginning of `env_run`. -/
def release (t : Table) (c : ℕ) : Table :=
  match t.curenv c with
  | some e =>
    if (t.envs e).envStatus = .running then t.setEnv e
      { t.envs e with envStatus := .runnable } else t
  | none => t

/-- What a write does. -/
def write (t : Table) : Write → Table
  | .frame e tf => t.setEnv e { t.envs e with envTf := tf }
  | .alloc e x => ({ t.setEnv e x with freeList := (t.envs e).envLink } : Table).log
      (.alloc e x.envStatus)
  | .free c e =>
    ({ t.setEnv e { t.envs e with envPgdir := none, envStatus := .free, envLink := t.freeList } with
      freeList := some e } : Table).log (.free c e)
  | .zombie e => (t.setEnv e { t.envs e with envStatus := .dying }).log (.zombie e)
  | .status e st => (t.setEnv e { t.envs e with envStatus := st }).log (.setStatus e st)
  | .upcall e func => t.setEnv e { t.envs e with envPgfaultUpcall := func }
  | .perm e perm => t.setEnv e { t.envs e with envIpcPerm := perm }
  | .deliver e sender value =>
    (t.setEnv e { t.envs e with
      envIpcRecving := false
      envIpcFrom := sender
      envIpcValue := value
      envStatus := .runnable
      envTf := { (t.envs e).envTf with
        tfRegs := { (t.envs e).envTf.tfRegs with regEax := 0 } } }).log (.ipc e)
  | .recv e dstva =>
    (t.setEnv e { t.envs e with
      envIpcRecving := true, envStatus := .notRunnable, envIpcDstva := dstva }).log (.block e)
  | .clear c => { t with curenv := update t.curenv c none }.log (.clear c)
  | .run c e =>
    let t := (t.log (.run c e)).release c
    { t.setEnv e { t.envs e with
      envStatus := .running, envRuns := (t.envs e).envRuns + 1, envCpunum := c } with
      curenv := update t.curenv c (some e) }

@[simp] theorem setEnv_envs_self (t : Table) (e : ℕ) (x : Env) : (t.setEnv e x).envs e = x :=
  Function.update_self _ _ _

theorem setEnv_envs_of_ne {t : Table} {e e' : ℕ} {x : Env} (h : e' ≠ e) :
    (t.setEnv e x).envs e' = t.envs e' :=
  Function.update_of_ne h _ _

@[simp] theorem log_envs (t : Table) (a : Act) : (t.log a).envs = t.envs := rfl

@[simp] theorem log_curenv (t : Table) (a : Act) : (t.log a).curenv = t.curenv := rfl

@[simp] theorem setEnv_curenv (t : Table) (e : ℕ) (x : Env) :
    (t.setEnv e x).curenv = t.curenv := rfl

@[simp] theorem release_curenv (t : Table) (c : ℕ) : (t.release c).curenv = t.curenv := by
  unfold release
  split
  · split_ifs <;> rfl
  · rfl

theorem release_freeList (t : Table) (c : ℕ) : (t.release c).freeList = t.freeList := by
  unfold release
  split
  · split_ifs <;> rfl
  · rfl

theorem release_acts (t : Table) (c : ℕ) : (t.release c).acts = t.acts := by
  unfold release
  split
  · split_ifs <;> rfl
  · rfl

/-- `env_run` takes a running environment from its CPU, and leaves all others alone. -/
theorem release_envs (t : Table) (c e : ℕ) : (t.release c).envs e =
    if t.curenv c = some e ∧ (t.envs e).envStatus = .running then
      { t.envs e with envStatus := .runnable }
    else t.envs e := by
  unfold release
  cases hc : t.curenv c with
  | none => simp
  | some e' =>
    dsimp only
    by_cases hee : e = e'
    · subst hee
      split_ifs <;> simp_all
    · have hne : ¬ (some e' = some e ∧ (t.envs e).envStatus = .running) :=
        fun h => hee (Option.some.inj h.1).symm
      rw [if_neg hne]
      split_ifs
      · exact setEnv_envs_of_ne hee
      · rfl

end Table

/-- The environment whose record a write is about. -/
def Write.env : Write → Option ℕ
  | .frame e _ => some e
  | .alloc e _ => some e
  | .free _ e => some e
  | .zombie e => some e
  | .status e _ => some e
  | .upcall e _ => some e
  | .perm e _ => some e
  | .deliver e _ _ => some e
  | .recv e _ => some e
  | .clear _ => none
  | .run _ e => some e

namespace Table

/-- What `env_run` leaves of the other records. -/
theorem write_run_of_ne {t : Table} {c e e' : ℕ} (h : e' ≠ e) : (t.write (.run c e)).envs e' =
    if t.curenv c = some e' ∧ (t.envs e').envStatus = .running then
      { t.envs e' with envStatus := .runnable }
    else t.envs e' :=
  (setEnv_envs_of_ne h).trans (release_envs _ _ _)

@[simp] theorem write_run_curenv (t : Table) (c e : ℕ) :
    (t.write (.run c e)).curenv = update t.curenv c (some e) := by
  rw [write]
  dsimp only
  rw [release_curenv, log_curenv]

@[simp] theorem write_run_freeList (t : Table) (c e : ℕ) :
    (t.write (.run c e)).freeList = t.freeList :=
  release_freeList _ _

@[simp] theorem write_run_acts (t : Table) (c e : ℕ) :
    (t.write (.run c e)).acts = .run c e :: t.acts :=
  release_acts _ _

/-- A write adds an act, or none. -/
theorem mem_acts_write {t : Table} {w : Write} {a : Act} (h : a ∈ t.acts) :
    a ∈ (t.write w).acts := by
  cases w with
  | run c e =>
    rw [write_run_acts]
    exact List.mem_cons_of_mem _ h
  | frame e tf => exact h
  | upcall e func => exact h
  | perm e perm => exact h
  | _ => exact List.mem_cons_of_mem _ h

/-- A write leaves other records alone, but for the status that `env_run` takes away. -/
theorem write_envs_of_ne {t : Table} {w : Write} {e : ℕ} (h : w.env ≠ some e) :
    (t.write w).envs e = t.envs e ∨
    ∃ c e', w = .run c e' ∧ t.curenv c = some e ∧ (t.envs e).envStatus = .running ∧
      (t.write w).envs e = { t.envs e with envStatus := .runnable } := by
  have hne : ∀ e', w.env = some e' → e ≠ e' := by
    rintro e' he rfl
    exact h he
  cases w with
  | clear c => exact .inl rfl
  | run c e' =>
    rw [write_run_of_ne (hne e' rfl)]
    by_cases hr : t.curenv c = some e ∧ (t.envs e).envStatus = .running
    · rw [if_pos hr]
      exact .inr ⟨c, e', rfl, hr.1, hr.2, rfl⟩
    · rw [if_neg hr]
      exact .inl rfl
  | _ => exact .inl (setEnv_envs_of_ne (hne _ rfl))

/-- What `env_run` writes into the environment it runs. -/
theorem write_run_self (t : Table) (c e : ℕ) : (t.write (.run c e)).envs e =
    { t.envs e with envStatus := .running, envRuns := (t.envs e).envRuns + 1, envCpunum := c } := by
  have hrel : ((t.log (.run c e)).release c).envs e = t.envs e ∨
      ((t.log (.run c e)).release c).envs e = { t.envs e with envStatus := .runnable } := by
    rw [release_envs]
    split_ifs
    · exact .inr rfl
    · exact .inl rfl
  rw [write]
  dsimp only
  rw [setEnv_envs_self]
  rcases hrel with h | h <;> rw [h]

/-- Only `env_run` and `curenv = NULL` change what the CPUs run, each on its own CPU. -/
theorem write_curenv_of_ne {t : Table} {w : Write} {c : ℕ} (hclear : w ≠ .clear c)
    (hrun : ∀ e, w ≠ .run c e) :
    (t.write w).curenv c = t.curenv c := by
  cases w with
  | clear c' => exact Function.update_of_ne (fun h : c = c' => hclear (by rw [h])) _ _
  | run c' e =>
    rw [write_run_curenv]
    exact Function.update_of_ne (fun h : c = c' => hrun e (by rw [h])) _ _
  | _ => rfl

/-- A CPU runs what it ran before, or what the write is about. -/
theorem curenv_of_write {t : Table} {w : Write} {c e : ℕ} (h : (t.write w).curenv c = some e)
    (he : w.env ≠ some e) :
    t.curenv c = some e := by
  by_cases hclear : w = .clear c
  · rw [hclear] at h
    simp [Table.write] at h
  by_cases hrun : ∃ e', w = .run c e'
  · obtain ⟨e', rfl⟩ := hrun
    have hself : some e' = some e := by simpa [Table.write] using h
    exact absurd hself he
  · rwa [write_curenv_of_ne hclear fun e' h' => hrun ⟨e', h'⟩] at h

end Table

variable {s s' s₁ s₂ : KState} {c cur e : ℕ}

theorem table_setEnv (s : KState) (e : ℕ) (x : Env) :
    (s.setEnv e x).table = s.table.setEnv e x := rfl

theorem table_log (s : KState) (a : Act) : (s.log a).table = s.table.log a := rfl

theorem table_mem (s : KState) (m : Mem) : ({ s with mem := m } : KState).table = s.table := rfl

theorem MemOnly.table (h : MemOnly s s') : s'.table = s.table := by
  obtain ⟨m, rfl⟩ := h
  rfl

/-- The table after a CPU's record is overwritten. -/
theorem table_setCpu (s : KState) (c : ℕ) (x : CpuInfo) :
    (s.setCpu c x).table = { s.table with curenv := update s.curenv c x.cpuEnv } := by
  ext : 1 <;> try rfl
  funext c'
  simp only [KState.table, KState.curenv, KState.setCpu, Function.update_apply]
  split_ifs <;> rfl

/-- Only `curenv` is in the table. -/
theorem table_setCpu_same {x : CpuInfo} (h : x.cpuEnv = (s.cpus c).cpuEnv) :
    (s.setCpu c x).table = s.table := by
  have h : x.cpuEnv = s.curenv c := h
  rw [table_setCpu, h, Function.update_eq_self]
  rfl

theorem table_lcr3 (s : KState) (c p : ℕ) : (s.lcr3 c p).table = s.table := table_setCpu_same rfl

/-! ### `env_run` and `sched_yield` -/

theorem table_release (s : KState) (c : ℕ) : (release s c).table = s.table.release c := by
  rw [release, Table.release, show s.table.curenv c = s.curenv c from rfl]
  cases s.curenv c with
  | none => rfl
  | some e =>
    dsimp only
    rw [show (s.table.envs e).envStatus = s.status e from rfl]
    split_ifs <;> rfl

theorem envRun_writes (h : envRun s c e = .gone s') : s'.table = s.table.write (.run c e) := by
  have hrel := table_release (s.log (.run c e)) c
  rw [envRun] at h
  generalize release (s.log (.run c e)) c = s₁ at h hrel
  have hcur : (s₁.setCurenv c (some e)).table =
    { s₁.table with curenv := update s₁.curenv c (some e) } :=
    table_setCpu _ _ _
  generalize hs₂ : s₁.setCurenv c (some e) = s₂ at h hcur
  have henvs : s₂.envs = s₁.envs := congrArg Table.envs hcur
  split at h
  · cases h
  · cases h
    rename_i pgdir _
    rw [table_setEnv, table_lcr3, table_setEnv, hcur, Table.write, ← table_log, ← hrel]
    ext : 1
    · simp only [Table.setEnv, KState.setEnv, henvs, KState.table, Function.update_self,
        Function.update_idem]
    · rfl
    · rfl
    · rfl

theorem schedHalt_writes (h : schedHalt s c = .gone s') : s'.table = s.table.write (.clear c) := by
  rw [schedHalt] at h
  split_ifs at h
  cases h
  rw [table_log, table_setCpu]
  rfl

/-- How an entry into the kernel ends on CPU `c`. -/
def Schedules (c : ℕ) (t : Table) : Write → Prop
  | .run c' e => c' = c ∧ ((t.envs e).envStatus = .runnable ∨ t.curenv c = some e ∧
    (t.envs e).envStatus = .running)
  | .clear c' => c' = c ∧ ∀ e, t.curenv c = some e → (t.envs e).envStatus ≠ .running
  | _ => False

theorem schedYield_writes (h : schedYield s c = .gone s') : ∃ w, s'.table = s.table.write w ∧
    Schedules c s.table w := by
  rcases schedYield_cases h with ⟨e, hn, h⟩ | ⟨-, e, hc, hr, h⟩ | ⟨-, hr, h⟩
  · exact ⟨_, envRun_writes h, rfl, .inl (nextRunnable_runnable hn)⟩
  · exact ⟨_, envRun_writes h, rfl, .inr ⟨hc, hr⟩⟩
  · exact ⟨_, schedHalt_writes h, rfl, hr⟩

theorem trapReturn_writes (h : trapReturn s c = .gone s') : ∃ w, s'.table = s.table.write w ∧
    Schedules c s.table w := by
  rcases trapReturn_cases h with ⟨e, hc, hr, h⟩ | h
  · exact ⟨_, envRun_writes h, rfl, .inr ⟨hc, hr⟩⟩
  · exact schedYield_writes h

/-! ### `env_free` and `env_destroy` -/

theorem envFree_writes (h : envFree s c e = .ok s') : s'.table = s.table.write (.free c e) := by
  simp only [envFree, bind_eq_ok, pure_eq_ok, Except.ok.injEq] at h
  obtain ⟨pgdir, -, m, -, rfl⟩ := h
  have hlcr3 : (if (s.log (.free c e)).curenv c = some e then
      (s.log (.free c e)).lcr3 c (s.log (.free c e)).mem.kernPgdir else s.log (.free c e)).table =
        s.table.log (.free c e) := by
    split_ifs
    · exact table_lcr3 _ _ _
    · rfl
  generalize (if (s.log (.free c e)).curenv c = some e then
    (s.log (.free c e)).lcr3 c (s.log (.free c e)).mem.kernPgdir else s.log (.free c e)) =
      s₁ at hlcr3 ⊢
  have h₁ : s₁.envs = s.envs := congrArg Table.envs hlcr3
  have h₂ : s₁.curenv = s.curenv := congrArg Table.curenv hlcr3
  have h₃ : s₁.envFreeList = s.envFreeList := congrArg Table.freeList hlcr3
  have h₄ : s₁.acts = .free c e :: s.acts := congrArg Table.acts hlcr3
  ext : 1
  · simp only [KState.table, KState.setEnv, Table.write, Table.log, Table.setEnv, h₁, h₃]
  · exact h₂
  · rfl
  · exact h₄

/-- `env_destroy` that comes back. -/
theorem envDestroy_writes (h : envDestroy s c e = .ok s') :
    s.curenv c ≠ some e ∧ (s.status e = .running ∧ s'.table = s.table.write (.zombie e) ∨
      s'.table = s.table.write (.free c e)) := by
  obtain ⟨hc, ⟨hr, rfl⟩ | ⟨-, hfree⟩⟩ := envDestroy_ok h
  · exact ⟨hc, .inl ⟨hr, rfl⟩⟩
  · exact ⟨hc, .inr (envFree_writes hfree)⟩

/-- What a CPU writes that frees the environment it runs and leaves the kernel. -/
def Leaves (c e : ℕ) (t t' : Table) : Prop :=
  ∃ w, t' = ((t.write (.free c e)).write (.clear c)).write w ∧
    Schedules c ((t.write (.free c e)).write (.clear c)) w

theorem leaves_of_envFree (hfree : envFree s c e = .ok s₁)
    (h : schedYield ((s₁.setCurenv c none).log (.clear c)) c = .gone s') :
    Leaves c e s.table s'.table := by
  obtain ⟨w, hw, hsched⟩ := schedYield_writes h
  have hcur : (s₁.setCurenv c none).table = { s₁.table with curenv := update s₁.curenv c none } :=
    table_setCpu _ _ _
  have ht : ((s₁.setCurenv c none).log (.clear c)).table = (s.table.write (.free c e)).write
      (.clear c) := by
    rw [table_log, hcur, ← envFree_writes hfree]
    rfl
  rw [ht] at hw hsched
  exact ⟨w, hw, hsched⟩

/-- `env_destroy` that does not come back. -/
theorem envDestroy_leaves (h : envDestroy s c e = .error (.gone s')) :
    s.curenv c = some e ∧ Leaves c e s.table s'.table := by
  obtain ⟨hc, s₁, hfree, h⟩ := envDestroy_gone h
  exact ⟨hc, leaves_of_envFree hfree h⟩

/-- The environment that a CPU has freed is not the one that it runs next. -/
theorem Leaves.curenv_ne {τ τ' : Table} (h : Leaves c e τ τ') : τ'.curenv c ≠ some e := by
  obtain ⟨w, rfl, hsched⟩ := h
  have hnone : ((τ.write (.free c e)).write (.clear c)).curenv c = none :=
    Function.update_self _ _ _
  have hfree : (((τ.write (.free c e)).write (.clear c)).envs e).envStatus = .free := by
    simp [Table.write, Table.log, Table.setEnv]
  intro hcur
  by_cases hw : w.env = some e
  · cases w with
    | run c' e' =>
      cases hw
      rcases hsched.2 with hr | ⟨hr, -⟩
      · rw [hfree] at hr
        cases hr
      · rw [hnone] at hr
        cases hr
    | clear c' => cases hw
    | _ => exact hsched
  · rw [Table.curenv_of_write hcur hw] at hnone
    cases hnone

/-! ### New environments -/

/-- A record that `env_alloc` makes of the record of slot `e`, with the registers and the status its
caller then gives it. -/
def Env.Made (x : Env) (e : ℕ) (parentId : Word) (st : EnvStatus) (x' : Env) : Prop :=
  ∃ pgdir tf, x' = { x.renew e parentId with envPgdir := some pgdir, envStatus := st, envTf := tf }

theorem envSetupVm_writes {r : Word} (h : envSetupVm s e = .ok (r, s')) :
    r ≠ 0 ∧ s'.table = s.table ∨
      r = 0 ∧ ∃ pgdir, s'.table = s.table.setEnv e { s.envs e with envPgdir := some pgdir } := by
  obtain ⟨⟨o, m₁⟩, -, h⟩ := bind_eq_ok.mp h
  cases o with
  | none =>
    cases h
    exact .inl ⟨by decide, rfl⟩
  | some p =>
    obtain ⟨pgdir, -, h⟩ := bind_eq_ok.mp h
    cases h
    exact .inr ⟨rfl, pgdir, rfl⟩

/-- `env_alloc` fails, or fills the first free slot. -/
theorem envAlloc_writes {parentId : Word} {r : Except Word ℕ}
    (h : envAlloc s parentId = .ok (r, s')) :
    (∃ w, r = .error w) ∧ s'.table = s.table ∨ ∃ e x, r = .ok e ∧ s.envFreeList = some e ∧
      (s.envs e).Made e parentId .runnable x ∧ x.envTf.tfEflags = FL_IF ∧
      s'.table = { s.table.setEnv e x with freeList := (s.envs e).envLink } := by
  rw [envAlloc] at h
  cases hfl : s.envFreeList with
  | none =>
    simp only [hfl] at h
    cases h
    exact .inl ⟨⟨_, rfl⟩, rfl⟩
  | some e =>
    simp only [hfl] at h
    obtain ⟨⟨r₁, s₁⟩, hvm, h⟩ := bind_eq_ok.mp h
    dsimp only at h
    rcases envSetupVm_writes hvm with ⟨hr, ht⟩ | ⟨hr, pgdir, ht⟩
    · rw [if_pos hr] at h
      cases h
      exact .inl ⟨⟨_, rfl⟩, ht⟩
    · rw [if_neg (not_not.mpr hr)] at h
      cases h
      have henvs : s₁.envs = update s.envs e { s.envs e with envPgdir := some pgdir } :=
        congrArg Table.envs ht
      have hcur : s₁.curenv = s.curenv := congrArg Table.curenv ht
      have hacts : s₁.acts = s.acts := congrArg Table.acts ht
      refine .inr ⟨e, (s₁.envs e).renew e parentId, rfl, rfl, ⟨pgdir, .fresh, ?_⟩, rfl, ?_⟩
      · rw [henvs, Function.update_self]
        rfl
      · ext : 1
        · simp only [KState.table, KState.setEnv, Table.setEnv, henvs, Function.update_self,
            Function.update_idem]
        · exact hcur
        · simp only [KState.table, KState.setEnv, henvs, Function.update_self, Env.renew]
        · exact hacts

/-- `sys_exofork` fails, or makes a child. -/
theorem sysExofork_writes {r : Word} (h : sysExofork s cur = .ok (r, s')) :
    s'.table = s.table ∨ ∃ e x, s.envFreeList = some e ∧
      (s.envs e).Made e (s.envs cur).envId .notRunnable x ∧
      (x.envTf.tfEflags = FL_IF ∨ x.envTf.tfEflags = (s.envs cur).envTf.tfEflags) ∧
      s'.table = s.table.write (.alloc e x) := by
  obtain ⟨⟨r₁, s₁⟩, halloc, h⟩ := bind_eq_ok.mp h
  rcases envAlloc_writes halloc with ⟨⟨w, rfl⟩, ht⟩ | ⟨e, x, rfl, hfl, ⟨pgdir, tf, rfl⟩, hfresh, ht⟩
  · cases h
    exact .inl ht
  · have henvs : s₁.envs = _ := congrArg Table.envs ht
    -- the registers of the parent, with `eax` 0
    let ptf := ((s₁.setStatus e .notRunnable).envs cur).envTf
    let ctf : Trapframe := { ptf with tfRegs := { ptf.tfRegs with regEax := 0 } }
    have hflags : ctf.tfEflags = FL_IF ∨ ctf.tfEflags = (s.envs cur).envTf.tfEflags := by
      by_cases hce : cur = e
      · subst hce
        have hp : ctf.tfEflags = tf.tfEflags := by
          simp [ctf, ptf, KState.setStatus, henvs, Table.setEnv]
        exact .inl (hp.trans hfresh)
      · have hp : ctf.tfEflags = (s.envs cur).envTf.tfEflags := by
          simp [ctf, ptf, KState.setStatus, KState.setEnv, henvs, Table.setEnv, KState.table,
            Function.update_of_ne hce]
        exact .inr hp
    have hchild : s'.table =
        (s₁.table.setEnv e { s₁.envs e with envStatus := .notRunnable, envTf := ctf }).log
            (.alloc e .notRunnable) := by
      cases h
      ext : 1 <;> try rfl
      simp only [KState.table, KState.setEnv, KState.setStatus, KState.log, Table.setEnv, Table.log,
        Function.update_self, Function.update_idem, ptf, ctf]
    refine .inr ⟨e, _, hfl, ⟨pgdir, ctf, rfl⟩, hflags, ?_⟩
    rw [hchild, ht, henvs]
    ext : 1 <;> try rfl
    simp only [Table.write, Table.setEnv, Table.log, KState.table, Function.update_self,
      Function.update_idem]

/-- `load_icode` gives the environment its entry point. -/
theorem loadIcode_writes {elf : Elf} (h : loadIcode s c e elf = .ok s') :
    s'.table = s.table.write (.frame e { (s.envs e).envTf with tfEip := elf.eEntry }) := by
  rw [loadIcode] at h
  split_ifs at h
  obtain ⟨pgdir, -, h⟩ := bind_eq_ok.mp h
  obtain ⟨s₁, hloop, h⟩ := bind_eq_ok.mp h
  have h₁ : s₁.table = s.table := by
    refine foldlM_invariant (I := fun t : KState => t.table = s.table) hloop (table_lcr3 s c pgdir)
      fun t t' ph _ ht hstep => ?_
    obtain ⟨s₂, hregion, hstep⟩ := bind_eq_ok.mp hstep
    obtain ⟨m₁, -, hstep⟩ := bind_eq_ok.mp hstep
    obtain ⟨m₂, -, hstep⟩ := bind_eq_ok.mp hstep
    cases hstep
    exact ((regionAlloc_memOnly hregion).table).trans ht
  rw [(regionAlloc_memOnly h).table, table_lcr3, table_setEnv, h₁, Table.write]
  rw [show s₁.envs = s.envs from congrArg Table.envs h₁]
  rfl

/-- `env_create` makes an environment without parent. -/
theorem envCreate_writes {elf : Elf} (h : envCreate s c elf = .ok s') :
    ∃ e x, s.envFreeList = some e ∧ (s.envs e).Made e 0 .runnable x ∧ x.envTf.tfEflags = FL_IF ∧
      s'.table = s.table.write (.alloc e x) := by
  obtain ⟨⟨r, s₁⟩, halloc, h⟩ := bind_eq_ok.mp h
  rcases envAlloc_writes halloc with ⟨⟨w, rfl⟩, -⟩ | ⟨e, x, rfl, hfl, ⟨pgdir, tf, rfl⟩, hfresh, ht⟩
  · cases h
  · have h₁ := loadIcode_writes h
    have h₂ : s₁.envs = _ := congrArg Table.envs ht
    refine ⟨e, _, hfl, ⟨pgdir, { tf with tfEip := elf.eEntry }, rfl⟩, hfresh, h₁.trans ?_⟩
    rw [table_log, ht]
    ext : 1
    · simp only [Table.write, Table.setEnv, Table.log, KState.log, h₂, Function.update_self,
        Function.update_idem]
    · rfl
    · rfl
    · rfl

/-! ### IPC -/

/-- The page transfer of `sys_ipc_try_send`. -/
theorem ipcSendPage_writes {srcva perm r : Word}
    (h : ipcSendPage s cur e srcva perm = .ok (r, s')) :
    s'.table = s.table ∨ r = 0 ∧ s'.table = s.table.write (.perm e perm) := by
  simp only [ipcSendPage] at h
  obtain ⟨pgdir, -, h⟩ := bind_eq_ok.mp h
  obtain ⟨o, -, h⟩ := bind_eq_ok.mp h
  cases o with
  | none => cases h; exact .inl rfl
  | some x =>
    obtain ⟨pg, pte⟩ := x
    dsimp only at h
    split_ifs at h
    · cases h; exact .inl rfl
    · obtain ⟨dst, -, h⟩ := bind_eq_ok.mp h
      obtain ⟨⟨flag, m⟩, -, h⟩ := bind_eq_ok.mp h
      dsimp only at h
      split_ifs at h
      · cases h; exact .inl rfl
      · cases h; exact .inr ⟨rfl, rfl⟩
    · cases h; exact .inl rfl

/-- `sys_ipc_try_send` fails, or delivers a message to the receiver. -/
theorem sysIpcTrySend_writes {envid value srcva perm r : Word}
    (h : sysIpcTrySend s cur envid value srcva perm = .ok (r, s')) :
    s'.table = s.table ∨ ∃ e t, ipcSendArgs s cur envid = .ok e ∧
      (srcva < UTOP → ∃ s₁, ipcSendPage s cur e srcva perm = .ok (0, s₁)) ∧
      (t = s.table ∨ t = s.table.write (.perm e perm)) ∧
      s'.table = t.write (.deliver e (s.envs cur).envId value) := by
  simp only [sysIpcTrySend] at h
  cases hargs : ipcSendArgs s cur envid with
  | error w =>
    simp only [hargs] at h
    cases h
    exact .inl rfl
  | ok e =>
    simp only [hargs] at h
    split_ifs at h with hva
    · obtain ⟨⟨r₁, s₁⟩, hpage, h⟩ := bind_eq_ok.mp h
      dsimp only at h
      split_ifs at h with hr
      · cases h
        rcases ipcSendPage_writes hpage with ht | ⟨hr₁, -⟩
        · exact .inl ht
        · exact absurd hr₁ hr
      · cases h
        rw [not_not.mp hr] at hpage
        have ht : s₁.table = s.table ∨ s₁.table = s.table.write (.perm e perm) :=
          (ipcSendPage_writes hpage).imp_right And.right
        have hid : (s₁.envs cur).envId = (s.envs cur).envId := by
          rcases ht with ht | ht
          · exact congrArg (fun t : Table => (t.envs cur).envId) ht
          · refine (congrArg (fun t : Table => (t.envs cur).envId) ht).trans ?_
            by_cases hce : cur = e
            · subst hce
              simp [Table.write, KState.table]
            · exact congrArg Env.envId (Table.setEnv_envs_of_ne hce)
        exact .inr ⟨e, s₁.table, rfl, fun _ => ⟨s₁, hpage⟩, ht, by rw [← hid]; rfl⟩
    · cases h
      exact .inr ⟨e, s.table, rfl, fun h => absurd h hva, .inl rfl, rfl⟩

end JOS
