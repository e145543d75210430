import JOS.Kern.Machine
import JOS.General.Log

/-!
# The table of processes

What scheduling depends on: which environment each CPU runs, the status of each
environment, whether it has a page directory, and the list of free environments. A
`Procs` is that much of a kernel state, and `Procs.act` says what each `Act` does to
it. Every function of the kernel is described by the acts it performs; a function that
performs none is `Quiet`.
-/

namespace JOS

open JOS.General

/-- What scheduling depends on. -/
@[ext]
structure Procs where
  /-- `env_status`. -/
  status : ℕ → EnvStatus
  /-- Whether `env_pgdir` is not null. -/
  live : ℕ → Bool
  /-- `env_link`. -/
  link : ℕ → Option ℕ
  /-- `env_free_list`. -/
  freeList : Option ℕ
  /-- `curenv` of each CPU. -/
  curenv : ℕ → Option ℕ

/-- The process table of a kernel state. -/
def KState.procs (s : KState) : Procs where
  status := s.status
  live e := (s.envs e).envPgdir.isSome
  link e := (s.envs e).envLink
  freeList := s.envFreeList
  curenv := s.curenv

@[simp] theorem procs_status (s : KState) (e : ℕ) : s.procs.status e = s.status e := rfl

@[simp] theorem procs_curenv (s : KState) (c : ℕ) : s.procs.curenv c = s.curenv c := rfl

@[simp] theorem procs_live (s : KState) (e : ℕ) : s.procs.live e = (s.envs e).envPgdir.isSome := rfl

@[simp] theorem procs_link (s : KState) (e : ℕ) : s.procs.link e = (s.envs e).envLink := rfl

@[simp] theorem procs_freeList (s : KState) : s.procs.freeList = s.envFreeList := rfl

namespace Procs

open Function (update)

/-- The environment a CPU leaves is runnable again, if it was running. -/
def release (p : Procs) (c : ℕ) : ℕ → EnvStatus :=
  match p.curenv c with
  | some e => if p.status e = .running then update p.status e .runnable else p.status
  | none => p.status

theorem release_of_ne {p : Procs} {c e : ℕ} (h : p.curenv c ≠ some e) :
    p.release c e = p.status e := by
  rw [release]
  cases hc : p.curenv c with
  | none => rfl
  | some e₀ =>
    have hne : e ≠ e₀ := fun he => h (by rw [hc, he])
    dsimp only
    split_ifs
    · exact Function.update_of_ne hne _ _
    · rfl

theorem release_of_ne_running {p : Procs} {c e : ℕ} (h : p.status e ≠ .running) :
    p.release c e = p.status e := by
  rw [release]
  cases hc : p.curenv c with
  | none => rfl
  | some e₀ =>
    dsimp only
    split_ifs with hr
    · exact Function.update_of_ne (fun he => h (by rw [he, hr])) _ _
    · rfl

/-- What an act does. -/
def act (p : Procs) : Act → Procs
  | .alloc e st =>
    { p with status := update p.status e st, live := update p.live e true, freeList := p.link e }
  | .free _ e =>
    { p with
      status := update p.status e .free
      live := update p.live e false
      link := update p.link e p.freeList
      freeList := some e }
  | .zombie e => { p with status := update p.status e .dying }
  | .setStatus e st => { p with status := update p.status e st }
  | .ipc e => { p with status := update p.status e .runnable }
  | .block e => { p with status := update p.status e .notRunnable }
  | .clear c => { p with curenv := update p.curenv c none }
  | .run c e =>
    { p with status := update (p.release c) e .running, curenv := update p.curenv c (some e) }

end Procs

/-! ### What a function of the kernel does to the table -/

/-- Nothing that scheduling depends on has changed. -/
def Quiet (s s' : KState) : Prop := s'.procs = s.procs ∧ s'.acts = s.acts

/-- One act. -/
def Acts (a : Act) (s s' : KState) : Prop := s'.procs = s.procs.act a ∧ s'.acts = a :: s.acts

theorem Quiet.refl (s : KState) : Quiet s s := ⟨rfl, rfl⟩

theorem Quiet.trans {s s' s'' : KState} (h : Quiet s s') (h' : Quiet s' s'') : Quiet s s'' :=
  ⟨h'.1.trans h.1, h'.2.trans h.2⟩

theorem Acts.quiet {a : Act} {s s' s'' : KState} (h : Acts a s s') (h' : Quiet s' s'') :
    Acts a s s'' :=
  ⟨h'.1.trans h.1, h'.2.trans h.2⟩

theorem Quiet.acts {a : Act} {s s' s'' : KState} (h : Quiet s s') (h' : Acts a s' s'') :
    Acts a s s'' :=
  ⟨by rw [h'.1, h.1], by rw [h'.2, h.2]⟩

/-- Memory is not part of the table. -/
theorem procs_mem (s : KState) (m : Mem) : ({ s with mem := m } : KState).procs = s.procs := rfl

theorem procs_withFreeList (s : KState) (o : Option ℕ) :
    ({ s with envFreeList := o } : KState).procs = { s.procs with freeList := o } := rfl

theorem quiet_mem (s : KState) (m : Mem) : Quiet s { s with mem := m } := ⟨rfl, rfl⟩

open Function (update) in
/-- The table after an environment is overwritten. -/
theorem procs_setEnv (s : KState) (e : ℕ) (x : Env) : (s.setEnv e x).procs =
    { s.procs with
      status := update s.procs.status e x.envStatus
      live := update s.procs.live e x.envPgdir.isSome
      link := update s.procs.link e x.envLink } := by
  ext : 1 <;> try rfl
  all_goals
    funext e'
    simp only [KState.procs, KState.status, KState.setEnv, Function.update_apply]
    split_ifs <;> rfl

/-- The table after a CPU's record is overwritten. -/
theorem procs_setCpu (s : KState) (c : ℕ) (x : CpuInfo) : (s.setCpu c x).procs =
    { s.procs with curenv := Function.update s.procs.curenv c x.cpuEnv } := by
  ext : 1 <;> try rfl
  funext c'
  simp only [KState.procs, KState.curenv, KState.setCpu, Function.update_apply]
  split_ifs <;> rfl

/-- An environment's other fields are not part of the table. -/
theorem quiet_setEnv (s : KState) (e : ℕ) (x : Env) (hst : x.envStatus = (s.envs e).envStatus)
    (hlive : x.envPgdir.isSome = (s.envs e).envPgdir.isSome)
    (hlink : x.envLink = (s.envs e).envLink) :
    Quiet s (s.setEnv e x) := by
  refine ⟨?_, rfl⟩
  have h₁ : x.envStatus = s.procs.status e := hst
  have h₂ : x.envPgdir.isSome = s.procs.live e := hlive
  have h₃ : x.envLink = s.procs.link e := hlink
  rw [procs_setEnv, h₁, h₂, h₃]
  simp only [Function.update_eq_self]

/-- A CPU's other fields are not part of the table. -/
theorem quiet_setCpu (s : KState) (c : ℕ) (x : CpuInfo) (h : x.cpuEnv = (s.cpus c).cpuEnv) :
    Quiet s (s.setCpu c x) := by
  refine ⟨?_, rfl⟩
  have h : x.cpuEnv = s.procs.curenv c := h
  rw [procs_setCpu, h, Function.update_eq_self]

theorem quiet_lcr3 (s : KState) (c p : ℕ) : Quiet s (s.lcr3 c p) := quiet_setCpu s c _ rfl

theorem procs_log (s : KState) (a : Act) : (s.log a).procs = s.procs := rfl

/-- A change of status. -/
theorem procs_setStatus (s : KState) (e : ℕ) (st : EnvStatus) : (s.setStatus e st).procs =
    { s.procs with status := Function.update s.procs.status e st } := by
  have h₂ : (s.envs e).envPgdir.isSome = s.procs.live e := rfl
  have h₃ : (s.envs e).envLink = s.procs.link e := rfl
  rw [KState.setStatus, procs_setEnv, h₂, h₃]
  simp only [Function.update_eq_self]

theorem procs_setCurenv (s : KState) (c : ℕ) (o : Option ℕ) : (s.setCurenv c o).procs =
    { s.procs with curenv := Function.update s.procs.curenv c o } := procs_setCpu _ _ _

end JOS
