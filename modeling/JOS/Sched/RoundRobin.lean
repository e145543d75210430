import JOS.Envs.Ids
import JOS.Ipc.Blocked
import JOS.Sched.Kill
import JOS.General.Ring

/-!
# Round robin

`sched_yield` takes up its circular scan behind the environment the CPU was running. On
one CPU no slot is dispatched a second time before an environment that has been ready
since the first time (`dispatched_between`), as long as the environments the CPU runs are
not destroyed: then `curenv` is null, and the scan begins at slot 0 again.
-/

namespace JOS

open JOS.General

open Function (update)

variable {s₀ s s' s₁ s₂ s₃ : KState} {ev ev' : Event} {c e i p q w : ℕ} {t : Table}
  {l : List (KState × Event)}

/-! ### One CPU -/

/-- Only CPU `c` runs environments, and these are in the slots of `envs` that their ids say. -/
structure Single (c : ℕ) (t : Table) : Prop where
  /-- No other CPU runs an environment. -/
  only : ∀ c' e, t.curenv c' = some e → c' = c
  /-- What is running runs on the CPU. -/
  running : ∀ e, (t.envs e).envStatus = .running → t.curenv c = some e
  /-- The id of an environment has its slot in the low bits. -/
  id : ∀ e, (t.envs e).envStatus ≠ .free ∨ t.curenv c = some e → ENVX (t.envs e).envId = e
  /-- The first free slot is one. -/
  head : ∀ e, t.freeList = some e → e < NENV
  /-- So is the slot behind a slot. -/
  link : ∀ e < NENV, ∀ e', (t.envs e).envLink = some e' → e' < NENV

theorem Single.lt (h : Single c t) (he : (t.envs e).envStatus ≠ .free ∨ t.curenv c = some e) :
    e < NENV := by
  rw [← h.id e he]
  exact ENVX_lt _

/-- `envid2env` gives the caller, or the slot in the id. -/
theorem envid2env_slot {cur : ℕ} {envid : Word} {checkperm : Bool}
    (h : envid2env s cur envid checkperm = some e) :
    e = cur ∨ e = ENVX envid := by
  simp only [envid2env] at h
  split_ifs at h with h₀ h₁
  · exact .inl (Option.some.inj h).symm
  · exact .inr (Option.some.inj h).symm

/-- What is freed is in a slot. -/
theorem Single.free_lt (h₀ : Single c s.table) (he : s.curenv c = some e ∨ Destroys s ev c e) :
    e < NENV := by
  rcases he with he | ⟨cur, a, s₁, ⟨trap, -, hcur, -⟩, -, henv⟩
  · exact h₀.lt (.inr he)
  · rcases envid2env_slot henv with rfl | rfl
    · exact h₀.lt (.inr hcur)
    · exact ENVX_lt _

/-- A record is overwritten. -/
theorem Single.set {x : Env} (h : Single c t)
    (hrunning : x.envStatus = .running → t.curenv c = some e)
    (hid : x.envStatus ≠ .free ∨ t.curenv c = some e → ENVX x.envId = e)
    (hlink : e < NENV → ∀ e', x.envLink = some e' → e' < NENV) : Single c (t.setEnv e x) := by
  refine ⟨h.only, fun e' he' => ?_, fun e' he' => ?_, h.head, fun e' hlt e'' he' => ?_⟩ <;>
    by_cases hee : e' = e
  · subst hee
    rw [Table.setEnv_envs_self] at he'
    exact hrunning he'
  · rw [Table.setEnv_envs_of_ne hee] at he'
    exact h.running e' he'
  · subst hee
    rw [Table.setEnv_envs_self] at he' ⊢
    exact hid he'
  · rw [Table.setEnv_envs_of_ne hee] at he' ⊢
    exact h.id e' he'
  · subst hee
    rw [Table.setEnv_envs_self] at he'
    exact hlink hlt e'' he'
  · rw [Table.setEnv_envs_of_ne hee] at he'
    exact h.link e' hlt e'' he'

/-- A record gets another status, or none of this changes. -/
theorem Single.setStatus {x : Env} (h : Single c t) (hid : x.envId = (t.envs e).envId)
    (hlink : x.envLink = (t.envs e).envLink)
    (hrunning : x.envStatus = .running → t.curenv c = some e)
    (hlive : x.envStatus ≠ .free → (t.envs e).envStatus ≠ .free ∨ t.curenv c = some e) :
    Single c (t.setEnv e x) :=
  h.set hrunning (fun he => hid ▸ h.id e (he.elim hlive .inr)) fun hlt => hlink ▸ h.link e hlt

theorem Single.log {a : Act} (h : Single c t) : Single c (t.log a) :=
  ⟨h.only, h.running, h.id, h.head, h.link⟩

/-- The list of free environments begins with another slot. -/
theorem Single.setFreeList {o : Option ℕ} (h : Single c t) (ho : ∀ e, o = some e → e < NENV) :
    Single c { t with freeList := o } := ⟨h.only, h.running, h.id, ho, h.link⟩

/-- Every write that is allowed keeps the table so. -/
theorem Single.write {w : Write} (h₀ : Single c s.table) (h : Single c t)
    (hw : Allowed s ev c t w) :
    Single c (t.write w) := by
  cases w with
  | frame e tf => exact h.setStatus rfl rfl (h.running e) .inl
  | upcall e func => exact h.setStatus rfl rfl (h.running e) .inl
  | perm e perm => exact h.setStatus rfl rfl (h.running e) .inl
  | zombie e =>
    refine Single.log (h.setStatus rfl rfl (fun hst => by cases hst) fun _ => .inl fun hst => ?_)
    rw [hw.1] at hst
    cases hst
  | status e st =>
    obtain ⟨hsets, htarget⟩ := hw
    refine Single.log (h.setStatus rfl rfl (fun hst => ?_) fun _ => htarget.symm)
    dsimp only at hst
    subst hst
    rcases hsets.status with hst | hst <;> cases hst
  | deliver e sender value =>
    exact Single.log (h.setStatus rfl rfl (fun hst => by cases hst) fun _ => hw.2.2.symm)
  | recv e dstva =>
    obtain ⟨hb, trap, -, hrec⟩ := hw
    refine Single.log (h.set (fun hst => by cases hst) (fun _ => ?_) (h.link e))
    rw [hrec]
    exact h₀.id e (.inr hb.curenv)
  | alloc e x =>
    obtain ⟨hhead, ⟨parentId, st, ⟨pgdir, tf, rfl⟩, hst⟩, -⟩ := hw
    have hlt : e < NENV := h₀.head e hhead
    refine Single.log (Single.setFreeList
      (h.set (fun hrunning => ?_) (fun _ => ENVX_nextEnvId _ hlt) (h.link e)) (h.link e hlt))
    dsimp only at hrunning
    subst hrunning
    rcases hst with hst | hst <;> cases hst
  | free c' e =>
    obtain ⟨rfl, he⟩ := hw
    have hlt : e < NENV := h₀.free_lt he
    refine Single.log (Single.setFreeList (h.set (fun hst => by cases hst) (fun hlive => ?_)
      fun _ => h.head) fun e' he' => ?_)
    · exact h.id e (.inr (hlive.resolve_left fun hst => hst rfl))
    · cases he'
      exact hlt
  | clear c' =>
    obtain ⟨rfl, hidle⟩ := hw
    have hcur : ∀ c₁ e, (t.write (.clear c')).curenv c₁ = some e → t.curenv c₁ = some e ∧
        c₁ ≠ c' := by
      intro c₁ e he
      simp only [Table.write, Table.log_curenv, Function.update_apply] at he
      split_ifs at he with hc
      exact ⟨he, hc⟩
    refine ⟨fun c₁ e he => h.only c₁ e (hcur c₁ e he).1, fun e he => ?_, fun e he => ?_,
      h.head, h.link⟩
    · exact absurd he (hidle e (h.running e he))
    · exact h.id e (he.imp_right fun he => (hcur c' e he).1)
  | run c' e =>
    obtain ⟨rfl, hst⟩ := hw
    have hlive : (t.envs e).envStatus ≠ .free ∨ t.curenv c' = some e := by
      rcases hst with hst | ⟨hcur, -⟩
      · left
        rw [hst]
        simp
      · exact .inr hcur
    refine ⟨fun c₁ e' he' => ?_, fun e' he' => ?_, fun e' he' => ?_, ?_, fun e' hlt e'' he' => ?_⟩
    · rw [Table.write_run_curenv, Function.update_apply] at he'
      split_ifs at he' with hc
      · exact hc
      · exact h.only c₁ e' he'
    · by_cases hee : e' = e
      · rw [hee, Table.write_run_curenv, Function.update_self]
      · -- what was running before is runnable now
        rw [Table.write_run_of_ne hee] at he'
        by_cases hr : t.curenv c' = some e' ∧ (t.envs e').envStatus = .running
        · rw [if_pos hr] at he'
          cases he'
        · rw [if_neg hr] at he'
          exact absurd ⟨h.running e' he', he'⟩ hr
    · by_cases hee : e' = e
      · rw [hee, Table.write_run_self]
        exact h.id e hlive
      · rw [Table.write_run_curenv, Function.update_self] at he'
        have hfree := he'.resolve_right fun heq => hee (Option.some.inj heq).symm
        rw [Table.write_run_of_ne hee] at hfree ⊢
        by_cases hr : t.curenv c' = some e' ∧ (t.envs e').envStatus = .running
        · rw [if_pos hr]
          exact h.id e' (.inr hr.1)
        · rw [if_neg hr] at hfree ⊢
          exact h.id e' (.inl hfree)
    · rw [Table.write_run_freeList]
      exact h.head
    · by_cases hee : e' = e
      · rw [hee] at hlt he'
        rw [Table.write_run_self] at he'
        exact h.link e hlt e'' he'
      · rw [Table.write_run_of_ne hee] at he'
        split_ifs at he' <;> exact h.link e' hlt e'' he'

theorem Booted.single (h₀ : Booted s₀) : Single c s₀.table := by
  have hidle : ∀ c, s₀.table.curenv c = none := h₀.cpus
  have hfree : ∀ e, (s₀.table.envs e).envStatus = .free := fun e => (h₀.envs e).1
  obtain ⟨l, hchain, hl⟩ := h₀.envList
  refine ⟨fun c' e he => ?_, fun e he => ?_, fun e he => ?_, fun e he => ?_, fun e hlt e' he => ?_⟩
  · rw [hidle] at he
    cases he
  · rw [hfree] at he
    cases he
  · rw [hfree, hidle] at he
    rcases he with he | he
    · exact absurd rfl he
    · cases he
  · have he : s₀.envFreeList = some e := he
    rw [he] at hchain
    obtain ⟨tail, rfl, -⟩ := hchain.of_some
    exact (hl e).mp List.mem_cons_self
  · exact (hl e').mp (hchain.next_mem ((hl e).mpr hlt) he)

/-- Whatever a step on the CPU has written so far keeps the table so. -/
theorem Single.written (h : Single c s.table) (hw : Written s ev c t) : Single c t := by
  have hreset : Single c s.reset.table := ⟨h.only, h.running, h.id, h.head, h.link⟩
  refine hw.invariant hreset ?_
  rintro t _ w ht hw ⟨rfl⟩
  exact Single.write h ht hw

theorem Single.step (h : Single c s.table) (hc : ev.cpu = c) (hs : JOS.step s ev = some s') :
    Single c s'.table :=
  h.written (hc ▸ step_written hs)

theorem single_of_reach (h₀ : Booted s₀) (h : Reach JOS.step (fun _ ev => ev.cpu = c) s₀ s) :
    Single c s.table :=
  h.invariant (I := fun s => Single c s.table) h₀.single fun _ _ _ ht hc hs => ht.step hc hs

/-! ### Dispatches -/

/-- In the step from `s` to `s'` the CPU `c` enters the kernel, and `sched_yield` dispatches `e`. -/
def Dispatches (c e : ℕ) (s : KState) (ev : Event) (s' : KState) : Prop :=
  ev.enters = some c ∧ step s ev = some s' ∧ s'.curenv c = some e ∧ ¬ GoesOn s ev c

/-- The step frees the environment its CPU runs: in `env_destroy(curenv)`, or because it is a
zombie. -/
def FreesCurenv (s : KState) (ev : Event) : Prop :=
  ∃ s' e, step s ev = some s' ∧ s.curenv ev.cpu = some e ∧ .free ev.cpu e ∈ s'.acts

/-- The environment could run, or does. -/
def Ready (w : ℕ) (s : KState) : Prop := s.status w = .runnable ∨ s.status w = .running

theorem curenv_of_envRun (h : envRun s c e = .gone s') : s'.curenv c = some e := by
  have ht := envRun_writes h
  have hcur : s'.table.curenv c = some e := by rw [ht, Table.write_run_curenv, Function.update_self]
  exact hcur

/-- `page_fault_handler` has its environment go on. -/
theorem Resumes.curenv {trap : TrapIn} {cur : ℕ} (h : Resumes s (.trap c trap) c cur)
    (hgone : pageFaultHandler (trapEntry s.reset c cur trap) c cur trap.cr2 = .error (.gone s')) :
    s'.curenv c = some cur := by
  obtain ⟨trap', pgdir, ⟨rfl⟩, hcur, -, -, hup, hp, hcheck⟩ := h
  have henv := trapEntry_envs s.reset c cur trap
  have hcur₁ : (trapEntry s.reset c cur trap).curenv c = some cur := by
    have ht := table_trapEntry s.reset c cur trap
    exact (congrFun (congrArg Table.curenv ht) c).trans hcur
  have hmem : (trapEntry s.reset c cur trap).mem = s.mem := rfl
  generalize trapEntry s.reset c cur trap = s₁ at hgone henv hcur₁ hmem
  have hassert : userMemAssert s₁ c cur (utfAddr (s₁.envs cur).envTf.tfEsp) utfSize PTE_W =
      .ok s₁ := by
    have hpgdir : (s₁.envs cur).envPgdir = some pgdir := by
      rw [henv]
      exact hp
    refine (userMemAssert_eq_ok hcur₁ hpgdir).mpr ⟨rfl, ?_⟩
    rw [henv, hmem]
    exact hcheck
  have hup₁ : ¬ (s₁.envs cur).envPgfaultUpcall = 0 := by
    rw [henv]
    exact hup
  rw [pageFaultHandler, if_neg hup₁] at hgone
  simp only [pure_eq_ok, ok_bind, hassert] at hgone
  generalize storeWords s₁.mem (s₁.cpus c).cr3 (utfAddr (s₁.envs cur).envTf.tfEsp)
    (utfWords trap.cr2 (s₁.envs cur).envTf) = r at hgone
  cases r with
  | error w => simp [liftStop] at hgone
  | ok m =>
    simp only [liftStop, ok_bind, Except.error.injEq] at hgone
    exact curenv_of_envRun hgone

/-- A trap that goes on with `curenv` does not change it. -/
theorem GoesOn.curenv (h : GoesOn s ev c) (hs : step s ev = some s') :
    s'.curenv c = s.curenv c := by
  obtain ⟨trap, cur, rfl, hcur, hdying, hgo⟩ := h
  simp only [step] at hs
  split_ifs at hs with hfits
  have htrap := state?_eq_some.mp hs
  rw [trap_user hcur hdying hfits] at htrap
  rw [hcur]
  rcases leaveWith_gone htrap with hgone | ⟨s₁, hok, hreturn⟩
  · rcases hgo with hres | ⟨s₁, hok, -⟩
    · have hpf : trap.tf.tfTrapno = T_PGFLT := by
        obtain ⟨trap', pgdir, ⟨rfl⟩, -, -, hpf, -⟩ := hres
        exact hpf
      rw [trapDispatch, if_pos hpf] at hgone
      exact hres.curenv hgone
    · rw [hok] at hgone
      cases hgone
  · rcases hgo with hres | ⟨s₂, hok₂, hst⟩
    · have hpf : trap.tf.tfTrapno = T_PGFLT := by
        obtain ⟨trap', pgdir, ⟨rfl⟩, -, -, hpf, -⟩ := hres
        exact hpf
      rw [trapDispatch, if_pos hpf] at hok
      exact absurd hok pageFaultHandler_ne_ok
    · rw [hok] at hok₂
      cases hok₂
      have hcur₂ : s₁.curenv c = some cur := (trapDispatch_ok rfl hdying hcur hok).2
      unfold JOS.trapReturn at hreturn
      simp only [hcur₂, if_pos hst] at hreturn
      exact curenv_of_envRun hreturn

/-! ### One turn -/

/-- What `sched_yield` finds is the first runnable environment behind `curenv`. -/
theorem nextRunnable_eq_scan (h : Single c s.table) (hcur : s.curenv c = some p) :
    nextRunnable s c = scan NENV (p + 1) fun i => s.status i = .runnable := by
  have hid : ENVX (s.envs p).envId = p := h.id p (.inr hcur)
  rw [nextRunnable, hcur]
  dsimp only
  rw [hid]
  rfl

/-- A step of the CPU while it runs `p` leaves it there, or ends in a `sched_yield` that starts its
scan behind `p`. -/
theorem turn (h : Single c s.table) (hc : ev.cpu = c) (hs : step s ev = some s')
    (hcur : s.curenv c = some p)
    (hstay : ¬ FreesCurenv s ev) :
    s'.curenv c = some p ∧ (∀ e t, ¬ Dispatches c e s ev t) ∨
      ∃ s₁, schedYield s₁ c = .gone s' ∧ s₁.curenv c = some p ∧ Single c s₁.table ∧
          ev.enters = some c ∧ ¬ GoesOn s ev c := by
  subst hc
  cases henter : ev.enters with
  | none =>
    left
    refine ⟨?_, fun e t hd => ?_⟩
    · obtain ⟨hlog, -, halloc⟩ := step_logged hs
      have hsame : s'.procs.curenv = s.procs.curenv := by
        refine hlog.invariant (I := fun q => q.curenv = s.procs.curenv) rfl fun q a ha hq _ => ?_
        obtain ⟨e, st, rfl⟩ := halloc henter a ha
        exact hq
      exact (congrFun hsame ev.cpu).trans hcur
    · rw [hd.1] at henter
      cases henter
  | some c =>
    obtain ⟨rfl, -⟩ := (step_logged hs).2.1 c henter
    by_cases hgo : GoesOn s ev ev.cpu
    · exact .inl ⟨(hgo.curenv hs).trans hcur, fun e t hd => hd.2.2.2 hgo⟩
    right
    cases step_ends hs henter with
    | goesOn _ hgo' => exact absurd hgo' hgo
    | exits _ hcur' _ hl =>
      obtain ⟨w, hw, -⟩ := hl
      refine absurd ⟨s', _, hs, hcur', ?_⟩ hstay
      have hacts : s'.acts = (s'.table).acts := rfl
      rw [hacts, hw]
      exact Table.mem_acts_write (Table.mem_acts_write List.mem_cons_self)
    | @yields s₁ hw hcur' hy =>
      exact ⟨s₁, hy, hcur'.trans hcur, h.written hw, rfl, hgo⟩

/-- A ready environment that the CPU does not run is runnable. -/
theorem Ready.runnable (hready : Ready w s) (h : Single c s.table) (hcur : s.curenv c ≠ some w) :
    s.status w = .runnable :=
  hready.resolve_right fun hr => hcur (h.running w hr)

/-- It was so when `sched_yield` was called, if the CPU did not run it then. -/
theorem runnable_of_schedYield (hs : schedYield s₁ c = .gone s') (hcur : s₁.curenv c ≠ some w)
    (hcur' : s'.curenv c ≠ some w)
    (hw : s'.status w = .runnable) : s₁.status w = .runnable := by
  obtain ⟨wr, ht, hsched⟩ := schedYield_writes hs
  have henvs : s'.envs = (s₁.table.write wr).envs := congrArg Table.envs ht
  cases wr with
  | run c' e =>
    obtain ⟨rfl, -⟩ := hsched
    have hcur'' : s'.table.curenv c' ≠ some w := hcur'
    rw [ht, Table.write_run_curenv, Function.update_self] at hcur''
    rw [KState.status, henvs, Table.write_run_of_ne fun hwe => hcur'' (congrArg some hwe.symm),
      if_neg fun h => hcur h.1] at hw
    exact hw
  | clear c' =>
    rw [KState.status, henvs] at hw
    exact hw
  | _ => exact hsched.elim

/-- While an environment is runnable, `sched_yield` dispatches the first such behind `curenv`. -/
theorem schedYield_scan (h : Single c s₁.table) (hcur : s₁.curenv c = some p)
    (hw : s₁.status w = .runnable)
    (hs : schedYield s₁ c = .gone s') :
    ∃ q, scan NENV (p + 1) (fun i => s₁.status i = .runnable) = some q ∧ s'.curenv c = some q := by
  have hp : p < NENV := h.lt (.inr hcur)
  have hlt : w < NENV := h.lt (.inl fun hfree => by
    have hw : (s₁.table.envs w).envStatus = .runnable := hw
    rw [hw] at hfree
    cases hfree)
  have hfound := scan_isSome (P := fun i => s₁.status i = .runnable) (Nat.succ_le_of_lt hp) hlt
    (decide_eq_true hw)
  rw [← nextRunnable_eq_scan h hcur] at hfound ⊢
  obtain ⟨q, hq⟩ := hfound
  refine ⟨q, hq, ?_⟩
  unfold schedYield at hs
  generalize nextRunnable s₁ c = o at hs hq
  subst hq
  exact curenv_of_envRun hs

/-- The CPU runs a place on the way from `i` to `w`. -/
def Between (c i w : ℕ) (s : KState) : Prop := ∃ p, s.curenv c = some p ∧
    ahead NENV i p < ahead NENV i w

/-- A step in which `w` is ready and not dispatched leaves the CPU there, and dispatches nothing but
what lies behind `i`. -/
theorem Between.step (hb : Between c i w s) (h : Single c s.table) (hi : i < NENV) (hc : ev.cpu = c)
    (hs : JOS.step s ev = some s') (hready' : Ready w s') (hstay : ¬ FreesCurenv s ev)
    (hno : ¬ Dispatches c w s ev s') : Between c i w s' ∧ ¬ Dispatches c i s ev s' := by
  obtain ⟨p, hcur, hpw⟩ := hb
  have hpw' : p ≠ w := by
    rintro rfl
    exact lt_irrefl _ hpw
  rcases turn h hc hs hcur hstay with ⟨hcur', hnone⟩ | ⟨s₁, hy, hcur₁, h₁, henter, hgo⟩
  · exact ⟨⟨p, hcur', hpw⟩, hnone i s'⟩
  · have hcur' : s'.curenv c ≠ some w := fun hw => hno ⟨henter, hs, hw, hgo⟩
    have hrun : s₁.status w = .runnable := by
      refine runnable_of_schedYield hy ?_ hcur' (hready'.runnable (h.step hc hs) hcur')
      rw [hcur₁]
      exact fun hw => hpw' (Option.some.inj hw)
    have hlive : (s₁.table.envs w).envStatus ≠ .free := by
      rw [show (s₁.table.envs w).envStatus = .runnable from hrun]
      nofun
    obtain ⟨q, hq, hqcur⟩ := schedYield_scan h₁ hcur₁ hrun hy
    rw [hqcur] at hcur'
    have hp : p < NENV := h.lt (.inr hcur)
    have hw : w < NENV := h₁.lt (.inl hlive)
    have hqw : q ≠ w := fun hqw => hcur' (congrArg some hqw)
    obtain ⟨-, hpq, hqw⟩ := scan_between hi hp hw (decide_eq_true hrun) hpw hq hqw
    refine ⟨⟨q, hqcur, hqw⟩, fun hd => ?_⟩
    -- `i` is no place ahead of itself
    have hqi : some q = some i := hqcur.symm.trans hd.2.2.1
    rw [Option.some.inj hqi, ahead_self] at hpq
    exact absurd hpq (Nat.not_lt_zero _)

/-! ### Between two dispatches -/

theorem cpu_of_enters (h : ev.enters = some c) : ev.cpu = c := by
  cases ev <;> cases h <;> rfl

/-- **Round robin**: on one CPU, in any run, between two dispatches of a slot every other
environment that is ready throughout is dispatched, when no environment is destroyed that the CPU
runs. -/
theorem dispatched_between (h₀ : Booted s₀) (hreach : Reach step (fun _ ev => ev.cpu = c) s₀ s)
    (hfirst : Dispatches c i s ev s₁) (hrun : Trace step s₁ l s₂) (hcpu : ∀ x ∈ l, x.2.cpu = c)
    (hsecond : Dispatches c i s₂ ev' s₃) (hw : w ≠ i)
    (hready : ∀ t ∈ l.map Prod.fst ++ [s₂, s₃], Ready w t)
    (hstay : ∀ x ∈ l ++ [(s₂, ev')], ¬ FreesCurenv x.1 x.2) : ∃ x ∈ l, ∃ t,
    Dispatches c w x.1 x.2 t := by
  by_contra hnone
  obtain ⟨henter, hstep, hcur, -⟩ := hfirst
  have h₁ : Single c s₁.table := (single_of_reach h₀ hreach).step (cpu_of_enters henter) hstep
  have hi : i < NENV := h₁.lt (.inr hcur)
  have hstart : Between c i w s₁ := by
    refine ⟨i, hcur, ?_⟩
    rw [ahead_self]
    exact ahead_pos hw.symm hi
  have h₂ : Single c s₂.table ∧ Between c i w s₂ := by
    refine hrun.invariant (I := fun t => Single c t.table ∧ Between c i w t) ⟨h₁, hstart⟩ ?_
    rintro t e t' hmem ⟨ht, hb⟩ hs
    have hc : e.cpu = c := hcpu (t, e) hmem
    have hready' : Ready w t' := by
      refine hready t' (List.mem_append.mpr ((hrun.next hmem hs).imp_right ?_))
      rintro rfl
      exact List.mem_cons_self
    exact ⟨ht.step hc hs, (hb.step ht hi hc hs hready' (hstay (t, e) (List.mem_append_left _ hmem))
      fun hd => hnone ⟨(t, e), hmem, t', hd⟩).1⟩
  obtain ⟨henter', hstep', hcur', -⟩ := id hsecond
  refine (h₂.2.step h₂.1 hi (cpu_of_enters henter') hstep' (hready s₃ (by simp))
    (hstay (s₂, ev') (by simp)) ?_).2 hsecond
  rintro ⟨-, -, hcurw, -⟩
  exact hw (Option.some.inj (hcurw.symm.trans hcur'))

/-- A dispatch is seen from outside when it changes what the CPU runs. -/
theorem dispatches_of_curenv (henter : ev.enters = some c) (hs : step s ev = some s')
    (hcur : s'.curenv c = some e)
    (hne : s.curenv c ≠ some e) : Dispatches c e s ev s' :=
  ⟨henter, hs, hcur, fun hgo => hne ((hgo.curenv hs).symm.trans hcur)⟩

/-- After `n` environments are created, CPU 0 starts and takes two traps. -/
def twoTraps (n : ℕ) (a b : TrapIn) : Option (KState × KState × KState × KState) :=
  ((List.replicate n (Event.create 0 emptyElf)).foldlM step (bootState 1)).bind fun s =>
    (step s (.start 0)).bind fun s₁ =>
      (step s₁ (.trap 0 a)).bind fun s₂ => (step s₂ (.trap 0 b)).map fun s₃ => (s, s₁, s₂, s₃)

theorem twoTraps_steps {n : ℕ} {a b : TrapIn} (h : twoTraps n a b = some (s, s₁, s₂, s₃)) :
    Reach step (fun _ ev => ev.cpu = 0) (bootState 1) s ∧ step s (.start 0) = some s₁ ∧
      step s₁ (.trap 0 a) = some s₂ ∧ step s₂ (.trap 0 b) = some s₃ := by
  obtain ⟨t, ht, h⟩ := Option.bind_eq_some_iff.mp h
  obtain ⟨t₁, ht₁, h⟩ := Option.bind_eq_some_iff.mp h
  obtain ⟨t₂, ht₂, h⟩ := Option.bind_eq_some_iff.mp h
  obtain ⟨t₃, ht₃, h⟩ := Option.map_eq_some_iff.mp h
  cases h
  refine ⟨Reach.of_foldlM ht fun _ e he => ?_, ht₁, ht₂, ht₃⟩
  rw [List.eq_of_mem_replicate he]
  rfl

/-- Two environments take turns. -/
theorem dispatched_between_two : ∃ s s₁ s₂ s₃, Dispatches 0 0 s (.start 0) s₁ ∧
    Dispatches 0 0 s₂ (.trap 0 (sysTrap 10 0 0 0 0 0)) s₃ ∧
    ∃ x ∈ [(s₁, Event.trap 0 (sysTrap 10 0 0 0 0 0))], ∃ t, Dispatches 0 1 x.1 x.2 t := by
  have hrun : (twoTraps 2 (sysTrap 10 0 0 0 0 0) (sysTrap 10 0 0 0 0 0)).map (fun x =>
      [x.1, x.2.1, x.2.2.1, x.2.2.2].map fun t =>
        (t.curenv 0, t.status 1, t.acts.any fun a => a matches .free _ _)) =
        some [(none, .runnable, false), (some 0, .runnable, false), (some 1, .running, false),
            (some 0, .runnable, false)] := by
    decide +kernel
  obtain ⟨⟨s, s₁, s₂, s₃⟩, h, hx⟩ := Option.map_eq_some_iff.mp hrun
  obtain ⟨hreach, hs₁, hs₂, hs₃⟩ := twoTraps_steps h
  simp only [List.map_cons, List.map_nil, List.cons.injEq, Prod.mk.injEq, and_true] at hx
  obtain ⟨⟨hc, -, -⟩, ⟨hc₁, hw₁, -⟩, ⟨hc₂, hw₂, hf₂⟩, ⟨hc₃, hw₃, hf₃⟩⟩ := hx
  have hfirst : Dispatches 0 0 s (.start 0) s₁ :=
    dispatches_of_curenv rfl hs₁ hc₁ (by rw [hc]; nofun)
  have hsecond : Dispatches 0 0 s₂ (.trap 0 (sysTrap 10 0 0 0 0 0)) s₃ :=
    dispatches_of_curenv rfl hs₃ hc₃ (by rw [hc₂]; decide)
  refine ⟨s, s₁, s₂, s₃, hfirst, hsecond, dispatched_between (bootState_booted 1) hreach hfirst
    (.cons hs₂ .nil) ?_ hsecond
    (by decide) ?_ ?_⟩
  · simp [Event.cpu]
  · simp [Ready, hw₁, hw₂, hw₃]
  · have hstay : ∀ t t' tr, step t (.trap 0 tr) = some t' →
        t'.acts.any (fun a => a matches .free _ _) = false →
        ¬ FreesCurenv t (.trap 0 tr) := by
      rintro t t' tr hs hf ⟨t'', e, hs', -, hmem⟩
      rw [hs] at hs'
      cases hs'
      exact absurd (List.any_eq_true.mpr ⟨_, hmem, rfl⟩) (by rw [hf]; nofun)
    intro x hx
    simp only [List.singleton_append, List.mem_cons, List.not_mem_nil, or_false] at hx
    rcases hx with rfl | rfl
    · exact hstay _ _ _ hs₂ hf₂
    · exact hstay _ _ _ hs₃ hf₃

/-- Of three environments the first yields and the second exits; then the first is dispatched again,
and the third has not been dispatched. -/
theorem not_dispatched_between : ∃ s s₁ s₂ s₃, Reach step (fun _ ev => ev.cpu = 0) (bootState 1) s ∧
    Dispatches 0 0 s (.start 0) s₁ ∧ Trace step s₁ [(s₁, .trap 0 (sysTrap 10 0 0 0 0 0))] s₂ ∧
    Dispatches 0 0 s₂ (.trap 0 (sysTrap 3 0 0 0 0 0)) s₃ ∧
    (∀ t ∈ [s₁, s₂, s₃], t.status 2 = .runnable) ∧
    ¬ ∃ x ∈ [(s₁, Event.trap 0 (sysTrap 10 0 0 0 0 0))], ∃ t, Dispatches 0 2 x.1 x.2 t := by
  have hrun : (twoTraps 3 (sysTrap 10 0 0 0 0 0) (sysTrap 3 0 0 0 0 0)).map (fun x =>
      [x.1, x.2.1, x.2.2.1, x.2.2.2].map fun t => (t.curenv 0, t.status 2)) =
        some [(none, .runnable), (some 0, .runnable), (some 1, .runnable),
            (some 0, .runnable)] := by
    decide +kernel
  obtain ⟨⟨s, s₁, s₂, s₃⟩, h, hx⟩ := Option.map_eq_some_iff.mp hrun
  obtain ⟨hreach, hs₁, hs₂, hs₃⟩ := twoTraps_steps h
  simp only [List.map_cons, List.map_nil, List.cons.injEq, Prod.mk.injEq, and_true] at hx
  obtain ⟨⟨hc, -⟩, ⟨hc₁, hw₁⟩, ⟨hc₂, hw₂⟩, ⟨hc₃, hw₃⟩⟩ := hx
  refine ⟨s, s₁, s₂, s₃, hreach, dispatches_of_curenv rfl hs₁ hc₁ (by rw [hc]; nofun),
    .cons hs₂ .nil,
    dispatches_of_curenv rfl hs₃ hc₃ (by rw [hc₂]; decide), by simp [hw₁, hw₂, hw₃], ?_⟩
  rintro ⟨x, hx, t, -, hs, hcur, -⟩
  rw [List.mem_singleton] at hx
  subst hx
  have ht : t = s₂ := Option.some.inj (hs.symm.trans hs₂)
  rw [ht, hc₂] at hcur
  cases hcur

end JOS
