import JOS.Kern.Trap
import JOS.General.Except

/-!
# The ways a kernel function ends

What the functions can come to that may not return to their caller, each said once: `sched_yield`
and the end of `trap`, `env_destroy`, `user_mem_assert` and `page_fault_handler`.

`syscall` dispatches on the number of the call; what follows a call mostly does not depend on which
one it was. `SysReturns` lists the ways in which a call comes back to its caller, and `SysLeaves`
those in which it does not, so that a fact about all calls is proved once for each of the ways.
`TrapEnds` lists in the same way how a trap ends.
-/

namespace JOS

open JOS.General

variable {s s₁ s' : KState} {c cur e : ℕ} {a : SysArgs} {r va len perm : Word} {l : Leave}

theorem liftStop_eq_ok {α : Type} {x : Except Stop α} {a : α} : liftStop x = .ok a ↔ x = .ok a := by
  cases x <;> simp [liftStop]

theorem liftStop_eq_error {α : Type} {x : Except Stop α} : liftStop x = .error l ↔ ∃ w,
    x = .error w ∧ l = .stop w := by
  cases x with
  | ok a => simp [liftStop]
  | error w => simp [liftStop, eq_comm]

theorem liftStop_ne_gone {α : Type} {x : Except Stop α} : liftStop x ≠ .error (.gone s') := by
  cases x <;> simp [liftStop]

/-- The permissions of a send are flags. -/
theorem isFlags_of_ipcPageOk {pte srcva : Word} (h : ipcPageOk pte srcva perm = true) :
    IsFlags perm := by
  rw [ipcPageOk, Bool.and_eq_true, Bool.and_eq_true, Bool.not_eq_true', Bool.or_eq_false_iff,
    Bool.or_eq_false_iff] at h
  have hmask := h.1.1.1.1
  rw [test, bne_eq_false_iff_eq] at hmask
  exact isFlags_of_mask hmask

theorem leaveWith_gone {r : Except Leave KState} {k : KState → Leave}
    (h : leaveWith r k = .gone s') :
    r = .error (.gone s') ∨ ∃ s₁, r = .ok s₁ ∧ k s₁ = .gone s' := by
  cases r with
  | error l => exact .inl (congrArg _ h)
  | ok s₁ => exact .inr ⟨s₁, rfl, h⟩

/-! ### Scheduling -/

/-- `sched_yield` runs the environment it finds, or the one it came from, or it halts. -/
theorem schedYield_cases (h : schedYield s c = l) :
    (∃ e, nextRunnable s c = some e ∧ envRun s c e = l) ∨
      (nextRunnable s c = none ∧ ∃ e, s.curenv c = some e ∧ s.status e = .running ∧
        envRun s c e = l) ∨
      (nextRunnable s c = none ∧ (∀ e, s.curenv c = some e → s.status e ≠ .running) ∧
          schedHalt s c = l) := by
  unfold schedYield at h
  cases hn : nextRunnable s c with
  | some e =>
    simp only [hn] at h
    exact .inl ⟨e, rfl, h⟩
  | none =>
    simp only [hn] at h
    cases hc : s.curenv c with
    | none =>
      simp only [hc] at h
      exact .inr (.inr ⟨rfl, nofun, h⟩)
    | some e =>
      simp only [hc] at h
      split_ifs at h with hr
      · exact .inr (.inl ⟨rfl, e, rfl, hr, h⟩)
      · refine .inr (.inr ⟨rfl, fun e' he' => ?_, h⟩)
        cases he'
        exact hr

/-- The end of `trap`. -/
theorem trapReturn_cases (h : trapReturn s c = l) :
    (∃ e, s.curenv c = some e ∧ s.status e = .running ∧ envRun s c e = l) ∨ schedYield s c = l := by
  unfold trapReturn at h
  cases hc : s.curenv c with
  | none =>
    simp only [hc] at h
    exact .inr h
  | some e =>
    simp only [hc] at h
    split_ifs at h with hr
    · exact .inl ⟨e, rfl, hr, h⟩
    · exact .inr h

/-! ### `env_free`, `env_destroy` and `user_mem_assert` -/

/-- No CPU stops running what it runs. -/
theorem envFree_curenv (h : envFree s c e = .ok s') : s'.curenv = s.curenv := by
  simp only [envFree, bind_eq_ok, pure_eq_ok, Except.ok.injEq] at h
  obtain ⟨pgdir, -, m, -, rfl⟩ := h
  funext c'
  by_cases hc : (s.log (.free c e)).curenv c = some e
  · rw [if_pos hc]
    by_cases hcc : c' = c
    · subst hcc
      simp [KState.curenv, KState.setEnv, KState.lcr3, KState.setCpu, KState.log]
    · simp [KState.curenv, KState.setEnv, KState.lcr3, KState.setCpu, KState.log,
        Function.update_of_ne hcc]
  · rw [if_neg hc]
    rfl

/-- `env_destroy` that comes back: a zombie is left to its CPU, or an environment that the CPU does
not run is freed. -/
theorem envDestroy_ok (h : envDestroy s c e = .ok s') : s.curenv c ≠ some e ∧
    (s.status e = .running ∧ s' = (s.setStatus e .dying).log (.zombie e) ∨ s.status e ≠ .running ∧
      envFree s c e = .ok s') := by
  rw [envDestroy] at h
  split_ifs at h with hz
  · cases h
    exact ⟨hz.2, .inl ⟨hz.1, rfl⟩⟩
  · obtain ⟨s₁, hfree, h⟩ := bind_eq_ok.mp h
    have hfree := liftStop_eq_ok.mp hfree
    split_ifs at h with hc
    cases h
    rw [envFree_curenv hfree] at hc
    exact ⟨hc, .inr ⟨fun hr => hz ⟨hr, hc⟩, hfree⟩⟩

/-- `env_destroy` that does not come back has freed the environment of the CPU, which schedules
another one. -/
theorem envDestroy_gone (h : envDestroy s c e = .error (.gone s')) : s.curenv c = some e ∧
    ∃ s₁, envFree s c e = .ok s₁ ∧ schedYield ((s₁.setCurenv c none).log (.clear c)) c =
      .gone s' := by
  rw [envDestroy] at h
  split_ifs at h with hz
  rcases bind_eq_error.mp h with hfree | ⟨s₁, hfree, h⟩
  · exact (liftStop_ne_gone hfree).elim
  · have hfree := liftStop_eq_ok.mp hfree
    split_ifs at h with hc
    · rw [envFree_curenv hfree] at hc
      exact ⟨hc, s₁, hfree, Except.error.inj h⟩
    · cases h

/-- `env_destroy` of the running environment does not come back. -/
theorem envDestroy_curenv (hcur : s.curenv c = some e) : envDestroy s c e ≠ .ok s' :=
  fun h => (envDestroy_ok h).1 hcur

/-- `user_mem_assert` does nothing, or destroys its environment. -/
theorem userMemAssert_ok (h : userMemAssert s c cur va len perm = .ok s') : s' = s ∨
    envDestroy s c cur = .ok s' := by
  obtain ⟨pgdir, -, h⟩ := bind_eq_ok.mp h
  obtain ⟨y, -, h⟩ := bind_eq_ok.mp h
  dsimp only at h
  split_ifs at h
  · exact .inr h
  · cases h
    exact .inl rfl

theorem userMemAssert_gone (h : userMemAssert s c cur va len perm = .error (.gone s')) :
    envDestroy s c cur = .error (.gone s') := by
  rcases bind_eq_error.mp h with hd | ⟨pgdir, -, h⟩
  · exact (liftStop_ne_gone hd).elim
  rcases bind_eq_error.mp h with hm | ⟨y, -, h⟩
  · exact (liftStop_ne_gone hm).elim
  dsimp only at h
  split_ifs at h
  · exact h
  · cases h

/-- `user_mem_assert` that comes back has destroyed nothing. -/
theorem userMemAssert_quiet (hcur : s.curenv c = some cur)
    (h : userMemAssert s c cur va len perm = .ok s') : s' = s :=
  (userMemAssert_ok h).resolve_right (envDestroy_curenv hcur)

/-! ### `page_fault_handler` -/

/-- `page_fault_handler` does not return. -/
theorem pageFaultHandler_ne_ok : pageFaultHandler s c cur va ≠ .ok s' := by
  intro h
  rw [pageFaultHandler] at h
  split_ifs at h <;>
  · obtain ⟨s₁, -, h⟩ := bind_eq_ok.mp h
    obtain ⟨s₂, -, h⟩ := bind_eq_ok.mp h
    obtain ⟨m, -, h⟩ := bind_eq_ok.mp h
    cases h

/-- The state in which `page_fault_handler` resumes the environment at its upcall, with the frame in
memory. -/
def atUpcall (s : KState) (cur : ℕ) (m : Mem) : KState :=
  { s with mem := m }.setEnv cur { s.envs cur with
    envTf := { (s.envs cur).envTf with
      tfEip := (s.envs cur).envPgfaultUpcall, tfEsp := utfAddr (s.envs cur).envTf.tfEsp } }

/-- `page_fault_handler` destroys the environment, or resumes it at its upcall. -/
theorem pageFaultHandler_cases (hcur : s.curenv c = some cur)
    (h : pageFaultHandler s c cur va = .error (.gone s')) :
    envDestroy s c cur = .error (.gone s') ∨
      ((s.envs cur).envPgfaultUpcall ≠ 0 ∧
        userMemAssert s c cur (utfAddr (s.envs cur).envTf.tfEsp) utfSize PTE_W = .ok s ∧
        ∃ m, storeWords s.mem (s.cpus c).cr3 (utfAddr (s.envs cur).envTf.tfEsp)
          (utfWords va (s.envs cur).envTf) = .ok m ∧
          envRun (atUpcall s cur m) c cur = .gone s') := by
  rw [pageFaultHandler] at h
  by_cases hup : (s.envs cur).envPgfaultUpcall = 0
  · rw [if_pos hup] at h
    rcases bind_eq_error.mp h with hd | ⟨s₁, hd, -⟩
    · exact .inl hd
    · exact absurd hd (envDestroy_curenv hcur)
  · simp only [if_neg hup, pure_eq_ok, ok_bind] at h
    rcases bind_eq_error.mp h with hassert | ⟨s₁, hassert, h⟩
    · exact .inl (userMemAssert_gone hassert)
    cases userMemAssert_quiet hcur hassert
    rcases bind_eq_error.mp h with hstore | ⟨m, hstore, h⟩
    · exact (liftStop_ne_gone hstore).elim
    · exact .inr ⟨hup, hassert, m, liftStop_eq_ok.mp hstore, Except.error.inj h⟩

/-! ### System calls -/

/-- The system call `a` of `cur` on CPU `c` returns. -/
inductive SysReturns (s : KState) (c cur : ℕ) (a : SysArgs) : Word → KState → Prop where
  /-- Nothing is done. -/
  | same {r : Word} : SysReturns s c cur a r s
  | envDestroy {e : ℕ} {s' : KState} : SysNo.ofWord a.no = some .envDestroy →
      envid2env s cur a.a1 true = some e →
      envDestroy s c e = .ok s' → SysReturns s c cur a 0 s'
  | pageAlloc {r : Word} {s' : KState} : SysNo.ofWord a.no = some .pageAlloc →
      sysPageAlloc s cur a.a1 a.a2 a.a3 = .ok (r, s') → SysReturns s c cur a r s'
  | pageMap {r : Word} {s' : KState} : SysNo.ofWord a.no = some .pageMap →
      sysPageMap s cur a.a1 a.a2 a.a3 a.a4 a.a5 = .ok (r, s') → SysReturns s c cur a r s'
  | pageUnmap {r : Word} {s' : KState} : SysNo.ofWord a.no = some .pageUnmap →
      sysPageUnmap s cur a.a1 a.a2 = .ok (r, s') → SysReturns s c cur a r s'
  | exofork {r : Word} {s' : KState} : SysNo.ofWord a.no = some .exofork →
      sysExofork s cur = .ok (r, s') →
      SysReturns s c cur a r s'
  | envSetStatus {e : ℕ} {st : EnvStatus} : SysNo.ofWord a.no = some .envSetStatus →
      statusArg a.a2 = some st →
      envid2env s cur a.a1 true = some e →
      SysReturns s c cur a 0 ((s.setStatus e st).log (.setStatus e st))
  | envSetPgfaultUpcall {e : ℕ} : SysNo.ofWord a.no = some .envSetPgfaultUpcall →
      envid2env s cur a.a1 true = some e →
      SysReturns s c cur a 0 (s.setEnv e { s.envs e with envPgfaultUpcall := a.a2 })
  | ipcTrySend {r : Word} {s' : KState} : SysNo.ofWord a.no = some .ipcTrySend →
      sysIpcTrySend s cur a.a1 a.a2 a.a3 a.a4 = .ok (r, s') → SysReturns s c cur a r s'

/-- `sys_ipc_recv` has blocked its caller. -/
def blocked (s : KState) (cur : ℕ) (dstva : Word) : KState :=
  (s.setEnv cur { s.envs cur with
    envIpcRecving := true, envStatus := .notRunnable, envIpcDstva := dstva }).log (.block cur)

/-- The system call `a` of `cur` on CPU `c` does not return. -/
inductive SysLeaves (s : KState) (c cur : ℕ) (a : SysArgs) : Leave → Prop where
  | yield : SysNo.ofWord a.no = some .yield → SysLeaves s c cur a (schedYield s c)
  | ipcRecv : SysNo.ofWord a.no = some .ipcRecv → ¬ (a.a1 < UTOP ∧ PGOFF a.a1 ≠ 0) →
      SysLeaves s c cur a (schedYield (blocked s cur a.a1) c)
  | envDestroy {e : ℕ} {l : Leave} : SysNo.ofWord a.no = some .envDestroy →
      envid2env s cur a.a1 true = some e →
      envDestroy s c e = .error l → SysLeaves s c cur a l
  /-- `sys_cputs` of memory that the caller may not read. -/
  | fault {l : Leave} : SysNo.ofWord a.no = some .cputs →
      userMemAssert s c cur a.a1 a.a2 PTE_U = .error l →
      SysLeaves s c cur a l
  /-- `cprintf` does not come to the end of what it prints. -/
  | print {w : Stop} : SysNo.ofWord a.no = some .cputs →
      userMemAssert s c cur a.a1 a.a2 PTE_U = .ok s →
      (cputs s c a.a1 a.a2).halt = some w → SysLeaves s c cur a (.stop w)
  | pageAlloc {w : Stop} : SysNo.ofWord a.no = some .pageAlloc →
      sysPageAlloc s cur a.a1 a.a2 a.a3 = .error w →
      SysLeaves s c cur a (.stop w)
  | pageMap {w : Stop} : SysNo.ofWord a.no = some .pageMap →
      sysPageMap s cur a.a1 a.a2 a.a3 a.a4 a.a5 = .error w →
      SysLeaves s c cur a (.stop w)
  | pageUnmap {w : Stop} : SysNo.ofWord a.no = some .pageUnmap →
      sysPageUnmap s cur a.a1 a.a2 = .error w →
      SysLeaves s c cur a (.stop w)
  | exofork {w : Stop} : SysNo.ofWord a.no = some .exofork → sysExofork s cur = .error w →
    SysLeaves s c cur a (.stop w)
  | ipcTrySend {w : Stop} : SysNo.ofWord a.no = some .ipcTrySend →
      sysIpcTrySend s cur a.a1 a.a2 a.a3 a.a4 = .error w → SysLeaves s c cur a (.stop w)

theorem syscall_returns (hcur : s.curenv c = some cur) (h : syscall s c cur a = .ok (r, s')) :
    SysReturns s c cur a r s' := by
  rw [syscall] at h
  cases hno : SysNo.ofWord a.no with
  | none =>
    simp only [hno] at h
    cases h
    exact .same
  | some no =>
    simp only [hno] at h
    cases no with
    | cputs =>
      obtain ⟨s₁, hputs, h⟩ := bind_eq_ok.mp h
      cases h
      obtain ⟨s₂, hassert, hputs⟩ := bind_eq_ok.mp hputs
      split at hputs
      · cases hputs
        cases userMemAssert_quiet hcur hassert
        exact .same
      · cases hputs
    | envDestroy =>
      rw [sysEnvDestroy] at h
      cases henv : envid2env s cur a.a1 true with
      | none =>
        simp only [henv] at h
        cases h
        exact .same
      | some e =>
        simp only [henv] at h
        obtain ⟨s₁, hd, h⟩ := bind_eq_ok.mp h
        cases h
        exact .envDestroy hno henv hd
    | pageAlloc => exact .pageAlloc hno (liftStop_eq_ok.mp h)
    | pageMap => exact .pageMap hno (liftStop_eq_ok.mp h)
    | pageUnmap => exact .pageUnmap hno (liftStop_eq_ok.mp h)
    | exofork => exact .exofork hno (liftStop_eq_ok.mp h)
    | ipcTrySend => exact .ipcTrySend hno (liftStop_eq_ok.mp h)
    | envSetStatus =>
      simp only [Except.ok.injEq, sysEnvSetStatus] at h
      cases hst : statusArg a.a2 with
      | none =>
        simp only [hst] at h
        cases h
        exact .same
      | some st =>
        simp only [hst] at h
        cases henv : envid2env s cur a.a1 true with
        | none =>
          simp only [henv] at h
          cases h
          exact .same
        | some e =>
          simp only [henv] at h
          cases h
          exact .envSetStatus hno hst henv
    | envSetPgfaultUpcall =>
      simp only [Except.ok.injEq, sysEnvSetPgfaultUpcall] at h
      cases henv : envid2env s cur a.a1 true with
      | none =>
        simp only [henv] at h
        cases h
        exact .same
      | some e =>
        simp only [henv] at h
        cases h
        exact .envSetPgfaultUpcall hno henv
    | ipcRecv =>
      rw [sysIpcRecv] at h
      split_ifs at h
      cases h
      exact .same
    | yield => cases h
    | cgetc =>
      cases h
      exact .same
    | getenvid =>
      cases h
      exact .same

theorem syscall_leaves (hcur : s.curenv c = some cur) (h : syscall s c cur a = .error l) :
    SysLeaves s c cur a l := by
  rw [syscall] at h
  cases hno : SysNo.ofWord a.no with
  | none =>
    simp only [hno] at h
    cases h
  | some no =>
    simp only [hno] at h
    cases no with
    | cputs =>
      rcases bind_eq_error.mp h with hputs | ⟨s₁, -, h⟩
      · rcases bind_eq_error.mp hputs with hassert | ⟨s₂, hassert, hputs⟩
        · exact .fault hno hassert
        · cases userMemAssert_quiet hcur hassert
          cases hhalt : (cputs s c a.a1 a.a2).halt with
          | none =>
            simp only [hhalt] at hputs
            cases hputs
          | some w =>
            simp only [hhalt] at hputs
            cases hputs
            exact .print hno hassert hhalt
      · cases h
    | envDestroy =>
      rw [sysEnvDestroy] at h
      cases henv : envid2env s cur a.a1 true with
      | none =>
        simp only [henv] at h
        cases h
      | some e =>
        simp only [henv] at h
        rcases bind_eq_error.mp h with hd | ⟨s₁, -, h⟩
        · exact .envDestroy hno henv hd
        · cases h
    | pageAlloc =>
      obtain ⟨w, hw, rfl⟩ := liftStop_eq_error.mp h
      exact .pageAlloc hno hw
    | pageMap =>
      obtain ⟨w, hw, rfl⟩ := liftStop_eq_error.mp h
      exact .pageMap hno hw
    | pageUnmap =>
      obtain ⟨w, hw, rfl⟩ := liftStop_eq_error.mp h
      exact .pageUnmap hno hw
    | exofork =>
      obtain ⟨w, hw, rfl⟩ := liftStop_eq_error.mp h
      exact .exofork hno hw
    | ipcTrySend =>
      obtain ⟨w, hw, rfl⟩ := liftStop_eq_error.mp h
      exact .ipcTrySend hno hw
    | yield =>
      rw [← Except.error.inj h]
      exact .yield hno
    | ipcRecv =>
      rw [sysIpcRecv] at h
      split_ifs at h with hva
      · cases h
      · rw [← Except.error.inj h]
        exact .ipcRecv hno hva
    | envSetStatus => cases h
    | envSetPgfaultUpcall => cases h
    | cgetc => cases h
    | getenvid => cases h

/-- A system call that leaves the kernel without returning: the caller yields, blocks, or an
environment is destroyed. -/
theorem syscall_gone_cases (h : syscall s c cur a = .error (.gone s')) :
    (SysNo.ofWord a.no = some .yield ∧ schedYield s c = .gone s') ∨
      (SysNo.ofWord a.no = some .ipcRecv ∧ ¬ (a.a1 < UTOP ∧ PGOFF a.a1 ≠ 0) ∧
        schedYield (blocked s cur a.a1) c = .gone s') ∨
      (∃ e, SysNo.ofWord a.no = some .envDestroy ∧ envid2env s cur a.a1 true = some e ∧
        envDestroy s c e = .error (.gone s')) ∨
      (SysNo.ofWord a.no = some .cputs ∧ envDestroy s c cur = .error (.gone s')) := by
  rw [syscall] at h
  cases hno : SysNo.ofWord a.no with
  | none =>
    simp only [hno] at h
    cases h
  | some no =>
    simp only [hno] at h
    cases no with
    | cputs =>
      rcases bind_eq_error.mp h with hputs | ⟨s₁, -, h⟩
      · rcases bind_eq_error.mp hputs with hassert | ⟨s₂, hassert, hputs⟩
        · exact .inr (.inr (.inr ⟨rfl, userMemAssert_gone hassert⟩))
        · split at hputs <;> cases hputs
      · cases h
    | envDestroy =>
      rw [sysEnvDestroy] at h
      cases henv : envid2env s cur a.a1 true with
      | none =>
        simp only [henv] at h
        cases h
      | some e =>
        simp only [henv] at h
        rcases bind_eq_error.mp h with hd | ⟨s₁, -, h⟩
        · exact .inr (.inr (.inl ⟨e, rfl, rfl, hd⟩))
        · cases h
    | yield => exact .inl ⟨rfl, Except.error.inj h⟩
    | ipcRecv =>
      rw [sysIpcRecv] at h
      split_ifs at h with hva
      · cases h
      · exact .inr (.inl ⟨rfl, hva, Except.error.inj h⟩)
    | pageAlloc => exact (liftStop_ne_gone h).elim
    | pageMap => exact (liftStop_ne_gone h).elim
    | pageUnmap => exact (liftStop_ne_gone h).elim
    | exofork => exact (liftStop_ne_gone h).elim
    | ipcTrySend => exact (liftStop_ne_gone h).elim
    | envSetStatus => cases h
    | envSetPgfaultUpcall => cases h
    | cgetc => cases h
    | getenvid => cases h

/-! ### Traps -/

section

variable {t : TrapIn}

/-- The state to which a system call returns: the result is in `eax`. -/
def returned (s : KState) (cur : ℕ) (r : Word) : KState :=
  s.setEnv cur { s.envs cur with
    envTf := { (s.envs cur).envTf with tfRegs := { (s.envs cur).envTf.tfRegs with regEax := r } } }

theorem trapEntry_curenv (hcur : s.curenv c = some cur) (t : TrapIn) :
    (trapEntry s c cur t).curenv c = some cur := by
  simpa [trapEntry, KState.curenv, KState.setEnv, KState.setCpu] using hcur

/-- The ways in which a trap of `cur` from user mode ends, from the state in which `trap_dispatch`
gets it. -/
inductive UserTrapEnds (s : KState) (c cur : ℕ) (t : TrapIn) (s' : KState) : Prop where
  | pageFault : t.tf.tfTrapno = T_PGFLT → pageFaultHandler s c cur t.cr2 = .error (.gone s') →
    UserTrapEnds s c cur t s'
  /-- A system call that does not return. -/
  | leaves : t.tf.tfTrapno = T_SYSCALL → syscall s c cur t.args = .error (.gone s') →
    UserTrapEnds s c cur t s'
  | returns {r : Word} {s₂ : KState} : t.tf.tfTrapno = T_SYSCALL →
      syscall s c cur t.args = .ok (r, s₂) →
      trapDispatch s c cur t = .ok (returned s₂ cur r) →
      trapReturn (returned s₂ cur r) c = .gone s' → UserTrapEnds s c cur t s'
  | spurious : trapDispatch s c cur t = .ok s → trapReturn s c = .gone s' →
    UserTrapEnds s c cur t s'
  | timer : schedYield s c = .gone s' → UserTrapEnds s c cur t s'
  /-- Any other trap destroys the environment. -/
  | destroys : envDestroy s c cur = .error (.gone s') → UserTrapEnds s c cur t s'

theorem userTrapEnds (hcur : s.curenv c = some cur)
    (h : leaveWith (trapDispatch s c cur t) (fun s => trapReturn s c) = .gone s') :
    UserTrapEnds s c cur t s' := by
  rcases leaveWith_gone h with h | ⟨s₁, h, hret⟩
  · rw [trapDispatch] at h
    split_ifs at h with hpf hbp hsys hspur htimer
    · exact .pageFault hpf h
    · cases h
    · rcases bind_eq_error.mp h with h | ⟨y, -, h⟩
      · exact .leaves hsys h
      · cases h
    · exact .timer (Except.error.inj h)
    · exact .destroys h
  · have hok := h
    rw [trapDispatch] at h
    split_ifs at h with hpf hbp hsys hspur htimer
    · exact absurd h pageFaultHandler_ne_ok
    · obtain ⟨⟨r, s₂⟩, hcall, h⟩ := bind_eq_ok.mp h
      cases h
      exact .returns hsys hcall hok hret
    · cases h
      exact .spurious hok hret
    · exact absurd h (envDestroy_curenv hcur)

/-- The ways in which a trap on CPU `c` ends. -/
inductive TrapEnds (s : KState) (c : ℕ) (t : TrapIn) (s' : KState) : Prop where
  /-- The environment is to be freed. -/
  | dying {cur : ℕ} {s₁ : KState} : s.curenv c = some cur → s.status cur = .dying →
      envFree (s.setCpu c { s.cpus c with cpuStatus := .started }) c cur = .ok s₁ →
      schedYield ((s₁.setCurenv c none).log (.clear c)) c = .gone s' → TrapEnds s c t s'
  | user {cur : ℕ} : s.curenv c = some cur → s.status cur ≠ .dying →
      UserTrapEnds (trapEntry s c cur t) c cur t s' →
      TrapEnds s c t s'
  /-- A halted CPU wakes up. -/
  | wakes : ¬ t.tf.tfCs &&& 3 = 3 →
      trapReturn (s.setCpu c { s.cpus c with cpuStatus := .started }) c = .gone s' ∨
      schedYield (s.setCpu c { s.cpus c with cpuStatus := .started }) c = .gone s' →
      TrapEnds s c t s'

/-- **Every trap** that the kernel survives ends in one of these ways. -/
theorem trapEnds (h : trap s c t = .gone s') : TrapEnds s c t s' := by
  rw [trap] at h
  by_cases huser : t.tf.tfCs &&& 3 = 3
  · rw [if_pos huser] at h
    cases hcur : s.curenv c with
    | none =>
      simp only [hcur] at h
      cases h
    | some cur =>
      simp only [hcur] at h
      by_cases hdying : s.status cur = .dying
      · rw [if_pos hdying] at h
        rcases leaveWith_gone h with h | ⟨s₁, hfree, h⟩
        · exact (liftStop_ne_gone h).elim
        · exact .dying hcur hdying (liftStop_eq_ok.mp hfree) h
      · rw [if_neg hdying] at h
        exact .user hcur hdying (userTrapEnds (trapEntry_curenv hcur t) h)
  · rw [if_neg huser] at h
    unfold trapDispatchKernel at h
    split_ifs at h <;> simp only [leaveWith] at h
    · cases h
    · cases h
    · cases h
    · exact .wakes huser (.inl h)
    · exact .wakes huser (.inr h)
    · cases h

end

end JOS
