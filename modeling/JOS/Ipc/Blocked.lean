import JOS.Envs.Step
import JOS.Sched.Kill

/-!
# A blocked receiver

`sys_ipc_try_send` overwrites the status and the saved `eax` of the receiver, and the
flag `env_ipc_recving` is all it looks at. `sys_ipc_recv` sets the flag together with
`ENV_NOT_RUNNABLE`, and gives up the CPU. `sys_env_set_status` writes the status alone:
of an environment that is blocked it makes one that runs with the flag still set. In
the runs where that does not happen, and no environment is torn from the CPU it runs on
(`LeavesBlocked`), an environment with the flag is suspended in its call.
-/

namespace JOS

open JOS.General

variable {s₀ s s₁ s₂ s' : KState} {ev : Event} {c c' cur e : ℕ} {t : Table} {w : Write}

/-- The registers that the trap of a `sys_ipc_recv` saves. -/
def RecvFrame (tf : Trapframe) : Prop := tf.tfTrapno = T_SYSCALL ∧
    SysNo.ofWord tf.tfRegs.regEax = some .ipcRecv

/-- `e` is suspended inside `sys_ipc_recv`: no CPU runs it, and it has the registers of that
call. -/
def Suspended (s : KState) (e : ℕ) : Prop := (∀ c, s.curenv c ≠ some e) ∧ RecvFrame (s.envs e).envTf

/-- The event does not make an environment runnable that is blocked in `sys_ipc_recv` or runs on
another CPU, nor destroy one that another CPU runs and that is not `ENV_RUNNING`. -/
def LeavesBlocked (s : KState) (ev : Event) : Prop :=
  (∀ c e, SetsStatus s ev c e .runnable → (s.envs e).envIpcRecving = false ∧ ¬ Elsewhere s c e) ∧
    ∀ c e, Destroys s ev c e → Elsewhere s c e → s.status e = .running

/-! ### During a step -/

/-- An environment with the flag, at a moment of a step that began in `s` with `ev` on CPU `c`. -/
structure Waiting (s : KState) (ev : Event) (c e : ℕ) (t : Table) : Prop where
  /-- No other CPU runs it. -/
  apart : ∀ c' ≠ c, t.curenv c' ≠ some e
  /-- If it is still the environment of this CPU, it has just blocked. -/
  here : t.curenv c = some e → ∃ dstva, Blocks s ev c e dstva
  /-- It has had the flag before, or has just blocked. -/
  since : (s.envs e).envIpcRecving = true ∨ ∃ dstva, Blocks s ev c e dstva
  /-- It is not runnable. -/
  status : (t.envs e).envStatus ≠ .free → (t.envs e).envStatus = .notRunnable
  /-- It has the registers of its call. -/
  frame : (t.envs e).envStatus ≠ .free → RecvFrame (t.envs e).envTf

/-- The environments that have the flag between two steps. -/
def BlockedOk (s : KState) : Prop :=
  ∀ e, (s.envs e).envIpcRecving = true → (∀ c, s.curenv c ≠ some e) ∧
    (s.status e ≠ .free → s.status e = .notRunnable ∧ RecvFrame (s.envs e).envTf)

/-- A call blocks its own environment. -/
theorem Blocks.curenv {dstva : Word} (h : Blocks s ev c e dstva) : s.curenv c = some e := by
  obtain ⟨a, s₁, ⟨trap, -, hcur, -⟩, -⟩ := h
  exact hcur

/-- A call that blocks is no other call. -/
theorem Blocks.no {dstva : Word} {a : SysArgs} (h : Blocks s ev c e dstva)
    (hcall : SysCall s ev c' cur a s₁) :
    SysNo.ofWord a.no = some .ipcRecv := by
  obtain ⟨a', s₁', hcall', hno, -⟩ := h
  obtain ⟨-, -, rfl, -⟩ := hcall'.unique hcall
  exact hno

theorem Blocks.not_setsStatus {dstva : Word} {e' : ℕ} {st : EnvStatus} (h : Blocks s ev c e dstva) :
    ¬ SetsStatus s ev c' e' st := by
  rintro ⟨cur, a, s₁, hcall, hno, -⟩
  rw [h.no hcall] at hno
  cases hno

theorem Blocks.not_resumes {dstva : Word} {e' : ℕ} (h : Blocks s ev c e dstva) :
    ¬ Resumes s ev c' e' := by
  rintro ⟨trap, -, rfl, -, -, hno, -⟩
  obtain ⟨a, s₁, hcall, -⟩ := h
  exact not_sysCall_of_trapno (by rw [hno]; decide) hcall

namespace Waiting

/-- Only the record of `e` matters, and who runs it. -/
theorem congr {t' : Table} (h : Waiting s ev c e t) (hcur : t'.curenv = t.curenv)
    (he : t'.envs e = t.envs e) :
    Waiting s ev c e t' := by
  refine ⟨?_, ?_, h.since, ?_, ?_⟩
  · rw [hcur]; exact h.apart
  · rw [hcur]; exact h.here
  · rw [he]; exact h.status
  · rw [he]; exact h.frame

/-- A waiting environment is not the one that a CPU may go on with. -/
theorem not_running (h : Waiting s ev c e t) : (t.envs e).envStatus ≠ .running := fun hr => by
  have := h.status (by rw [hr]; decide)
  rw [hr] at this
  cases this

end Waiting

/-- Its status is set, by another environment. -/
theorem Waiting.setStatus {st : EnvStatus} (hok : LeavesBlocked s ev) (hw' : Waiting s ev c e t)
    (hset : SetsStatus s ev c e st) (htarget : t.curenv c = some e ∨ (t.envs e).envStatus ≠ .free) :
    Waiting s ev c e (t.write (.status e st)) := by
  have hold : (s.envs e).envIpcRecving = true := by
    refine hw'.since.resolve_right ?_
    rintro ⟨dstva, hb⟩
    exact hb.not_setsStatus hset
  have hst : st = .notRunnable := by
    refine hset.status.resolve_left ?_
    rintro rfl
    rw [(hok.1 c e hset).1] at hold
    cases hold
  have hfree : (t.envs e).envStatus ≠ .free := by
    refine htarget.resolve_left fun htcur => ?_
    obtain ⟨dstva, hb⟩ := hw'.here htcur
    exact hb.not_setsStatus hset
  refine ⟨hw'.apart, hw'.here, hw'.since, fun _ => ?_, fun _ => ?_⟩
  · simpa [Table.write] using hst
  · simpa [Table.write] using hw'.frame hfree

/-- The record of another environment is written. -/
theorem waiting_write_other (he : w.env ≠ some e)
    (h : (t.envs e).envIpcRecving = true → Waiting s ev c e t)
    (hrecv : ((t.write w).envs e).envIpcRecving = true) : Waiting s ev c e (t.write w) := by
  rcases Table.write_envs_of_ne he with henv | ⟨c', e', -, -, hr, henv⟩
  · have hw' : Waiting s ev c e t := h (by rwa [henv] at hrecv)
    -- what the CPUs run can only become something else
    have hless : ∀ c', (t.write w).curenv c' = some e → t.curenv c' = some e := by
      intro c' hc'
      by_cases hclear : w = .clear c'
      · rw [hclear] at hc'
        simp [Table.write] at hc'
      by_cases hrun : ∃ e', w = .run c' e'
      · obtain ⟨e', rfl⟩ := hrun
        have hc' : some e' = some e := by simpa [Table.write] using hc'
        exact absurd hc' he
      · rwa [Table.write_curenv_of_ne hclear fun e' h' => hrun ⟨e', h'⟩] at hc'
    refine ⟨fun c' hc' h' => hw'.apart c' hc' (hless c' h'), fun h' => hw'.here (hless c h'),
      hw'.since, ?_, ?_⟩
    · rw [henv]; exact hw'.status
    · rw [henv]; exact hw'.frame
  · have hw' : Waiting s ev c e t := h (by rwa [henv] at hrecv)
    exact absurd hr hw'.not_running

/-- Every write that is allowed keeps waiting environments waiting, and makes one only of the caller
of `sys_ipc_recv`. -/
theorem waiting_write (hs : BlockedOk s)
    (hinj : ∀ c c' e, s.curenv c = some e → s.curenv c' = some e → c = c')
    (hok : LeavesBlocked s ev) (hcur : ∀ c' ≠ c, t.curenv c' = s.curenv c')
    (h : (t.envs e).envIpcRecving = true → Waiting s ev c e t) (hw : Allowed s ev c t w)
    (hrecv : ((t.write w).envs e).envIpcRecving = true) : Waiting s ev c e (t.write w) := by
  by_cases he : w.env = some e
  · cases w with
    | frame e' tf =>
      cases he
      have hw' : Waiting s ev c e t := h (by simpa [Table.write] using hrecv)
      obtain ⟨hscur, htcur, ⟨rfl, -⟩ | ⟨hnb, -⟩⟩ := hw
      · have hold : (s.reset.table.envs e).envIpcRecving = true := by
          simpa [Table.write] using hrecv
        exact absurd hscur ((hs e hold).1 c)
      · obtain ⟨dstva, hb⟩ := hw'.here htcur
        exact absurd hb (hnb dstva)
    | alloc e' x =>
      cases he
      obtain ⟨-, ⟨parentId, st, ⟨pgdir, tf, rfl⟩, -⟩, -⟩ := hw
      simp [Table.write, Env.renew] at hrecv
    | free c' e' =>
      cases he
      have hw' : Waiting s ev c e t := h (by simpa [Table.write] using hrecv)
      refine ⟨hw'.apart, hw'.here, hw'.since, ?_, ?_⟩ <;> simp [Table.write]
    | zombie e' =>
      cases he
      have hw' : Waiting s ev c e t := h (by simpa [Table.write] using hrecv)
      exact absurd hw.1 hw'.not_running
    | status e' st =>
      cases he
      have hw' : Waiting s ev c e t := h (by simpa [Table.write] using hrecv)
      exact hw'.setStatus hok hw.1 hw.2
    | upcall e' func =>
      cases he
      have hw' : Waiting s ev c e t := h (by simpa [Table.write] using hrecv)
      refine ⟨hw'.apart, hw'.here, hw'.since, ?_, ?_⟩
      · simpa [Table.write] using hw'.status
      · simpa [Table.write] using hw'.frame
    | perm e' perm =>
      cases he
      have hw' : Waiting s ev c e t := h (by simpa [Table.write] using hrecv)
      refine ⟨hw'.apart, hw'.here, hw'.since, ?_, ?_⟩
      · simpa [Table.write] using hw'.status
      · simpa [Table.write] using hw'.frame
    | deliver e' sender value =>
      cases he
      simp [Table.write] at hrecv
    | recv e' dstva =>
      cases he
      obtain ⟨hb, trap, hev, htf⟩ := hw
      refine ⟨fun c' hc' => ?_, fun _ => ⟨dstva, hb⟩, .inr ⟨dstva, hb⟩, fun _ => ?_, fun _ => ?_⟩
      · have hne : t.curenv c' ≠ some e := by
          rw [hcur c' hc']
          exact fun h' => hc' (hinj _ _ _ h' hb.curenv)
        exact hne
      · simp [Table.write]
      · obtain ⟨a, s₁, ⟨trap', hev', -, -, hno, rfl, -⟩, hno', -⟩ := hb
        rw [hev] at hev'
        cases hev'
        have hframe : RecvFrame (t.envs e).envTf := by rw [htf]; exact ⟨hno, hno'⟩
        simpa [Table.write] using hframe
    | clear c' => cases he
    | run c' e' =>
      cases he
      rw [Table.write_run_self] at hrecv
      have hw' : Waiting s ev c e t := h hrecv
      obtain ⟨rfl, hst | ⟨htcur, hst | hres⟩⟩ := hw
      · have hnot := hw'.status (by rw [hst]; decide)
        rw [hst] at hnot
        cases hnot
      · exact absurd hst hw'.not_running
      · obtain ⟨dstva, hb⟩ := hw'.here htcur
        exact absurd hres hb.not_resumes
  · exact waiting_write_other he h hrecv

/-! ### In every state of a run -/

/-- A step that is allowed changes what other CPUs run only on its own CPU. -/
theorem Written.curenv (h : Written s ev c t) : ∀ c' ≠ c, t.curenv c' = s.curenv c' := by
  refine Reach.invariant (I := fun t => ∀ c' ≠ c, t.curenv c' = s.curenv c') h (fun _ _ => rfl) ?_
  rintro t _ w ht hw ⟨rfl⟩ c' hc'
  rw [← ht c' hc']
  refine Table.write_curenv_of_ne ?_ ?_
  · rintro rfl
    exact hc' hw.1
  · rintro e rfl
    exact hc' hw.1

/-- What has the flag during a step waits. -/
theorem Written.waiting (h : Written s ev c t) (hs : BlockedOk s)
    (hinj : ∀ c c' e, s.curenv c = some e → s.curenv c' = some e → c = c')
    (hok : LeavesBlocked s ev)
    (hrecv : (t.envs e).envIpcRecving = true) : Waiting s ev c e t := by
  have hwait : Written s ev c t ∧ ((t.envs e).envIpcRecving = true → Waiting s ev c e t) := by
    refine Reach.invariant (I := fun t => Written s ev c t ∧
      ((t.envs e).envIpcRecving = true → Waiting s ev c e t)) h ⟨Written.start, fun hr => ?_⟩ ?_
    · obtain ⟨hcur, hst⟩ := hs e hr
      exact ⟨fun c _ => hcur c, fun hc => absurd hc (hcur _), .inl hr, fun hf => (hst hf).1,
        fun hf => (hst hf).2⟩
    · rintro t _ w ⟨hwr, hw⟩ hall ⟨rfl⟩
      exact ⟨hwr.write hall, waiting_write hs hinj hok hwr.curenv hw hall⟩
  exact hwait.2 hrecv

/-- What waits at the end of a step waits between two steps. -/
theorem BlockedOk.step (h : BlockedOk s)
    (hinj : ∀ c c' e, s.curenv c = some e → s.curenv c' = some e → c = c')
    (hok : LeavesBlocked s ev) (hs : JOS.step s ev = some s') : BlockedOk s' := by
  intro e hrecv
  have hw : Waiting s ev ev.cpu e s'.table := (step_written hs).waiting h hinj hok hrecv
  refine ⟨fun c hc => ?_, fun hf => ⟨hw.status hf, hw.frame hf⟩⟩
  by_cases hcc : c = ev.cpu
  · subst hcc
    obtain ⟨dstva, hb⟩ := hw.here hc
    obtain ⟨a, s₁, ⟨trap, hev, -⟩, -⟩ := id hb
    have hsettled := (step_logged hs).2.1 ev.cpu (by rw [hev]; rfl)
    exact hw.not_running (hsettled.2 e hc).1
  · exact hw.apart c hcc hc

theorem Booted.blockedOk (h : Booted s₀) : BlockedOk s₀ := by
  refine fun e _ => ⟨fun c hc => ?_, fun hf => absurd (h.envs e).1 hf⟩
  rw [h.cpus c] at hc
  cases hc

/-- The trap of a system call changes nothing but the caller's registers. -/
theorem SysCall.envs {a : SysArgs} (hcall : SysCall s ev c cur a s₁) (e : ℕ) :
    ∃ tf, s₁.envs e = { s.envs e with envTf := tf } ∧ (e ≠ cur → tf = (s.envs e).envTf) := by
  obtain ⟨trap, -, -, -, -, -, rfl⟩ := hcall
  by_cases hce : e = cur
  · subst hce
    exact ⟨trap.tf, trapEntry_envs _ _ _ _, fun h => absurd rfl h⟩
  · exact ⟨(s.envs e).envTf, Function.update_of_ne hce _ _, fun _ => rfl⟩

/-- The receiver of a send had the flag before the call. -/
theorem Sends.recving (h : Sends s ev c e) : (s.envs e).envIpcRecving = true := by
  obtain ⟨cur, a, s₁, hcall, -, hargs, -⟩ := h
  have hrecv := ipcSendArgs_recving hargs
  obtain ⟨tf, henv, -⟩ := hcall.envs e
  rwa [henv] at hrecv

/-- The system calls of such a run leave the environments of other CPUs alone. -/
theorem LeavesBlocked.others (h : LeavesBlocked s ev) (hs : BlockedOk s) :
    LeavesOthers NotFreeOrRunnable s ev := by
  refine ⟨fun c e st hset helse => ?_, fun c e hsends ⟨c', _, hc'⟩ =>
    (hs e hsends.recving).1 c' hc', h.2⟩
  rcases hset.status with rfl | rfl
  · exact absurd helse (h.1 c e hset).2
  · exact ⟨by simp, by simp⟩

theorem blockedOk_of_reach (h₀ : Booted s₀) (h : Reach JOS.step LeavesBlocked s₀ s) :
    OneCpu NotFreeOrRunnable none s.procs ∧ FreeOk s.procs ∧ BlockedOk s := by
  refine h.invariant (I := fun s => OneCpu NotFreeOrRunnable none s.procs ∧ FreeOk s.procs ∧
    BlockedOk s)
    ⟨h₀.oneCpu, h₀.freeOk, h₀.blockedOk⟩ ?_
  rintro s s' ev ⟨hone, hfree, hblocked⟩ hok hs
  exact ⟨hone.step occupied_notFreeOrRunnable hfree (hok.others hblocked) hs, hfree.step hs,
    hblocked.step hone.inj hok hs⟩

/-- Every environment that is not free and has the flag is `ENV_NOT_RUNNABLE`, inside its
`sys_ipc_recv`. -/
def FlagMeansBlocked (s : KState) : Prop :=
  ∀ e, s.status e ≠ .free → (s.envs e).envIpcRecving = true → s.status e = .notRunnable ∧
    Suspended s e

/-- What a `sys_ipc_try_send` changes the status or the saved `eax` of. -/
def SendWrites (s₁ s₂ : KState) (e : ℕ) : Prop :=
  s₂.status e ≠ s₁.status e ∨ (s₂.envs e).envTf.tfRegs.regEax ≠ (s₁.envs e).envTf.tfRegs.regEax

/-- **Only a blocked receiver can be sent to**, in any run that leaves blocked environments alone:
an environment that a `sys_ipc_try_send` writes to is suspended in `sys_ipc_recv`. -/
theorem flagMeansBlocked_of_reach (h₀ : Booted s₀) (h : Reach JOS.step LeavesBlocked s₀ s) :
    FlagMeansBlocked s ∧
    ∀ ev c cur a s₁ r s₂ e, SysCall s ev c cur a s₁ →
      sysIpcTrySend s₁ cur a.a1 a.a2 a.a3 a.a4 = .ok (r, s₂) →
      SendWrites s₁ s₂ e → s.status e = .notRunnable ∧ Suspended s e := by
  obtain ⟨-, -, hblocked⟩ := blockedOk_of_reach h₀ h
  refine ⟨fun e hf hr => ?_, ?_⟩
  · obtain ⟨hcur, hst⟩ := hblocked e hr
    exact ⟨(hst hf).1, hcur, (hst hf).2⟩
  intro ev c cur a s₁ r s₂ e hcall hr hwrites
  have hsame : s₂.table.envs e = s₁.table.envs e → False := by
    intro hsame
    have hsame : s₂.envs e = s₁.envs e := hsame
    rcases hwrites with hne | hne
    · exact hne (congrArg Env.envStatus hsame)
    · exact hne (by rw [hsame])
  rcases sysIpcTrySend_writes hr with ht | ⟨e', t, hargs, -, ht, ht'⟩
  · exact (hsame (by rw [ht])).elim
  · -- the environment is the receiver
    by_cases hee : e = e'
    · subst hee
      obtain ⟨tf, henv, -⟩ := hcall.envs e
      have hrecv : (s.envs e).envIpcRecving = true := by
        have := ipcSendArgs_recving hargs
        rwa [henv] at this
      obtain ⟨hcur, hst⟩ := hblocked e hrecv
      have hfree : s.status e ≠ .free := by
        obtain ⟨trap, -, hcur', -⟩ := id hcall
        rcases envid2env_some (ipcSendArgs_ok hargs) with rfl | hf
        · exact absurd hcur' (hcur c)
        · rw [KState.status, henv] at hf
          exact hf
      exact ⟨(hst hfree).1, hcur, (hst hfree).2⟩
    · have henvs : t.envs e = s₁.table.envs e := by
        rcases ht with rfl | rfl
        · rfl
        · exact Table.setEnv_envs_of_ne hee
      refine (hsame ?_).elim
      rw [ht', ← henvs]
      exact Table.setEnv_envs_of_ne hee

/-- A trap that is not a call of `sys_env_set_status` or `sys_env_destroy`. -/
theorem leavesBlocked_of_no {trap : TrapIn} (h₁ : SysNo.ofWord trap.args.no ≠ some .envSetStatus)
    (h₂ : SysNo.ofWord trap.args.no ≠ some .envDestroy) : LeavesBlocked s (.trap c trap) := by
  refine ⟨?_, ?_⟩
  · rintro c' e ⟨cur, a, s₁, ⟨trap', hev, -, -, -, rfl, -⟩, hno, -⟩
    cases hev
    exact absurd hno h₁
  · rintro c' e ⟨cur, a, s₁, ⟨trap', hev, -, -, -, rfl, -⟩, hno, -⟩
    cases hev
    exact absurd hno h₂

theorem leavesBlocked_of_not_trap (hev : ∀ c trap, ev ≠ .trap c trap) : LeavesBlocked s ev :=
  ⟨fun _ _ ⟨_, _, _, h, _⟩ => (not_sysCall hev h).elim, fun _ _ ⟨_, _, _, h, _⟩ =>
    (not_sysCall hev h).elim⟩

/-- Of two environments the first blocks in `sys_ipc_recv`, and the second goes on. -/
theorem flagMeansBlocked_recv : ∃ s, Reach JOS.step LeavesBlocked (bootState 1) s ∧
    (s.envs 0).envIpcRecving = true ∧ s.status 0 = .notRunnable ∧ FlagMeansBlocked s := by
  have hrun : (([Event.create 0 emptyElf, .create 0 emptyElf, .start 0,
      .trap 0 (sysTrap 12 0 0 0 0 0)].foldlM
      JOS.step (bootState 1)).map fun s => ((s.envs 0).envIpcRecving, s.status 0)) =
          some (true, .notRunnable) := by
    decide +kernel
  obtain ⟨s, hs, h⟩ := Option.map_eq_some_iff.mp hrun
  have hreach : Reach JOS.step LeavesBlocked (bootState 1) s := by
    refine Reach.of_foldlM hs fun t ev hev => ?_
    simp only [List.mem_cons, List.not_mem_nil, or_false] at hev
    rcases hev with rfl | rfl | rfl | rfl
    · exact leavesBlocked_of_not_trap (by simp)
    · exact leavesBlocked_of_not_trap (by simp)
    · exact leavesBlocked_of_not_trap (by simp)
    · exact leavesBlocked_of_no (by decide) (by decide)
  exact ⟨s, hreach, congrArg Prod.fst h, congrArg Prod.snd h,
    (flagMeansBlocked_of_reach (bootState_booted 1) hreach).1⟩

/-- An environment forks a child, makes it runnable and yields; the child calls `sys_ipc_recv`; the
parent makes it runnable again and yields; the child, which has the flag and runs, yields. -/
def recvRun : List Event :=
  [.create 0 emptyElf, .start 0, .trap 0 (sysTrap 7 0 0 0 0 0), .trap 0 (sysTrap 8 0x1001 2 0 0 0),
    .trap 0 (sysTrap 10 0 0 0 0 0), .trap 0 (sysTrap 12 UTOP 0 0 0 0),
    .trap 0 (sysTrap 8 0x1001 2 0 0 0),
    .trap 0 (sysTrap 10 0 0 0 0 0), .trap 0 (sysTrap 10 0 0 0 0 0)]

/-- After `recvRun` the child is runnable in the middle of other computation, and a
`sys_ipc_try_send` of its parent to it completes. -/
theorem not_flagMeansBlocked : ∃ s s', Reach JOS.step (fun _ _ => True) (bootState 1) s ∧
    (s.envs 1).envIpcRecving = true ∧ s.status 1 = .runnable ∧ ¬ FlagMeansBlocked s ∧
    JOS.step s (.trap 0 (sysTrap 11 0x1001 5 UTOP 0 0)) = some s' ∧ .ipc 1 ∈ s'.acts ∧
    (s.envs 1).envTf.tfRegs.regEax = 10 ∧ (s'.envs 1).envTf.tfRegs.regEax = 0 := by
  have hrun : ((recvRun.foldlM JOS.step (bootState 1)).bind fun s =>
      (JOS.step s (.trap 0 (sysTrap 11 0x1001 5 UTOP 0 0))).map fun s' =>
        ((s.envs 1).envIpcRecving, s.status 1,
        decide (.ipc 1 ∈ s'.acts), (s.envs 1).envTf.tfRegs.regEax,
        (s'.envs 1).envTf.tfRegs.regEax)) =
      some (true, .runnable, true, 10, 0) := by decide +kernel
  obtain ⟨s, hs, hrun⟩ := Option.bind_eq_some_iff.mp hrun
  obtain ⟨s', hs', h⟩ := Option.map_eq_some_iff.mp hrun
  simp only [Prod.mk.injEq, decide_eq_true_eq] at h
  obtain ⟨hrecv, hst, hipc, heax, heax'⟩ := h
  refine ⟨s, s', Reach.of_foldlM hs fun _ _ _ => trivial, hrecv, hst, fun h => ?_, hs', hipc,
    heax, heax'⟩
  have := (h 1 (by rw [hst]; decide) hrecv).1
  rw [hst] at this
  cases this

end JOS
