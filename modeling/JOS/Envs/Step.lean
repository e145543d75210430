import JOS.Envs.Table
import JOS.Sched.Teardown

/-!
# What one step writes into the table of environments

Every step of the machine is a run of writes into the table of environments, each of
them when the code allows it (`step_written`). What is allowed says which event asked for
the write, and what the records it looks at say at that point.
-/

namespace JOS

open JOS.General

open Function (update)

variable {s s' s₁ s₂ : KState} {ev : Event} {c cur e : ℕ} {t : Table} {w : Write} {st : EnvStatus}
  {dstva sender value : Word}

/-! ### What an event asks for -/

/-- `sys_ipc_recv(dstva)` by `e` on CPU `c`, past its check. -/
def Blocks (s : KState) (ev : Event) (c e : ℕ) (dstva : Word) : Prop :=
  ∃ a s₁, SysCall s ev c e a s₁ ∧ SysNo.ofWord a.no = some .ipcRecv ∧ dstva = a.a1 ∧
    ¬ (dstva < UTOP ∧ PGOFF dstva ≠ 0)

/-- A `sys_ipc_try_send` of `value` to `e` on CPU `c`, past its checks, by the environment with id
`sender`. -/
def Delivers (s : KState) (ev : Event) (c e : ℕ) (sender value : Word) : Prop :=
  ∃ cur a s₁, SysCall s ev c cur a s₁ ∧ SysNo.ofWord a.no = some .ipcTrySend ∧
    ipcSendArgs s₁ cur a.a1 = .ok e ∧
    (a.a3 < UTOP → ∃ s₂, ipcSendPage s₁ cur e a.a3 a.a4 = .ok (0, s₂)) ∧
    sender = (s.envs cur).envId ∧ value = a.a2

theorem Delivers.sends (h : Delivers s ev c e sender value) : Sends s ev c e := by
  obtain ⟨cur, a, s₁, hcall, hno, hargs, hpage, -, -⟩ := h
  exact ⟨cur, a, s₁, hcall, hno, hargs, hpage⟩

/-- When a write may happen: `t` is the table when it does, in a step that began in `s` with `ev` on
CPU `c`. -/
def Allowed (s : KState) (ev : Event) (c : ℕ) (t : Table) : Write → Prop
  | .frame e tf => s.curenv c = some e ∧ t.curenv c = some e ∧
      (t = s.reset.table ∧ (∃ trap, ev = .trap c trap ∧ tf = trap.tf) ∨
        (∀ dstva, ¬ Blocks s ev c e dstva) ∧ tf.tfEflags = (t.envs e).envTf.tfEflags)
  | .alloc e x => s.envFreeList = some e ∧ (∃ parentId st, (t.envs e).Made e parentId st x ∧
      (st = .runnable ∨ st = .notRunnable)) ∧
      (x.envTf.tfEflags = FL_IF ∨ ∃ cur, t.curenv c = some cur ∧
        x.envTf.tfEflags = (t.envs cur).envTf.tfEflags)
  | .free c' e => c' = c ∧ (s.curenv c = some e ∨ Destroys s ev c e)
  | .zombie e => (t.envs e).envStatus = .running ∧ t.curenv c ≠ some e ∧ Destroys s ev c e
  | .status e st => SetsStatus s ev c e st ∧ (t.curenv c = some e ∨ (t.envs e).envStatus ≠ .free)
  | .upcall e _ => ∃ cur a s₁, SysCall s ev c cur a s₁ ∧ envid2env s₁ cur a.a1 true = some e
  | .perm e _ => Sends s ev c e
  | .deliver e sender value => Delivers s ev c e sender value ∧ (t.envs e).envIpcRecving = true ∧
      (t.curenv c = some e ∨ (t.envs e).envStatus ≠ .free)
  | .recv e dstva => Blocks s ev c e dstva ∧ ∃ trap, ev = .trap c trap ∧
      t.envs e = { s.envs e with envTf := trap.tf }
  | .clear c' => c' = c ∧ ∀ e, t.curenv c = some e → (t.envs e).envStatus ≠ .running
  | .run c' e => c' = c ∧ ((t.envs e).envStatus = .runnable ∨
      t.curenv c = some e ∧ ((t.envs e).envStatus = .running ∨ Resumes s ev c e))

/-- Since the step began in `s`, the table has become `t` by writes that are allowed. -/
def Written (s : KState) (ev : Event) (c : ℕ) (t : Table) : Prop :=
  Reach (fun t w => some (t.write w)) (Allowed s ev c) s.reset.table t

namespace Written

theorem start : Written s ev c s.reset.table := Reach.refl _

theorem write (h : Written s ev c t) (hw : Allowed s ev c t w) : Written s ev c (t.write w) :=
  Reach.tail h hw rfl

/-- What `sched_yield` does is allowed. -/
theorem schedules (h : Written s ev c t) (hw : Schedules c t w) : Written s ev c (t.write w) := by
  refine h.write ?_
  cases w with
  | run c' e =>
    obtain ⟨rfl, hst | ⟨hc, hst⟩⟩ := hw
    · exact ⟨rfl, .inl hst⟩
    · exact ⟨rfl, .inr ⟨hc, .inl hst⟩⟩
  | clear c' => exact hw
  | _ => exact hw.elim

theorem schedYield (h : Written s ev c s₁.table) (hs : schedYield s₁ c = .gone s') :
    Written s ev c s'.table := by
  obtain ⟨w, ht, hw⟩ := schedYield_writes hs
  rw [ht]
  exact h.schedules hw

/-- A step in which the environment of the CPU is freed. -/
theorem leaves {t' : Table} (h : Written s ev c t) (hcur : s.curenv c = some e)
    (htcur : t.curenv c = some e)
    (hl : Leaves c e t t') : Written s ev c t' := by
  obtain ⟨w, rfl, hw⟩ := hl
  refine ((h.write (w := .free c e) ⟨rfl, .inl hcur⟩).write (w := .clear c)
    ⟨rfl, fun e' he' => ?_⟩).schedules hw
  have he' : t.curenv c = some e' := he'
  rw [htcur] at he'
  cases he'
  simp [Table.write, Table.log]

end Written

/-! ### How an entry into the kernel ends -/

/-- The trap `ev` ends in an `env_run(curenv)` of its own: `page_fault_handler` resumes the
environment at its upcall, or `trap_dispatch` has come back and the environment is still running. -/
def GoesOn (s : KState) (ev : Event) (c : ℕ) : Prop :=
  ∃ trap cur, ev = .trap c trap ∧ s.curenv c = some cur ∧ s.status cur ≠ .dying ∧
    (Resumes s ev c cur ∨
      ∃ s₁, trapDispatch (trapEntry s.reset c cur trap) c cur trap = .ok s₁ ∧
      s₁.status cur = .running)

/-- How the entry into the kernel ends that began in `s`. -/
inductive Ends (s : KState) (ev : Event) (c : ℕ) (s' : KState) : Prop where
  /-- By `sched_yield`. -/
  | yields {s₁ : KState} : Written s ev c s₁.table → s₁.curenv c = s.curenv c →
    schedYield s₁ c = .gone s' → Ends s ev c s'
  /-- By `sched_yield`, after the environment of the CPU is freed. -/
  | exits {t : Table} {e : ℕ} : Written s ev c t → s.curenv c = some e → t.curenv c = some e →
      Leaves c e t s'.table →
      Ends s ev c s'
  /-- By `env_run(curenv)`. -/
  | goesOn {t : Table} {e : ℕ} : Written s ev c t → GoesOn s ev c → s.curenv c = some e →
      t.curenv c = some e →
      (t.envs e).envStatus = .running ∨ Resumes s ev c e → s'.table = t.write (.run c e) →
      Ends s ev c s'

namespace Ends

theorem written (h : Ends s ev c s') : Written s ev c s'.table := by
  cases h with
  | yields hw _ hs => exact hw.schedYield hs
  | exits hw hcur htcur hl => exact hw.leaves hcur htcur hl
  | goesOn hw _ _ htcur hst ht =>
    rw [ht]
    exact hw.write ⟨rfl, .inr ⟨htcur, hst⟩⟩

/-- The end of `trap`. -/
theorem trapReturn (hw : Written s ev c s₁.table) (hcur : s₁.curenv c = s.curenv c)
    (hgo : ∀ cur, s.curenv c = some cur → s₁.status cur = .running → GoesOn s ev c)
    (hs : trapReturn s₁ c = .gone s') : Ends s ev c s' := by
  rcases trapReturn_cases hs with ⟨cur, hc, hr, hs⟩ | hs
  · have hscur : s.curenv c = some cur := hcur ▸ hc
    exact .goesOn hw (hgo cur hscur hr) hscur hc (.inl hr) (envRun_writes hs)
  · exact .yields hw hcur hs

end Ends

/-! ### System calls -/

/-- The table in which `trap_dispatch` gets a trap from user mode. -/
theorem table_trapEntry (s : KState) (c cur : ℕ) (trap : TrapIn) :
    (trapEntry s c cur trap).table = s.table.write (.frame cur trap.tf) := by
  have h : (s.setCpu c { s.cpus c with cpuStatus := .started }).table = s.table :=
    table_setCpu_same rfl
  rw [trapEntry, table_setEnv, h]
  rfl

theorem written_trapEntry {trap : TrapIn} (hev : ev = .trap c trap) (hcur : s.curenv c = some cur) :
    Written s ev c (trapEntry s.reset c cur trap).table := by
  rw [table_trapEntry]
  exact Written.start.write ⟨hcur, hcur, .inl ⟨rfl, trap, hev, rfl⟩⟩

theorem SysCall.written {a : SysArgs} (hcall : SysCall s ev c cur a s₁) :
    Written s ev c s₁.table := by
  obtain ⟨trap, hev, hcur, -, -, -, rfl⟩ := hcall
  exact written_trapEntry hev hcur

/-- The caller's record in the state the call starts in. -/
theorem SysCall.envId {a : SysArgs} (hcall : SysCall s ev c cur a s₁) :
    (s₁.envs cur).envId = (s.envs cur).envId := by
  obtain ⟨trap, -, -, -, -, -, rfl⟩ := hcall
  rw [trapEntry_envs]
  rfl

theorem SysCall.envFreeList {a : SysArgs} (hcall : SysCall s ev c cur a s₁) :
    s₁.envFreeList = s.envFreeList := by
  obtain ⟨trap, -, -, -, -, -, rfl⟩ := hcall
  rfl

/-- The caller of a system call is still the environment of the CPU. -/
theorem SysCall.table_curenv {a : SysArgs} (hcall : SysCall s ev c cur a s₁) :
    s₁.table.curenv c = some cur := by
  obtain ⟨trap, -, hcur, -, -, -, rfl⟩ := hcall
  rw [table_trapEntry]
  exact hcur

/-- The receiver of a send is receiving. -/
theorem ipcSendArgs_recving {envid : Word} (h : ipcSendArgs s cur envid = .ok e) :
    (s.envs e).envIpcRecving = true := by
  rw [ipcSendArgs] at h
  cases henv : envid2env s cur envid false with
  | none => simp [henv] at h
  | some e' =>
    simp only [henv] at h
    split_ifs at h with hrecv
    cases h
    simpa using hrecv

/-- A system call that returns: its caller still runs. -/
theorem syscall_ok_written {a : SysArgs} {r : Word} (hcall : SysCall s ev c cur a s₁)
    (h : syscall s₁ c cur a = .ok (r, s₂)) : Written s ev c s₂.table ∧
    s₂.table.curenv = s₁.table.curenv := by
  have hw : Written s ev c s₁.table := hcall.written
  have htcur : s₁.table.curenv c = some cur := hcall.table_curenv
  have hsame : s₂.table = s₁.table → Written s ev c s₂.table ∧ s₂.table.curenv = s₁.table.curenv :=
    fun ht => ⟨ht ▸ hw, congrArg _ ht⟩
  cases syscall_returns htcur h with
  | same => exact hsame rfl
  | envDestroy hno henv hd =>
    have hdestroys : Destroys s ev c _ := ⟨cur, a, s₁, hcall, hno, henv⟩
    obtain ⟨hne, ⟨hst, ht⟩ | ht⟩ := envDestroy_writes hd
    · rw [ht]
      exact ⟨hw.write ⟨hst, hne, hdestroys⟩, rfl⟩
    · rw [ht]
      exact ⟨hw.write ⟨rfl, .inr hdestroys⟩, rfl⟩
  | pageAlloc _ h => exact hsame (sysPageAlloc_memOnly h).table
  | pageMap _ h => exact hsame (sysPageMap_memOnly h).table
  | pageUnmap _ h => exact hsame (sysPageUnmap_memOnly h).table
  | exofork _ h =>
    rcases sysExofork_writes h with ht | ⟨e, x, hfl, hmade, hflags, ht⟩
    · exact hsame ht
    · rw [ht]
      have hflags' : x.envTf.tfEflags = FL_IF ∨ ∃ cur, s₁.table.curenv c = some cur ∧
          x.envTf.tfEflags = (s₁.table.envs cur).envTf.tfEflags :=
            hflags.imp_right fun hp => ⟨cur, htcur, hp⟩
      exact ⟨hw.write ⟨hcall.envFreeList ▸ hfl, ⟨_, _, hmade, .inr rfl⟩, hflags'⟩, rfl⟩
  | @envSetStatus e st hno hst henv =>
    have htarget : s₁.table.curenv c = some e ∨ (s₁.table.envs e).envStatus ≠ .free := by
      refine (envid2env_some henv).imp_left ?_
      rintro rfl
      exact htcur
    exact ⟨hw.write (w := .status e st) ⟨⟨cur, a, s₁, hcall, hno, hst, henv⟩, htarget⟩, rfl⟩
  | @envSetPgfaultUpcall e _ henv =>
      exact ⟨hw.write (w := .upcall e a.a2) ⟨cur, a, s₁, hcall, henv⟩, rfl⟩
  | ipcTrySend hno h =>
    rcases sysIpcTrySend_writes h with ht | ⟨e, t, hargs, hpage, ht, ht'⟩
    · exact hsame ht
    · have hd : Delivers s ev c e (s₁.envs cur).envId a.a2 :=
        ⟨cur, a, s₁, hcall, hno, hargs, hpage, hcall.envId, rfl⟩
      have hrecving : (s₁.table.envs e).envIpcRecving = true := ipcSendArgs_recving hargs
      have htarget : s₁.table.curenv c = some e ∨ (s₁.table.envs e).envStatus ≠ .free := by
        refine (envid2env_some (ipcSendArgs_ok hargs)).imp_left ?_
        rintro rfl
        exact htcur
      rw [ht']
      rcases ht with rfl | rfl
      · exact ⟨hw.write ⟨hd, hrecving, htarget⟩, rfl⟩
      · have hkept : ((s₁.table.write (.perm e a.a4)).envs e).envIpcRecving = true := by
          simpa [Table.write] using hrecving
        have htarget' : (s₁.table.write (.perm e a.a4)).curenv c = some e ∨
            ((s₁.table.write (.perm e a.a4)).envs e).envStatus ≠ .free := by
          simpa [Table.write] using htarget
        exact ⟨(hw.write (w := .perm e a.a4) hd.sends).write ⟨hd, hkept, htarget'⟩, rfl⟩

/-- A call that returns has not blocked its caller. -/
theorem not_blocks_of_syscall_ok {a : SysArgs} {r : Word} (hcall : SysCall s ev c cur a s₁)
    (h : syscall s₁ c cur a = .ok (r, s₂)) : ∀ dstva, ¬ Blocks s ev c cur dstva := by
  rintro dstva ⟨a', s₁', hcall', hno, rfl, hok⟩
  obtain ⟨-, -, rfl, rfl⟩ := hcall.unique hcall'
  rw [syscall, hno] at h
  simp only [sysIpcRecv, if_neg hok] at h
  cases h

/-- A system call that does not return. -/
theorem syscall_gone_ends {a : SysArgs} (hcall : SysCall s ev c cur a s₁)
    (h : syscall s₁ c cur a = .error (.gone s')) : Ends s ev c s' := by
  have hw : Written s ev c s₁.table := hcall.written
  obtain ⟨trap, hev, hcur, -, -, rfl, hs₁⟩ := id hcall
  have htcur : s₁.table.curenv c = some cur := hcall.table_curenv
  have hframe : s₁.table.envs cur = { s.envs cur with envTf := trap.tf } := by
    rw [hs₁, table_trapEntry]
    simp [Table.write, KState.table, KState.reset]
  rcases syscall_gone_cases h with ⟨-, h⟩ | ⟨hno, hok, h⟩ | ⟨e, -, -, h⟩ | ⟨-, h⟩
  · exact .yields hw (htcur.trans hcur.symm) h
  · have hrecv : Written s ev c (blocked s₁ cur trap.args.a1).table :=
      hw.write (w := .recv cur trap.args.a1) ⟨⟨_, s₁, hcall, hno, rfl, hok⟩, trap, hev, hframe⟩
    exact Ends.yields hrecv (show (blocked s₁ cur trap.args.a1).curenv c =
      s.curenv c from htcur.trans hcur.symm) h
  · obtain ⟨hce, hl⟩ := envDestroy_leaves h
    have hce : s₁.table.curenv c = some e := hce
    rw [htcur] at hce
    cases hce
    exact .exits hw hcur htcur hl
  · exact .exits hw hcur htcur (envDestroy_leaves h).2

/-! ### Traps -/

/-- Only a system call blocks. -/
theorem not_blocks_of_trapno {trap : TrapIn} (hev : ev = .trap c trap)
    (hno : trap.tf.tfTrapno ≠ T_SYSCALL) (dstva : Word) :
    ¬ Blocks s ev c e dstva := by
  rintro ⟨a, s₁, hcall, -⟩
  rw [hev] at hcall
  exact not_sysCall_of_trapno hno hcall

/-- `page_fault_handler` destroys the environment, or resumes it at its upcall. -/
theorem pageFaultHandler_ends {trap : TrapIn} (hev : ev = .trap c trap)
    (hno : trap.tf.tfTrapno = T_PGFLT)
    (hdying : s.status cur ≠ .dying) (hcur : s.curenv c = some cur)
    (h : pageFaultHandler (trapEntry s.reset c cur trap) c cur trap.cr2 = .error (.gone s')) :
    Ends s ev c s' := by
  have hw : Written s ev c (trapEntry s.reset c cur trap).table := written_trapEntry hev hcur
  have hlog := (pageFaultHandler_gone hev hno hdying hcur h).1
  have henv := trapEntry_envs s.reset c cur trap
  have htcur : (trapEntry s.reset c cur trap).table.curenv c = some cur := by
    rw [table_trapEntry]
    exact hcur
  have hmem : (trapEntry s.reset c cur trap).mem = s.mem := rfl
  have hnb : ∀ dstva, ¬ Blocks s ev c cur dstva :=
    not_blocks_of_trapno hev (by rw [hno]; decide)
  generalize trapEntry s.reset c cur trap = s₁ at h hw htcur henv hmem
  have hcur₁ : s₁.curenv c = some cur := htcur
  rcases pageFaultHandler_cases hcur₁ h with h | ⟨hup, hassert, m, -, h⟩
  · exact .exits hw hcur htcur (envDestroy_leaves h).2
  · cases hp : (s₁.envs cur).envPgdir with
    | none => simp [userMemAssert, hp, deref, liftStop] at hassert
    | some pgdir =>
      have hcheck := ((userMemAssert_eq_ok hcur₁ hp).mp hassert).2
      rw [henv] at hup hp hcheck
      rw [hmem] at hcheck
      have hres : Resumes s ev c cur := ⟨trap, pgdir, hev, hcur, hdying, hno, hup, hp, hcheck⟩
      have hframe : Allowed s ev c s₁.table (.frame cur { (s₁.envs cur).envTf with
          tfEip := (s₁.envs cur).envPgfaultUpcall, tfEsp := utfAddr (s₁.envs cur).envTf.tfEsp }) :=
        ⟨hcur, htcur, .inr ⟨hnb, rfl⟩⟩
      refine .goesOn (hw.write hframe) ⟨trap, cur, hev, hcur, hdying, .inl hres⟩ hcur htcur
        (.inr hres) ?_
      rw [envRun_writes h, atUpcall, table_setEnv, table_mem]
      rfl

/-- `trap_dispatch` of a trap from user mode that comes back: the CPU still runs the same
environment. -/
theorem trapDispatch_ok {trap : TrapIn} (hev : ev = .trap c trap) (hdying : s.status cur ≠ .dying)
    (hcur : s.curenv c = some cur)
    (h : trapDispatch (trapEntry s.reset c cur trap) c cur trap = .ok s₁) :
    Written s ev c s₁.table ∧ s₁.table.curenv c = some cur := by
  have hw : Written s ev c (trapEntry s.reset c cur trap).table := written_trapEntry hev hcur
  have htcur : (trapEntry s.reset c cur trap).table.curenv c = some cur := by
    rw [table_trapEntry]
    exact hcur
  rw [trapDispatch] at h
  split_ifs at h with hpf hbp hsys hspur htimer
  · exact absurd h pageFaultHandler_ne_ok
  · have hcall : SysCall s ev c cur trap.args (trapEntry s.reset c cur trap) :=
      ⟨trap, hev, hcur, hdying, hsys, rfl, rfl⟩
    obtain ⟨⟨r, s₂⟩, hr, h⟩ := bind_eq_ok.mp h
    obtain ⟨hw₂, hcur₂⟩ := syscall_ok_written hcall hr
    rw [← hcur₂] at htcur
    have hframe : Allowed s ev c s₂.table (.frame cur { (s₂.envs cur).envTf with
        tfRegs := { (s₂.envs cur).envTf.tfRegs with regEax := r } }) :=
      ⟨hcur, htcur, .inr ⟨not_blocks_of_syscall_ok hcall hr, rfl⟩⟩
    cases h
    exact ⟨hw₂.write hframe, htcur⟩
  · cases h
    exact ⟨hw, htcur⟩
  · exact absurd h (envDestroy_curenv htcur)

/-- A trap from user mode. -/
theorem userTrap_ends {trap : TrapIn} (hev : ev = .trap c trap) (hdying : s.status cur ≠ .dying)
    (hcur : s.curenv c = some cur)
    (h : UserTrapEnds (trapEntry s.reset c cur trap) c cur trap s') : Ends s ev c s' := by
  have hw : Written s ev c (trapEntry s.reset c cur trap).table := written_trapEntry hev hcur
  have htcur : (trapEntry s.reset c cur trap).table.curenv c = some cur := by
    rw [table_trapEntry]
    exact hcur
  -- `trap_dispatch` comes back
  have hback : ∀ s₁, trapDispatch (trapEntry s.reset c cur trap) c cur trap = .ok s₁ →
      JOS.trapReturn s₁ c = .gone s' →
      Ends s ev c s' := by
    intro s₁ hok hreturn
    obtain ⟨hw₁, hcur₁⟩ := trapDispatch_ok hev hdying hcur hok
    refine .trapReturn hw₁ (hcur₁.trans hcur.symm) (fun cur' hcur' hst => ?_) hreturn
    rw [hcur] at hcur'
    cases hcur'
    exact ⟨trap, cur, hev, hcur, hdying, .inr ⟨s₁, hok, hst⟩⟩
  cases h with
  | pageFault hpf h => exact pageFaultHandler_ends hev hpf hdying hcur h
  | leaves hsys h => exact syscall_gone_ends ⟨trap, hev, hcur, hdying, hsys, rfl, rfl⟩ h
  | returns _ _ hok h => exact hback _ hok h
  | spurious hok h => exact hback _ hok h
  | timer h => exact .yields hw (htcur.trans hcur.symm) h
  | destroys h => exact .exits hw hcur htcur (envDestroy_leaves h).2

/-- A trap. -/
theorem trap_ends {trap : TrapIn} (hev : ev = .trap c trap) (hfits : trapFits s c trap = true)
    (h : JOS.trap s.reset c trap = .gone s') : Ends s ev c s' := by
  have hstarted : (s.reset.setCpu c { s.reset.cpus c with cpuStatus := .started }).table =
    s.reset.table :=
    table_setCpu_same rfl
  cases trapEnds h with
  | dying hcur _ hfree h =>
    have hl := leaves_of_envFree hfree h
    rw [hstarted] at hl
    exact .exits Written.start hcur hcur hl
  | user hcur hdying h => exact userTrap_ends hev hdying hcur h
  | wakes huser h =>
    have hidle : s.curenv c = none := by
      cases hcur : s.curenv c with
      | none => rfl
      | some cur =>
        simp only [trapFits, hcur, beq_iff_eq] at hfits
        exact absurd hfits huser
    have hw : Written s ev c
        (s.reset.setCpu c { s.reset.cpus c with cpuStatus := .started }).table := by
      rw [hstarted]
      exact Written.start
    have htcur : (s.reset.setCpu c { s.reset.cpus c with cpuStatus := .started }).curenv c =
      s.curenv c :=
      congrFun (congrArg Table.curenv hstarted) c
    rcases h with h | h
    · refine .trapReturn hw htcur (fun cur hcur => ?_) h
      rw [hidle] at hcur
      cases hcur
    · exact .yields hw htcur h

/-- The ways an entry into the kernel ends. -/
theorem step_ends (h : step s ev = some s') (henter : ev.enters = some c) : Ends s ev c s' := by
  cases ev with
  | create c' elf => cases henter
  | start c' =>
    cases henter
    simp only [step] at h
    split_ifs at h
    exact .yields Written.start rfl (state?_eq_some.mp h)
  | trap c' trap =>
    cases henter
    simp only [step] at h
    split_ifs at h with hfits
    exact trap_ends rfl hfits (state?_eq_some.mp h)
  | store c' va b => cases henter

/-- **Every step is a run of writes, each of them allowed.** -/
theorem step_written (h : step s ev = some s') : Written s ev ev.cpu s'.table := by
  cases ev with
  | create c elf =>
    cases hcreate : envCreate s.reset c elf with
    | error w => simp [step, hcreate, Except.toOption] at h
    | ok s₁ =>
      simp only [step, hcreate, Except.toOption, Option.some.injEq] at h
      subst h
      obtain ⟨e, x, hfl, hmade, hflags, ht⟩ := envCreate_writes hcreate
      rw [ht]
      exact Written.start.write ⟨hfl, ⟨_, _, hmade, .inl rfl⟩, .inl hflags⟩
  | start c => exact (step_ends h rfl).written
  | trap c trap => exact (step_ends h rfl).written
  | store c va b =>
    simp only [step, userStore] at h
    split_ifs at h
    split at h
    · split_ifs at h
      cases h
      exact Written.start
    · cases h

end JOS
