import JOS.Ipc.Blocked
import JOS.Spaces.Confined

/-!
# The registers that environments are left with

What a step makes of `env_tf`: of the environment that traps (`trap_records`), of an environment
that is made (`born_saved`, `created_saved`), and of all the others (`Written.saved`), of which only
one that waits for a message can notice.
-/

namespace JOS

open JOS.General

variable {s s' s₁ s₂ : KState} {ev : Event} {c cur e : ℕ} {t : TrapIn} {τ : Table} {w : Write}
  {x y : Env} {a : SysArgs} {r : Word}

/-- The frame to which a system call returns `r`. -/
def Trapframe.answered (tf : Trapframe) (r : Word) : Trapframe :=
  { tf with tfRegs := { tf.tfRegs with regEax := r } }

/-- The frame with which the upcall begins. -/
def Trapframe.atUpcall (tf : Trapframe) (upcall : Word) : Trapframe :=
  { tf with tfEip := upcall, tfEsp := utfAddr tf.tfEsp }

theorem Env.Kept.envTf (h : x.Kept y) : y.envTf = x.envTf := by
  obtain ⟨st, runs, cpu, -, rfl⟩ := h
  rfl

theorem Env.Kept.free (h : x.Kept y) (hx : x.envStatus = .free) : y.envStatus = .free := by
  obtain ⟨st, runs, cpu, hst, rfl⟩ := h
  rw [hx] at hst
  rcases hst with hst | ⟨hst | hst, -⟩
  · exact hst.symm
  · cases hst
  · cases hst

/-! ### Environments that do not trap -/

theorem Table.ipc_of_write (h : .ipc e ∈ (τ.write w).acts) :
    (∃ sender value, w = .deliver e sender value) ∨ .ipc e ∈ τ.acts := by
  cases w with
  | deliver e' sender value =>
    rcases List.mem_cons.mp h with heq | h
    · cases heq
      exact .inl ⟨_, _, rfl⟩
    · exact .inr h
  | run c' e' =>
    rw [Table.write_run_acts] at h
    exact .inr (List.mem_of_ne_of_mem (by simp) h)
  | frame e' tf => exact .inr h
  | upcall e' func => exact .inr h
  | perm e' perm => exact .inr h
  | _ => exact .inr (List.mem_of_ne_of_mem (by simp) h)

/-- The environment whose registers a write changes. -/
def Write.regs : Write → Option ℕ
  | .frame e _ => some e
  | .alloc e _ => some e
  | .deliver e _ _ => some e
  | _ => none

theorem Table.write_envTf (h : w.regs ≠ some e) :
    ((τ.write w).envs e).envTf = (τ.envs e).envTf := by
  by_cases hwe : w.env = some e
  · cases w with
    | frame e' tf => exact absurd hwe h
    | alloc e' x => exact absurd hwe h
    | deliver e' sender value => exact absurd hwe h
    | clear c' => cases hwe
    | run c' e' =>
      cases hwe
      rw [Table.write_run_self]
    | _ =>
      cases hwe
      simp only [Table.write, Table.log_envs, Table.setEnv_envs_self]
  · rcases Table.write_envs_of_ne hwe with heq | ⟨_, _, _, _, _, heq⟩ <;> rw [heq]

/-- **The registers of the others** stay, but for the result of `sys_ipc_recv`. -/
theorem Written.saved (h : Written s ev c τ) (hcur : s.curenv c ≠ some e)
    (hhead : s.envFreeList ≠ some e) :
    (τ.envs e).envTf = if .ipc e ∈ τ.acts then (s.envs e).envTf.answered 0
        else (s.envs e).envTf := by
  refine h.invariant (I := fun τ => (τ.envs e).envTf = if .ipc e ∈ τ.acts then
    (s.envs e).envTf.answered 0 else (s.envs e).envTf)
    rfl fun τ τ' w hτ hw hτ' => ?_
  cases hτ'
  by_cases hsend : ∃ sender value, w = .deliver e sender value
  · obtain ⟨sender, value, rfl⟩ := hsend
    have hmem : .ipc e ∈ (τ.write (.deliver e sender value)).acts := List.mem_cons_self
    have hanswered : ((τ.write (.deliver e sender value)).envs e).envTf =
        (τ.envs e).envTf.answered 0 := by
      simp only [Table.write, Table.log_envs, Table.setEnv_envs_self, Trapframe.answered]
    rw [if_pos hmem, hanswered, hτ]
    split_ifs <;> rfl
  · have hacts : .ipc e ∈ (τ.write w).acts ↔ .ipc e ∈ τ.acts :=
      ⟨fun hmem => (Table.ipc_of_write hmem).resolve_left hsend, Table.mem_acts_write⟩
    have hregs : w.regs ≠ some e := by
      intro hregs
      cases w with
      | frame e' tf =>
        cases hregs
        exact hcur hw.1
      | alloc e' x =>
        cases hregs
        exact hhead hw.1
      | deliver e' sender value =>
        cases hregs
        exact hsend ⟨sender, value, rfl⟩
      | _ => cases hregs
    rw [Table.write_envTf hregs, hτ]
    simp only [hacts]

/-- A free slot stays free until it is at the head of the list. -/
theorem Written.free (h : Written s ev c τ) (hfree : s.status e = .free)
    (hcur : ∀ c, s.curenv c ≠ some e)
    (hhead : s.envFreeList ≠ some e) : (τ.envs e).envStatus = .free ∧ ∀ c, τ.curenv c ≠ some e := by
  refine h.invariant (I := fun τ => (τ.envs e).envStatus = .free ∧ ∀ c, τ.curenv c ≠ some e)
    ⟨hfree, hcur⟩
    fun τ τ' w hτ hw hτ' => ?_
  cases hτ'
  obtain ⟨hst, hrun⟩ := hτ
  by_cases hwe : w.env = some e
  · -- what is written into the record of `e` leaves it free
    cases w with
    | frame e' tf =>
      cases hwe
      exact absurd hw.1 (hcur c)
    | alloc e' x =>
      cases hwe
      exact absurd hw.1 hhead
    | free c' e' =>
      cases hwe
      refine ⟨?_, hrun⟩
      simp only [Table.write, Table.log_envs, Table.setEnv_envs_self]
    | zombie e' =>
      cases hwe
      exact absurd (hst.symm.trans hw.1) (by decide)
    | status e' st =>
      cases hwe
      exact (hw.2.elim (hrun c) fun h => h hst).elim
    | upcall e' func =>
      cases hwe
      refine ⟨?_, hrun⟩
      rw [Table.write, Table.setEnv_envs_self, hst]
    | perm e' perm =>
      cases hwe
      refine ⟨?_, hrun⟩
      rw [Table.write, Table.setEnv_envs_self, hst]
    | deliver e' sender value =>
      cases hwe
      exact (hw.2.2.elim (hrun c) fun h => h hst).elim
    | recv e' dstva =>
      cases hwe
      exact absurd (hw.1.curenv) (hcur c)
    | clear c' => cases hwe
    | run c' e' =>
      cases hwe
      rcases hw.2 with hst' | ⟨hc, -⟩
      · rw [hst] at hst'
        cases hst'
      · exact absurd hc (hrun c)
  · refine ⟨?_, fun c' hc' => hrun c' (Table.curenv_of_write hc' hwe)⟩
    rcases Table.write_envs_of_ne hwe with heq | ⟨_, _, _, _, hst', _⟩
    · rw [heq, hst]
    · rw [hst] at hst'
      cases hst'

/-! ### The environment that traps -/

/-- What a trap of `cur` on CPU `c` comes to, for the records of the environments. -/
inductive TrapRecords (s : KState) (c cur : ℕ) (t : TrapIn) (s' : KState) : Prop where
  /-- The environment is destroyed. -/
  | freed : s'.status cur = .free → (∀ e, e ≠ cur → (s.envs e).Kept (s'.envs e)) →
    TrapRecords s c cur t s'
  /-- It goes on where it was, now or later. -/
  | back : t.tf.tfTrapno ≠ T_PGFLT →
      (t.tf.tfTrapno = T_SYSCALL → ∃ l,
        syscall (trapEntry s.reset c cur t) c cur t.args = .error l) →
      (s'.envs cur).envTf = t.tf → (∀ e, e ≠ cur → (s.envs e).Kept (s'.envs e)) →
      TrapRecords s c cur t s'
  /-- It goes on in its page fault upcall. -/
  | upcall : t.tf.tfTrapno = T_PGFLT → (s'.envs cur).envTf = t.tf.atUpcall
      (s.envs cur).envPgfaultUpcall →
      (∀ e, e ≠ cur → (s.envs e).Kept (s'.envs e)) → TrapRecords s c cur t s'
  /-- It goes on behind its system call. -/
  | answered {r : Word} {s₂ : KState} : t.tf.tfTrapno = T_SYSCALL →
      syscall (trapEntry s.reset c cur t) c cur t.args = .ok (r, s₂) →
      (∀ e, ((returned s₂ cur r).envs e).Kept (s'.envs e)) → TrapRecords s c cur t s'

theorem Leaves.status {τ' : Table} (h : Leaves c e τ τ') : (τ'.envs e).envStatus = .free := by
  obtain ⟨w, rfl, hw⟩ := h
  refine (hw.kept e).free ?_
  simp only [Table.write, Table.log_envs, Table.setEnv_envs_self]

/-- The records of the others, in the state in which `trap_dispatch` gets the trap. -/
theorem trapEntry_other (he : e ≠ cur) : (trapEntry s.reset c cur t).envs e = s.envs e :=
  Function.update_of_ne he _ _

theorem trapEntry_self : ((trapEntry s.reset c cur t).envs cur).envTf = t.tf := by
  rw [trapEntry_envs]

/-- `page_fault_handler` that goes on in the upcall. -/
theorem trap_upcall {m : Mem} (hcur : s.curenv c = some cur) (hpf : t.tf.tfTrapno = T_PGFLT)
    (h : envRun (atUpcall (trapEntry s.reset c cur t) cur m) c cur = .gone s') :
    TrapRecords s c cur t s' := by
  have henvs : ∀ e, s'.envs e = ((atUpcall (trapEntry s.reset c cur t) cur m).table.write
    (.run c cur)).envs e :=
    congrFun (congrArg Table.envs (envRun_writes h))
  have hup : ((trapEntry s.reset c cur t).envs cur).envPgfaultUpcall =
      (s.envs cur).envPgfaultUpcall := by
    rw [trapEntry_envs]
    rfl
  refine .upcall hpf ?_ fun e he => ?_
  · rw [henvs, Table.write_run_self]
    have hself : (atUpcall (trapEntry s.reset c cur t) cur m).table.envs cur = _ :=
      Function.update_self _ _ _
    rw [hself]
    simp only [hup, trapEntry_self, Trapframe.atUpcall]
  · have hsame : (atUpcall (trapEntry s.reset c cur t) cur m).table.envs e = s.envs e :=
      (Function.update_of_ne he _ _).trans (trapEntry_other he)
    have hrun : (atUpcall (trapEntry s.reset c cur t) cur m).table.curenv c = some cur :=
      @trapEntry_curenv s.reset c cur hcur t
    rw [henvs, Table.write_run_of_ne he, if_neg, hsame]
    · exact .refl _
    · rw [hrun]
      exact fun h => he (Option.some.inj h.1).symm

/-- **Every trap** of an environment. -/
theorem trap_records (hcur : s.curenv c = some cur) (hs : step s (.trap c t) = some s') :
    TrapRecords s c cur t s' := by
  have hcur₁ : (trapEntry s.reset c cur t).curenv c = some cur :=
    @trapEntry_curenv s.reset c cur hcur t
  have hother : ∀ e, e ≠ cur → (s.envs e).Kept ((trapEntry s.reset c cur t).envs e) :=
      fun e he => by
    rw [trapEntry_other he]
    exact .refl _
  have hfreed : ∀ {e'}, envDestroy (trapEntry s.reset c cur t) c e' = .error (.gone s') →
      TrapRecords s c cur t s' := by
    intro e' h
    obtain ⟨hce, hl⟩ := envDestroy_leaves h
    cases hcur₁.symm.trans hce
    exact .freed hl.status fun e he => (hother e he).trans (hl.kept he)
  -- the kernel is left in a state in which only scheduling has changed the records
  have hback : t.tf.tfTrapno ≠ T_PGFLT →
      (t.tf.tfTrapno = T_SYSCALL → ∃ l,
        syscall (trapEntry s.reset c cur t) c cur t.args = .error l) →
      (∀ e, ((trapEntry s.reset c cur t).envs e).Kept (s'.envs e)) → TrapRecords s c cur t s' :=
        fun hpf hsys hkept =>
    .back hpf hsys ((hkept cur).envTf.trans trapEntry_self) fun e he =>
      (hother e he).trans (hkept e)
  simp only [step] at hs
  split_ifs at hs with hfits
  have htrap := state?_eq_some.mp hs
  by_cases hdying : s.status cur = .dying
  · cases trapEnds htrap with
    | dying hcur' _ hfree h =>
      cases hcur.symm.trans hcur'
      have hl := leaves_of_envFree hfree h
      exact .freed hl.status fun e he => hl.kept he
    | wakes hk _ => exact absurd (trapFits_user hcur hfits) hk
    | user hcur' hnot _ =>
      cases hcur.symm.trans hcur'
      exact absurd hdying hnot
  rw [trap_user hcur hdying hfits] at htrap
  rcases leaveWith_gone htrap with h | ⟨s₁, h, hret⟩
  · rw [trapDispatch] at h
    split_ifs at h with hpf hbp hsys hspur htimer
    · rcases pageFaultHandler_cases hcur₁ h with h | ⟨-, -, m, -, h⟩
      · exact hfreed h
      · exact trap_upcall hcur hpf h
    · cases h
    · rcases bind_eq_error.mp h with hcall | ⟨y, -, h⟩
      · rcases syscall_gone_cases hcall with ⟨-, h⟩ | ⟨-, -, h⟩ | ⟨e', -, -, h⟩ | ⟨-, h⟩
        · exact hback hpf (fun _ => ⟨_, hcall⟩) (schedYield_kept h)
        · refine .back hpf (fun _ => ⟨_, hcall⟩) ((schedYield_kept h cur).envTf.trans ?_)
            fun e he => ?_
          · have hself : ((blocked (trapEntry s.reset c cur t) cur t.args.a1).envs cur).envTf =
                ((trapEntry s.reset c cur t).envs cur).envTf := by
              simp only [blocked, KState.log, KState.setEnv_envs_self]
            exact hself.trans trapEntry_self
          · have hblocked : (blocked (trapEntry s.reset c cur t) cur t.args.a1).envs e = s.envs e :=
              (Function.update_of_ne he _ _).trans (trapEntry_other he)
            rw [← hblocked]
            exact schedYield_kept h e
        · exact hfreed h
        · exact hfreed h
      · cases h
    · exact hback hpf (fun h => absurd h hsys) (schedYield_kept (Except.error.inj h))
    · exact hfreed h
  · rw [trapDispatch] at h
    split_ifs at h with hpf hbp hsys hspur htimer
    · exact absurd h pageFaultHandler_ne_ok
    · obtain ⟨⟨r, s₂⟩, hcall, h⟩ := bind_eq_ok.mp h
      cases h
      exact .answered hsys hcall (trapReturn_kept hret)
    · cases h
      exact hback hpf (fun h => absurd h hsys) (trapReturn_kept hret)
    · exact absurd h (envDestroy_curenv hcur₁)

/-! ### System calls that return -/

/-- The caller's registers, but for the result that is still to come. -/
theorem syscall_caller (hcur : s₁.curenv c = some cur) (hhead : s₁.envFreeList ≠ some cur)
    (h : syscall s₁ c cur a = .ok (r, s₂)) :
    ((returned s₂ cur r).envs cur).envTf = (s₁.envs cur).envTf.answered r := by
  have hreturned : ((returned s₂ cur r).envs cur).envTf = (s₂.envs cur).envTf.answered r :=
    congrArg Env.envTf (KState.setEnv_envs_self _ _ _)
  have hsame : s₂.table = s₁.table → (s₂.envs cur).envTf = (s₁.envs cur).envTf := fun ht =>
    congrArg Env.envTf (congrFun (congrArg Table.envs ht) cur)
  have hwrite : ∀ {w : Write}, s₂.table = s₁.table.write w → w.regs ≠ some cur →
    (s₂.envs cur).envTf = (s₁.envs cur).envTf :=
    fun ht hw => (congrArg Env.envTf (congrFun (congrArg Table.envs ht) cur)).trans
      (Table.write_envTf hw)
  rw [hreturned]
  cases syscall_returns hcur h with
  | same => rfl
  | envDestroy _ _ hd =>
    rcases envDestroy_writes hd with ⟨-, ⟨-, ht⟩ | ht⟩ <;> rw [hwrite ht (by simp [Write.regs])]
  | pageAlloc _ h => rw [hsame (sysPageAlloc_memOnly h).table]
  | pageMap _ h => rw [hsame (sysPageMap_memOnly h).table]
  | pageUnmap _ h => rw [hsame (sysPageUnmap_memOnly h).table]
  | exofork _ h =>
    rcases sysExofork_writes h with ht | ⟨e, x, hfl, -, -, ht⟩
    · rw [hsame ht]
    · rw [hwrite ht fun heq => hhead (hfl.trans heq)]
  | @envSetStatus e st _ _ _ => rw [hwrite (w := .status e st) rfl (by simp [Write.regs])]
  | @envSetPgfaultUpcall e _ _ => rw [hwrite (w := .upcall e a.a2) rfl (by simp [Write.regs])]
  | ipcTrySend _ h =>
    rcases sysIpcTrySend_writes h with ht | ⟨e, t, -, -, ht, ht'⟩
    · rw [hsame ht]
    · -- the caller may be the receiver
      have htf : (t.envs cur).envTf = (s₁.envs cur).envTf := by
        rcases ht with rfl | rfl
        · rfl
        · exact Table.write_envTf (by simp [Write.regs])
      have henvs : (s₂.envs cur).envTf =
        ((t.write (.deliver e (s₁.envs cur).envId a.a2)).envs cur).envTf :=
        congrArg Env.envTf (congrFun (congrArg Table.envs ht') cur)
      rw [henvs]
      by_cases he : e = cur
      · subst he
        simp only [Table.write, Table.log_envs, Table.setEnv_envs_self, htf, Trapframe.answered]
      · rw [Table.write_envTf (w := .deliver e (s₁.envs cur).envId a.a2) fun heq =>
          he (Option.some.inj heq), htf]

/-! ### Environments that are made -/

/-- The first registers of an environment that `sys_exofork` makes are those of its parent, with 0
in `eax`. -/
theorem exofork_saved (hhead : s₁.envFreeList = some e) (he : e ≠ cur)
    (h : sysExofork s₁ cur = .ok (r, s₂)) :
    s₂.table = s₁.table ∨ (s₂.envs e).envTf = (s₁.envs cur).envTf.answered 0 := by
  obtain ⟨⟨y, s₃⟩, halloc, h⟩ := bind_eq_ok.mp h
  rcases envAlloc_writes halloc with ⟨⟨w, rfl⟩, ht⟩ | ⟨e', x, rfl, hfl, -, -, ht⟩
  · cases h
    exact .inl ht
  · cases hhead.symm.trans hfl
    cases h
    have hcur : s₃.envs cur = s₁.envs cur :=
      (congrFun (congrArg Table.envs ht) cur).trans
        (Table.setEnv_envs_of_ne (t := s₁.table) he.symm)
    refine .inr ((congrArg Env.envTf (KState.setEnv_envs_self _ _ _)).trans ?_)
    simp only [KState.setStatus, KState.log, KState.setEnv, Function.update_of_ne he.symm, hcur]
    rfl

/-- A system call that is not `sys_exofork` makes no environment. -/
theorem syscall_free (hcur : s₁.curenv c = some cur) (hfree : s₁.status e = .free) (he : e ≠ cur)
    (hno : SysNo.ofWord a.no ≠ some .exofork) (h : syscall s₁ c cur a = .ok (r, s₂)) :
    s₂.status e = .free := by
  have hsame : s₂.table = s₁.table → s₂.status e = .free := fun ht =>
    (congrArg Env.envStatus (congrFun (congrArg Table.envs ht) e)).trans hfree
  have hwrite : ∀ {w : Write} {τ : Table}, (τ.envs e).envStatus = .free → (∀ c e', w ≠ .run c e') →
      w.env ≠ some e →
      ((τ.write w).envs e).envStatus = .free := by
    intro w τ hτ hrun hw
    rcases Table.write_envs_of_ne hw with heq | ⟨c', e', hw', -⟩
    · rw [heq, hτ]
    · exact absurd hw' (hrun c' e')
  have hother : ∀ {envid checkperm e'}, envid2env s₁ cur envid checkperm = some e' →
      some e' ≠ some e := by
    rintro envid checkperm e' henv heq
    cases heq
    exact (envid2env_some henv).elim he fun h => h hfree
  have htable : ∀ {w : Write}, s₂.table = s₁.table.write w → (∀ c e', w ≠ .run c e') →
    w.env ≠ some e → s₂.status e = .free :=
    fun ht hrun hw => (congrArg Env.envStatus
      (congrFun (congrArg Table.envs ht) e)).trans (hwrite hfree hrun hw)
  cases syscall_returns hcur h with
  | same => exact hfree
  | envDestroy _ henv hd =>
    rcases envDestroy_writes hd with ⟨-, ⟨-, ht⟩ | ht⟩
    · exact htable ht (by simp) (hother henv)
    · exact htable ht (by simp) (hother henv)
  | pageAlloc _ h => exact hsame (sysPageAlloc_memOnly h).table
  | pageMap _ h => exact hsame (sysPageMap_memOnly h).table
  | pageUnmap _ h => exact hsame (sysPageUnmap_memOnly h).table
  | exofork hexo _ => exact absurd hexo hno
  | @envSetStatus e' st _ _ henv => exact htable (w := .status e' st) rfl (by simp) (hother henv)
  | @envSetPgfaultUpcall e' _ henv =>
      exact htable (w := .upcall e' a.a2) rfl (by simp) (hother henv)
  | ipcTrySend _ h =>
    rcases sysIpcTrySend_writes h with ht | ⟨e', t, hargs, -, ht, ht'⟩
    · exact hsame ht
    · have hne := hother (ipcSendArgs_ok hargs)
      have ht₁ : (t.envs e).envStatus = .free := by
        rcases ht with rfl | rfl
        · exact hfree
        · exact hwrite hfree (by simp) hne
      exact (congrArg Env.envStatus (congrFun (congrArg Table.envs ht') e)).trans
        (hwrite ht₁ (by simp) hne)

/-- **A child**, in the state in which its parent leaves the kernel. -/
theorem born_saved (hcur : s.curenv c = some cur) (hfree : s.status e = .free)
    (hhead : s.envFreeList = some e) (he : e ≠ cur)
    (hs : step s (.trap c t) = some s') (hlive : s'.status e ≠ .free) :
    (s'.envs e).envTf = t.tf.answered 0 := by
  have hnot : ¬ (s.envs e).Kept (s'.envs e) := fun hkept => hlive (hkept.free hfree)
  cases trap_records hcur hs with
  | freed _ hkept => exact absurd (hkept e he) hnot
  | back _ _ _ hkept => exact absurd (hkept e he) hnot
  | upcall _ _ hkept => exact absurd (hkept e he) hnot
  | @answered r s₂ hsys hcall hkept =>
    have hcur₁ : (trapEntry s.reset c cur t).curenv c = some cur :=
      @trapEntry_curenv s.reset c cur hcur t
    have hfree₁ : (trapEntry s.reset c cur t).status e = .free :=
      (congrArg Env.envStatus (trapEntry_other he)).trans hfree
    have hsame : (returned s₂ cur r).envs e = s₂.envs e := Function.update_of_ne he _ _
    have hkept : (s₂.envs e).Kept (s'.envs e) := by
      rw [← hsame]
      exact hkept e
    by_cases hno : SysNo.ofWord t.args.no = some .exofork
    · rw [syscall, hno] at hcall
      have hexo := liftStop_eq_ok.mp hcall
      have hhead₁ : (trapEntry s.reset c cur t).envFreeList = some e := hhead
      rcases exofork_saved hhead₁ he hexo with ht | htf
      · have hst : (s₂.envs e).envStatus = .free :=
          (congrArg Env.envStatus (congrFun (congrArg Table.envs ht) e)).trans hfree₁
        exact absurd (hkept.free hst) hlive
      · rw [hkept.envTf, htf, trapEntry_self]
    · exact absurd (hkept.free (syscall_free hcur₁ hfree₁ he hno hcall)) hlive

/-- `env_alloc` clears the registers. -/
theorem envAlloc_fresh {parentId : Word} (h : envAlloc s parentId = .ok (.ok e, s')) :
    (s'.envs e).envTf = .fresh ∧ ∀ e', e' ≠ e → s'.envs e' = s.envs e' := by
  rcases envAlloc_writes h with ⟨⟨w, hw⟩, -⟩ | ⟨e', x, he, hfl, -, -, ht⟩
  · cases hw
  · cases he
    refine ⟨?_, fun e' he' => (congrFun (congrArg Table.envs ht) e').trans
      (Table.setEnv_envs_of_ne (t := s.table) he')⟩
    simp only [envAlloc, hfl] at h
    obtain ⟨⟨r₁, s₁⟩, -, h⟩ := bind_eq_ok.mp h
    dsimp only at h
    split_ifs at h
    · cases h
    · cases h
      exact congrArg Env.envTf (KState.setEnv_envs_self s₁ e ((s₁.envs e).renew e parentId))

/-- The first registers of an environment that `env_create` makes. -/
theorem created_saved {elf : Elf} (hhead : s.envFreeList = some e)
    (hs : step s (.create c elf) = some s') :
    (s'.envs e).envTf = { Trapframe.fresh with tfEip := elf.eEntry } ∧ ∀ e', e' ≠ e →
        s'.envs e' = s.envs e' := by
  cases hcreate : envCreate s.reset c elf with
  | error w => simp [step, hcreate, Except.toOption] at hs
  | ok s₂ =>
    simp only [step, hcreate, Except.toOption, Option.some.injEq] at hs
    subst hs
    obtain ⟨⟨y, s₁⟩, halloc, h⟩ := bind_eq_ok.mp hcreate
    cases y with
    | error w => cases h
    | ok e₁ =>
      have he : e₁ = e := by
        rcases envAlloc_writes halloc with ⟨⟨w, hw⟩, -⟩ | ⟨e', x, he, hfl, -⟩
        · cases hw
        · cases he
          exact Option.some.inj (hfl.symm.trans hhead)
      subst he
      obtain ⟨hfresh, hothers⟩ := envAlloc_fresh halloc
      have henvs : ∀ e', s₂.envs e' = _ := congrFun (congrArg Table.envs (loadIcode_writes h))
      refine ⟨?_, fun e' he' => ?_⟩
      · rw [henvs, Table.write, Table.setEnv_envs_self]
        exact congrArg (fun tf : Trapframe => { tf with tfEip := elf.eEntry }) hfresh
      · rw [henvs]
        exact (Table.setEnv_envs_of_ne he').trans (hothers e' he')

/-- The other records stay as they are. -/
theorem created_other {elf : Elf} (hs : step s (.create c elf) = some s')
    (hhead : s.envFreeList ≠ some e) : s'.envs e = s.envs e := by
  obtain ⟨e₀, hhead₀⟩ : ∃ e₀, s.envFreeList = some e₀ := by
    cases hcreate : envCreate s.reset c elf with
    | error w => simp [step, hcreate, Except.toOption] at hs
    | ok s₁ =>
      obtain ⟨e₀, hfl, -⟩ := envCreate_acts hcreate
      exact ⟨e₀, hfl⟩
  exact (created_saved hhead₀ hs).2 e fun heq => hhead (by rw [heq, hhead₀])

end JOS
