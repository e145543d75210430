import JOS.Sched.Dispatch
import JOS.Sched.Step

/-!
# The page directory a CPU has loaded

A CPU that leaves the kernel has in CR3 the page directory of the environment it goes
on with: `env_run` loads it, and `sched_halt` goes on with none. No function of the
kernel writes the record of another CPU.
-/

namespace JOS

open JOS.General

variable {s s' s₁ s₂ : KState} {ev : Event} {c cur e : ℕ} {a : SysArgs} {r : Word} {l : Leave}

/-- The records of other CPUs are as they were. -/
def OnlyCpu (c : ℕ) (s s' : KState) : Prop := ∀ c', c' ≠ c → s'.cpus c' = s.cpus c'

theorem OnlyCpu.of_eq (h : s'.cpus = s.cpus) : OnlyCpu c s s' := fun c' _ => congrFun h c'

theorem OnlyCpu.trans (h : OnlyCpu c s s₁) (h' : OnlyCpu c s₁ s') : OnlyCpu c s s' := fun c' hc =>
  (h' c' hc).trans (h c' hc)

theorem onlyCpu_setCpu (s : KState) (c : ℕ) (x : CpuInfo) : OnlyCpu c s (s.setCpu c x) :=
  fun _ hc => Function.update_of_ne hc _ _

/-- An environment is left that runs or could run, or that is to be freed by its CPU. -/
def Busy (s : KState) : Prop := ∃ e < NENV, s.status e = .runnable ∨ s.status e = .running ∨
    s.status e = .dying

/-- CPU `c` has left the kernel: with the directory of its environment in CR3, or halted with
`kern_pgdir`, while there is an environment to wait for. -/
structure Lands (c : ℕ) (s s' : KState) : Prop where
  others : OnlyCpu c s s'
  cr3 : ∀ e, s'.curenv c = some e → s'.dirs e = some (s'.cpus c).cr3
  halted : s'.curenv c = none → (s'.cpus c).cr3 = s'.mem.kernPgdir
  idle : s'.curenv c = none → Busy s'

theorem Lands.after (h : Lands c s₁ s') (h₁ : OnlyCpu c s s₁) : Lands c s s' :=
  ⟨h₁.trans h.others, h.cr3, h.halted, h.idle⟩

/-! ### `env_run` and `sched_yield` -/

theorem release_cpus (s : KState) (c : ℕ) : (release s c).cpus = s.cpus := by
  unfold release
  split
  · split_ifs <;> rfl
  · rfl

theorem envRun_lands (h : envRun s c e = .gone s') : Lands c s s' := by
  have hrel : (release (s.log (.run c e)) c).cpus = s.cpus := release_cpus _ _
  simp only [envRun] at h
  generalize release (s.log (.run c e)) c = s₁ at h hrel
  split at h
  · cases h
  · rename_i pgdir hd
    cases h
    refine ⟨fun c' hc => ?_, fun e' he => ?_, fun hnone => ?_, fun hnone => ?_⟩
    · simp [KState.setEnv, KState.lcr3, KState.setCpu, KState.setCurenv,
        Function.update_of_ne hc, hrel]
    · have hself : some e = some e' := by
        simpa [KState.setEnv, KState.lcr3, KState.setCpu, KState.setCurenv, KState.curenv] using he
      cases hself
      simpa [KState.setEnv, KState.lcr3, KState.setCpu, KState.setCurenv, KState.dirs] using hd
    all_goals simp [KState.setEnv, KState.lcr3, KState.setCpu, KState.setCurenv,
      KState.curenv] at hnone

theorem schedHalt_lands (h : schedHalt s c = .gone s') : Lands c s s' := by
  rw [schedHalt] at h
  split_ifs at h with hbusy
  cases h
  refine ⟨onlyCpu_setCpu s c _, fun e he => ?_, fun _ => ?_, fun _ => ?_⟩
  · simp [KState.log, KState.setCpu, KState.curenv] at he
  · simp [KState.log, KState.setCpu]
  · obtain ⟨e, he, hst⟩ := List.any_eq_true.mp hbusy
    have hst : s.status e = .runnable ∨ s.status e = .running ∨ s.status e = .dying :=
      of_decide_eq_true hst
    exact ⟨e, List.mem_range.mp he, hst⟩

theorem schedYield_lands (h : schedYield s c = .gone s') : Lands c s s' := by
  rcases schedYield_cases h with ⟨e, -, h⟩ | ⟨-, e, -, -, h⟩ | ⟨-, -, h⟩
  · exact envRun_lands h
  · exact envRun_lands h
  · exact schedHalt_lands h

theorem trapReturn_lands (h : trapReturn s c = .gone s') : Lands c s s' := by
  rcases trapReturn_cases h with ⟨e, -, -, h⟩ | h
  · exact envRun_lands h
  · exact schedYield_lands h

/-! ### `env_free` and `env_destroy` -/

/-- `env_free` loads `kern_pgdir` when the CPU runs the environment. -/
theorem envFree_cpus (h : envFree s c e = .ok s') : OnlyCpu c s s' ∧
    (s.curenv c ≠ some e → s'.cpus = s.cpus) := by
  simp only [envFree, bind_eq_ok, pure_eq_ok, Except.ok.injEq] at h
  obtain ⟨pgdir, -, m, -, rfl⟩ := h
  split_ifs with hc
  · exact ⟨onlyCpu_setCpu _ c _, fun hne => absurd hc hne⟩
  · exact ⟨.of_eq rfl, fun _ => rfl⟩

/-- `env_destroy` that comes back. -/
theorem envDestroy_cpus (h : envDestroy s c e = .ok s') : s'.cpus = s.cpus := by
  obtain ⟨hne, ⟨-, rfl⟩ | ⟨-, hfree⟩⟩ := envDestroy_ok h
  · rfl
  · exact (envFree_cpus hfree).2 hne

theorem exits_lands (hfree : envFree s c e = .ok s₁)
    (h : schedYield ((s₁.setCurenv c none).log (.clear c)) c = .gone s') : Lands c s s' :=
  (schedYield_lands h).after ((envFree_cpus hfree).1.trans (onlyCpu_setCpu s₁ c _))

theorem envDestroy_lands (h : envDestroy s c e = .error (.gone s')) : Lands c s s' := by
  obtain ⟨-, s₁, hfree, h⟩ := envDestroy_gone h
  exact exits_lands hfree h

/-! ### System calls -/

theorem envAlloc_cpus {parentId : Word} {y : Except Word ℕ}
    (h : envAlloc s parentId = .ok (y, s')) : s'.cpus = s.cpus := by
  have hvm : ∀ e r s₁, envSetupVm s e = .ok (r, s₁) → s₁.cpus = s.cpus := by
    intro e r s₁ h
    obtain ⟨⟨o, m⟩, -, h⟩ := bind_eq_ok.mp h
    cases o with
    | none =>
      cases h
      rfl
    | some p =>
      obtain ⟨pgdir, -, h⟩ := bind_eq_ok.mp h
      cases h
      rfl
  rw [envAlloc] at h
  cases hfl : s.envFreeList with
  | none =>
    simp only [hfl] at h
    cases h
    rfl
  | some e =>
    simp only [hfl] at h
    obtain ⟨⟨r₁, s₁⟩, hsetup, h⟩ := bind_eq_ok.mp h
    have hcpus := hvm e r₁ s₁ hsetup
    dsimp only at h
    split_ifs at h
    · cases h
      exact hcpus
    · cases h
      exact hcpus

theorem ipcSendPage_cpus {srcva perm : Word} (h : ipcSendPage s cur e srcva perm = .ok (r, s')) :
    s'.cpus = s.cpus := by
  simp only [ipcSendPage] at h
  obtain ⟨pgdir, -, h⟩ := bind_eq_ok.mp h
  obtain ⟨o, -, h⟩ := bind_eq_ok.mp h
  cases o with
  | none =>
    cases h
    rfl
  | some x =>
    dsimp only at h
    split_ifs at h
    · cases h
      rfl
    · obtain ⟨dst, -, h⟩ := bind_eq_ok.mp h
      obtain ⟨⟨flag, m⟩, -, h⟩ := bind_eq_ok.mp h
      dsimp only at h
      split_ifs at h <;>
      · cases h
        rfl
    · cases h
      rfl

/-- A system call that returns leaves the records of all CPUs alone. -/
theorem SysReturns.cpus (h : SysReturns s c cur a r s') : s'.cpus = s.cpus := by
  have hmem : ∀ {s'}, MemOnly s s' → s'.cpus = s.cpus := by
    rintro s' ⟨m, rfl⟩
    rfl
  cases h with
  | same => rfl
  | envDestroy _ _ h => exact envDestroy_cpus h
  | pageAlloc _ h => exact hmem (sysPageAlloc_memOnly h)
  | pageMap _ h => exact hmem (sysPageMap_memOnly h)
  | pageUnmap _ h => exact hmem (sysPageUnmap_memOnly h)
  | exofork _ h =>
    obtain ⟨⟨y, s₁⟩, halloc, h⟩ := bind_eq_ok.mp h
    have hcpus := envAlloc_cpus halloc
    cases y with
    | error w =>
      cases h
      exact hcpus
    | ok e =>
      cases h
      exact hcpus
  | envSetStatus _ _ _ => rfl
  | envSetPgfaultUpcall _ _ => rfl
  | ipcTrySend _ h =>
    simp only [sysIpcTrySend] at h
    cases hargs : ipcSendArgs s cur a.a1 with
    | error w =>
      simp only [hargs] at h
      cases h
      rfl
    | ok e =>
      simp only [hargs] at h
      split_ifs at h
      · obtain ⟨⟨r₁, s₁⟩, hpage, h⟩ := bind_eq_ok.mp h
        have hcpus := ipcSendPage_cpus hpage
        dsimp only at h
        split_ifs at h
        · cases h
          exact hcpus
        · cases h
          exact hcpus
      · cases h
        rfl

/-- A system call that does not return. -/
theorem syscall_lands (h : syscall s c cur a = .error (.gone s')) : Lands c s s' := by
  rcases syscall_gone_cases h with ⟨-, h⟩ | ⟨-, -, h⟩ | ⟨e, -, -, h⟩ | ⟨-, h⟩
  · exact schedYield_lands h
  · exact (schedYield_lands h).after (.of_eq rfl)
  · exact envDestroy_lands h
  · exact envDestroy_lands h

/-! ### Steps -/

theorem trapEntry_onlyCpu (s : KState) (c cur : ℕ) (t : TrapIn) :
    OnlyCpu c s (trapEntry s c cur t) := onlyCpu_setCpu s c _

theorem pageFaultHandler_lands {va : Word} (hcur : s.curenv c = some cur)
    (h : pageFaultHandler s c cur va = .error (.gone s')) : Lands c s s' := by
  rcases pageFaultHandler_cases hcur h with h | ⟨-, -, m, -, h⟩
  · exact envDestroy_lands h
  · exact (envRun_lands h).after (.of_eq rfl)

theorem userTrap_lands {t : TrapIn} (hcur : s.curenv c = some cur)
    (h : UserTrapEnds s c cur t s') : Lands c s s' := by
  cases h with
  | pageFault _ h => exact pageFaultHandler_lands hcur h
  | leaves _ h => exact syscall_lands h
  | returns _ hcall _ h =>
      exact (trapReturn_lands h).after (.of_eq (syscall_returns hcur hcall).cpus)
  | spurious _ h => exact trapReturn_lands h
  | timer h => exact schedYield_lands h
  | destroys h => exact envDestroy_lands h

theorem trap_lands {t : TrapIn} (h : trap s c t = .gone s') : Lands c s s' := by
  have hstarted : OnlyCpu c s
    (s.setCpu c { s.cpus c with cpuStatus := .started }) := onlyCpu_setCpu s c _
  cases trapEnds h with
  | dying _ _ hfree h => exact (exits_lands hfree h).after hstarted
  | user hcur _ h => exact (userTrap_lands
    (trapEntry_curenv hcur t) h).after (trapEntry_onlyCpu s c _ t)
  | wakes _ h =>
    rcases h with h | h
    · exact (trapReturn_lands h).after hstarted
    · exact (schedYield_lands h).after hstarted

theorem loadIcode_onlyCpu {elf : Elf} (h : loadIcode s c e elf = .ok s') : OnlyCpu c s s' := by
  rw [loadIcode] at h
  split_ifs at h
  obtain ⟨pgdir, -, h⟩ := bind_eq_ok.mp h
  obtain ⟨s₁, hloop, h⟩ := bind_eq_ok.mp h
  have hloop' : OnlyCpu c s s₁ := by
    refine foldlM_invariant (I := fun t : KState => OnlyCpu c s t) hloop (onlyCpu_setCpu s c _)
      fun t t' ph _ ht hseg => ?_
    obtain ⟨t₁, hregion, hseg⟩ := bind_eq_ok.mp hseg
    obtain ⟨m₁, -, hseg⟩ := bind_eq_ok.mp hseg
    obtain ⟨m₂, -, hseg⟩ := bind_eq_ok.mp hseg
    obtain ⟨m, rfl⟩ := regionAlloc_memOnly hregion
    cases hseg
    exact ht.trans (.of_eq rfl)
  obtain ⟨m, rfl⟩ := regionAlloc_memOnly h
  exact hloop'.trans (onlyCpu_setCpu _ c _)

/-- **A step** writes the record of its own CPU only, and when it takes the CPU into the kernel and
back, CR3 holds the directory of what the CPU runs. -/
theorem step_lands (h : step s ev = some s') : OnlyCpu ev.cpu s s' ∧ ∀ c, ev.enters = some c →
    Lands c s s' := by
  have hreset : OnlyCpu ev.cpu s s.reset := .of_eq rfl
  cases ev with
  | create c elf =>
    simp only [step] at h
    cases hcreate : envCreate s.reset c elf with
    | error w =>
      rw [hcreate] at h
      cases h
    | ok s₁ =>
      rw [hcreate] at h
      cases h
      obtain ⟨⟨y, s₂⟩, halloc, hload⟩ := bind_eq_ok.mp hcreate
      have hcpus := envAlloc_cpus halloc
      cases y with
      | error w => cases hload
      | ok e =>
        have hlogged : OnlyCpu c s₂ (s₂.log (.alloc e .runnable)) := .of_eq rfl
        have hall : OnlyCpu c s s' :=
          ((OnlyCpu.of_eq hcpus).trans hlogged).trans (loadIcode_onlyCpu hload)
        exact ⟨hall, fun c' hc' => by cases hc'⟩
  | start c =>
    simp only [step] at h
    split_ifs at h
    have hlands : Lands c s s' := (schedYield_lands (state?_eq_some.mp h)).after hreset
    refine ⟨hlands.others, fun c' hc' => ?_⟩
    cases hc'
    exact hlands
  | trap c t =>
    simp only [step] at h
    split_ifs at h
    have hlands : Lands c s s' := (trap_lands (state?_eq_some.mp h)).after hreset
    refine ⟨hlands.others, fun c' hc' => ?_⟩
    cases hc'
    exact hlands
  | store c va b =>
    refine ⟨.of_eq ?_, fun c' hc' => by cases hc'⟩
    simp only [step, userStore] at h
    split_ifs at h
    split at h
    · split_ifs at h
      cases h
      rfl
    · cases h

end JOS
