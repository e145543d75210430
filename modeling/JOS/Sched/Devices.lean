import JOS.Envs.Step
import JOS.Kern.Picirq
import JOS.Spaces.Sound
import JOS.Spaces.Total

/-!
# Device interrupts and the environments

What an interrupt may change while it is handled, whether it comes from user mode or wakes
a halted CPU: it may schedule, and it may free the environment of its CPU if that was to
be freed anyway (`Transparent`). The timer and the spurious vector are handled so, in
every state of a tame run. The lines of the 8259A are not: `kbd_init` unmasks the
keyboard, and the slave's line is never masked, but `trap_dispatch` knows neither, and
takes them for traps that no program should raise.
-/

namespace JOS

open JOS.General

variable {s₀ s s' s₁ : KState} {ev : Event} {c cur e e' : ℕ} {t : TrapIn} {w : Write} {τ τ' : Table}
  {x y z : Env}
  {tf : Trapframe} {i : Interrupt} {pic1 pic2 : Pic} {irqs : Irqs}

/-! ### What scheduling does -/

/-- An environment that runs, or waits for a CPU. -/
def Schedulable (st : EnvStatus) : Prop := st = .runnable ∨ st = .running

/-- The record `y` is the record `x` with the registers `tf`, and with what scheduling writes. -/
def Rescheduled (x : Env) (tf : Trapframe) (y : Env) : Prop :=
  ∃ st runs cpunum, y = { x with
    envTf := tf, envStatus := st, envRuns := runs, envCpunum := cpunum } ∧
    (st = x.envStatus ∨ Schedulable x.envStatus ∧ Schedulable st)

theorem Rescheduled.refl (x : Env) : Rescheduled x x.envTf x := ⟨_, _, _, rfl, .inl rfl⟩

theorem Rescheduled.trans (h : Rescheduled x tf y) (h' : Rescheduled y y.envTf z) :
    Rescheduled x tf z := by
  obtain ⟨st, runs, cpunum, rfl, hst⟩ := h
  obtain ⟨st', runs', cpunum', rfl, hst'⟩ := h'
  refine ⟨st', runs', cpunum', rfl, ?_⟩
  rcases hst' with rfl | ⟨hs, hs'⟩
  · exact hst
  · rcases hst with rfl | ⟨hx, -⟩
    · exact .inr ⟨hs, hs'⟩
    · exact .inr ⟨hx, hs'⟩

/-- Leaving the kernel reschedules. -/
theorem Schedules.rescheduled (h : Schedules c τ w) (e : ℕ) :
    Rescheduled (τ.envs e) (τ.envs e).envTf ((τ.write w).envs e) := by
  cases w with
  | clear c' => exact .refl _
  | run c' e' =>
    obtain ⟨rfl, hst⟩ := h
    by_cases he : e = e'
    · subst he
      refine ⟨_, _, _, Table.write_run_self _ _ _, .inr ⟨?_, .inr rfl⟩⟩
      exact hst.imp id And.right
    · rw [Table.write_run_of_ne he]
      split_ifs with hr
      · exact ⟨_, _, _, rfl, .inr ⟨.inr hr.2, .inl rfl⟩⟩
      · exact .refl _
  | _ => exact h.elim

/-! ### Interrupts -/

/-- The interrupt `i` happens on CPU `c`, which is in user mode or halted, with the frame of `t`. -/
def Interrupts (irqs : Irqs) (s : KState) (c : ℕ) (i : Interrupt) (t : TrapIn) : Prop :=
  irqs.Delivers i ∧ trapFits s c t = true ∧ t.tf.tfTrapno = irqs.trapno (t.tf.tfCs &&& 3).toNat i

/-- CPU `c` runs `e`, which is to be freed. -/
def Zombie (s : KState) (c e : ℕ) : Prop := s.curenv c = some e ∧ s.status e = .dying

/-- What handling an interrupt with the frame `tf` on CPU `c` may lead to. -/
structure Transparent (s : KState) (c : ℕ) (tf : Trapframe) (s' : KState) : Prop where
  /-- Environments are scheduled; the registers of the one that was interrupted are recorded. -/
  env : ∀ e, ¬ Zombie s c e →
    Rescheduled (s.envs e) (if s.curenv c = some e then tf else (s.envs e).envTf) (s'.envs e)
  /-- The registers of one that is freed stay. -/
  zombie : ∀ e, Zombie s c e → (s'.envs e).envTf = (s.envs e).envTf
  /-- Memory changes only when an environment is freed. -/
  mem : (∀ e, ¬ Zombie s c e) → s'.mem = s.mem

/-- The kernel is left so; the monitor may only get the machine when the CPU has nothing to go back
to. -/
structure LeavesTransparent (s : KState) (c : ℕ) (tf : Trapframe) (l : Leave) : Prop where
  gone : ∀ s', l = .gone s' → Transparent s c tf s'
  stop : ∀ w, l = .stop w → w = .monitor ∧ ∀ e, s.curenv c = some e → s.status e = .dying

/-- The trap `t` on CPU `c` is handled so. -/
def Transparently (s : KState) (c : ℕ) (t : TrapIn) : Prop :=
  LeavesTransparent s c t.tf (trap s.reset c t)

/-- The registers of the environment that was interrupted are recorded. -/
theorem rescheduled_trapEntry (hcur : s.curenv c = some cur) (t : TrapIn) (e : ℕ) :
    Rescheduled (s.envs e) (if s.curenv c = some e then t.tf else (s.envs e).envTf)
        ((trapEntry s.reset c cur t).table.envs e) := by
  rw [table_trapEntry, hcur]
  by_cases he : e = cur
  · subst he
    rw [if_pos rfl]
    exact ⟨(s.envs e).envStatus, (s.envs e).envRuns, (s.envs e).envCpunum,
      Table.setEnv_envs_self _ _ _, .inl rfl⟩
  · rw [if_neg fun h => he (Option.some.inj h).symm]
    have hsame : (s.reset.table.write (.frame cur t.tf)).envs e = s.envs e :=
      Table.setEnv_envs_of_ne he
    rw [hsame]
    exact .refl _

/-- Leaving the kernel, with no environment freed. -/
theorem transparent_of_schedules (hno : ∀ e, ¬ Zombie s c e)
    (hentry : ∀ e, Rescheduled (s.envs e) (if s.curenv c = some e then tf
    else (s.envs e).envTf) (τ.envs e))
    (hleave : ∃ w, s'.table = τ.write w ∧ Schedules c τ w) (hmem : s'.mem = s.mem) :
    Transparent s c tf s' := by
  obtain ⟨w, ht, hw⟩ := hleave
  refine ⟨fun e _ => ?_, fun e he => absurd he (hno e), fun _ => hmem⟩
  have hsched := hw.rescheduled e
  rw [← ht] at hsched
  exact (hentry e).trans hsched

/-- Leaving the kernel after the environment of the CPU, which was to be freed, is freed. -/
theorem transparent_of_leaves (hz : Zombie s c cur) (hleave : Leaves c cur s.reset.table s'.table) :
    Transparent s c tf s' := by
  obtain ⟨w, ht, hw⟩ := hleave
  have hsched : ∀ e, Rescheduled ((s.reset.table.write (.free c cur)).envs e)
    ((s.reset.table.write (.free c cur)).envs e).envTf
      (s'.envs e) := by
    intro e
    have h := hw.rescheduled e
    rw [← ht] at h
    exact h
  refine ⟨fun e he => ?_, fun e he => ?_, fun hno => absurd hz (hno cur)⟩
  · have hne : e ≠ cur := by
      rintro rfl
      exact he hz
    have hsame : (s.reset.table.write (.free c cur)).envs e = s.envs e :=
      Table.setEnv_envs_of_ne hne
    rw [hz.1, if_neg fun h => hne (Option.some.inj h).symm]
    have h := hsched e
    rw [hsame] at h
    exact h
  · have heq : e = cur := Option.some.inj (he.1.symm.trans hz.1)
    subst heq
    have hsame : ((s.reset.table.write (.free c e)).envs e).envTf = (s.envs e).envTf := by
      simp [Table.write, Table.log, Table.setEnv, KState.table, KState.reset]
    obtain ⟨st, runs, cpunum, heq, -⟩ := hsched e
    rw [heq]
    exact hsame

/-! ### The timer and the spurious vector -/

/-- A state in which an interrupt is handled, with no environment freed. -/
structure Handling (s : KState) (c : ℕ) (tf : Trapframe) (s₁ : KState) : Prop where
  zombie : ∀ e, ¬ Zombie s c e
  entry : ∀ e, Rescheduled (s.envs e) (if s.curenv c = some e then tf
    else (s.envs e).envTf) (s₁.envs e)
  spaces : SameSpaces s s₁
  live : LiveOk s₁.procs
  busy : s.curenv c ≠ none → Busy s₁

theorem Handling.leave {l : Leave} (h : Handling s c tf s₁)
    (hw : ∀ s', l = .gone s' → ∃ w, s'.table = s₁.table.write w ∧ Schedules c s₁.table w)
    (hspaces : ∀ s', l = .gone s' → SameSpaces s₁ s')
    (hstop : ∀ w, l = .stop w → w = .monitor ∧ ¬ Busy s₁) :
    LeavesTransparent s c tf l := by
  refine ⟨fun s' hl => ?_, fun w hl => ?_⟩
  · exact transparent_of_schedules h.zombie h.entry (hw s' hl) (h.spaces.trans (hspaces s' hl)).1
  · obtain ⟨hmonitor, hidle⟩ := hstop w hl
    exact ⟨hmonitor, fun e he => absurd (h.busy (by simp [he])) hidle⟩

theorem Handling.schedYield (h : Handling s c tf s₁) :
    LeavesTransparent s c tf (schedYield s₁ c) := by
  generalize hl : JOS.schedYield s₁ c = l
  apply h.leave <;> rintro x rfl
  · exact schedYield_writes hl
  · exact schedYield_spaces hl
  · exact schedYield_stop h.live hl

theorem Handling.trapReturn (h : Handling s c tf s₁) :
    LeavesTransparent s c tf (trapReturn s₁ c) := by
  generalize hl : JOS.trapReturn s₁ c = l
  apply h.leave <;> rintro x rfl
  · exact trapReturn_writes hl
  · exact trapReturn_spaces hl
  · exact trapReturn_stop h.live hl

/-- The trap numbers that `trap_dispatch` knows as interrupts. -/
def KnownIrq (t : TrapIn) : Prop := t.tf.tfTrapno = IRQ_OFFSET ∨
    t.tf.tfTrapno = IRQ_OFFSET + IRQ_SPURIOUS

theorem trapDispatch_knownIrq (hno : KnownIrq t) :
    trapDispatch s c cur t = .error (schedYield s c) ∨ trapDispatch s c cur t = .ok s := by
  rw [trapDispatch]
  rcases hno with hno | hno <;> rw [hno]
  · left
    rw [if_neg (by decide), if_neg (by decide), if_neg (by decide), if_neg (by decide), if_pos rfl]
  · right
    rw [if_neg (by decide), if_neg (by decide), if_neg (by decide), if_pos rfl]

theorem trapDispatchKernel_knownIrq (hno : KnownIrq t) :
    trapDispatchKernel s c t = .error (schedYield s c) ∨ trapDispatchKernel s c t = .ok s := by
  unfold trapDispatchKernel
  rcases hno with hno | hno <;> rw [hno]
  · left
    rw [if_neg (by decide), if_neg (by decide), if_neg (by decide), if_neg (by decide), if_pos rfl]
  · right
    rw [if_neg (by decide), if_neg (by decide), if_neg (by decide), if_pos rfl]

theorem leaveWith_error (l : Leave) (k : KState → Leave) : leaveWith (.error l) k = l := rfl

theorem leaveWith_ok (s : KState) (k : KState → Leave) : leaveWith (.ok s) k = k s := rfl

/-- A halted CPU comes from the kernel's code segment. -/
theorem trapFits_halted (hcur : s.curenv c = none) (hfits : trapFits s c t = true) :
    ¬ t.tf.tfCs &&& 3 = 3 := by
  simp only [trapFits, hcur, Bool.and_eq_true, beq_iff_eq] at hfits
  rw [hfits.1]
  decide

theorem trap_halted (hcur : s.curenv c = none) (hfits : trapFits s c t = true) : trap s.reset c t =
    leaveWith (trapDispatchKernel (s.reset.setCpu c { s.reset.cpus c with cpuStatus := .started }) c
        t) fun s => trapReturn s c := by
  rw [trap, if_neg (trapFits_halted hcur hfits)]

/-- An interrupt that `trap_dispatch` knows wakes a halted CPU. -/
theorem transparently_halted (hlive : LiveOk s.procs) (hcur : s.curenv c = none)
    (hfits : trapFits s c t = true)
    (hno : KnownIrq t) : Transparently s c t := by
  have hhandling : Handling s c t.tf
    (s.reset.setCpu c { s.reset.cpus c with cpuStatus := .started }) := {
    zombie := fun e he => by rw [Zombie, hcur] at he; cases he.1
    entry := fun e => by
      rw [hcur, if_neg (by simp)]
      exact .refl _
    spaces := ⟨rfl, rfl⟩
    live := by
      have hprocs : (s.reset.setCpu c { s.reset.cpus c with cpuStatus := .started }).procs =
        s.procs :=
        (quiet_setCpu s.reset c { s.reset.cpus c with cpuStatus := .started } rfl).1
      rw [hprocs]
      exact hlive
    busy := fun h => absurd hcur h }
  rw [Transparently, trap_halted hcur hfits]
  rcases trapDispatchKernel_knownIrq hno with h | h
  · rw [h, leaveWith_error]
    exact hhandling.schedYield
  · rw [h, leaveWith_ok]
    exact hhandling.trapReturn

/-- An interrupt that `trap_dispatch` knows comes while an environment runs. -/
theorem transparently_user (hlive : LiveOk s.procs) (hbusy : Busy s) (hcur : s.curenv c = some cur)
    (hst : s.status cur ≠ .dying)
    (hfits : trapFits s c t = true) (hno : KnownIrq t) : Transparently s c t := by
  have hfresh : Fresh s (trapEntry s.reset c cur t) := fresh_trapEntry t
  have hhandling : Handling s c t.tf (trapEntry s.reset c cur t) := {
    zombie := fun e he => by
      rw [Zombie, hcur] at he
      cases he.1
      exact hst he.2
    entry := rescheduled_trapEntry hcur t
    spaces := trapEntry_spaces s.reset c cur t
    live := by
      rw [hfresh.1]
      exact hlive
    busy := fun _ => by
      obtain ⟨e, he, hb⟩ := hbusy
      have hsame : (trapEntry s.reset c cur t).status e = s.status e :=
        congrFun (congrArg Procs.status hfresh.1) e
      exact ⟨e, he, by rw [hsame]; exact hb⟩ }
  rw [Transparently, trap_user hcur hst hfits]
  rcases trapDispatch_knownIrq hno with h | h
  · rw [h, leaveWith_error]
    exact hhandling.schedYield
  · rw [h, leaveWith_ok]
    exact hhandling.trapReturn

/-- Any interrupt finds that the environment of the CPU is to be freed. -/
theorem transparently_zombie {k : ℕ → Kind} (hx : (s.vmState k).Sound) (hlive : LiveOk s.procs)
    (hz : Zombie s c cur)
    (hfits : trapFits s c t = true) : Transparently s c t := by
  obtain ⟨hcur, hst⟩ := hz
  have hcur' : s.reset.curenv c = some cur := hcur
  have hst' : s.reset.status cur = .dying := hst
  let s₁ := s.reset.setCpu c { s.reset.cpus c with cpuStatus := .started }
  have hspaces : SameSpaces s s₁ := ⟨rfl, rfl⟩
  have htable : s₁.table = s.reset.table := table_setCpu_same rfl
  have hlive₁ : LiveOk s₁.procs := by
    have hprocs : s₁.procs = s.procs :=
      (quiet_setCpu s.reset c { s.reset.cpus c with cpuStatus := .started } rfl).1
    rw [hprocs]
    exact hlive
  obtain ⟨d, hd⟩ := hlive.dirs (e := cur) (by rw [hst]; simp)
  obtain ⟨s₂, hfree⟩ := envFree_ok (c := c) (hspaces.sound hx) (hspaces.2 ▸ hd)
  rw [Transparently, trap, if_pos (trapFits_user hcur hfits)]
  simp only [hcur', if_pos hst']
  rw [show envFree (s.reset.setCpu c { s.reset.cpus c with cpuStatus := .started }) c cur =
    .ok s₂ from hfree]
  simp only [liftStop, leaveWith]
  refine ⟨fun s' hl => ?_, fun w hl => ⟨exits_stop hlive₁ hfree hl, fun e he => ?_⟩⟩
  · have hleave := leaves_of_envFree hfree hl
    rw [htable] at hleave
    exact transparent_of_leaves ⟨hcur, hst⟩ hleave
  · rw [hcur] at he
    cases he
    exact hst

/-! ### Lines of the 8259A -/

/-- `trap_dispatch` destroys the environment that runs when a line of the 8259A interrupts it. -/
theorem trapDispatch_line {n : ℕ} (hn : n = 1 ∨ n = IRQ_SLAVE)
    (hno : t.tf.tfTrapno = IRQ_OFFSET + BitVec.ofNat 32 n) :
    trapDispatch s c cur t = envDestroy s c cur := by
  rw [trapDispatch, hno]
  rcases hn with rfl | rfl <;>
    rw [if_neg (by decide), if_neg (by decide), if_neg (by decide), if_neg (by decide),
      if_neg (by decide)]

theorem trapDispatchKernel_line {n : ℕ} (hn : n = 1 ∨ n = IRQ_SLAVE)
    (hno : t.tf.tfTrapno = IRQ_OFFSET + BitVec.ofNat 32 n) :
    trapDispatchKernel s c t = .error (.stop .panic) := by
  unfold trapDispatchKernel
  rw [hno]
  rcases hn with rfl | rfl <;>
    rw [if_neg (by decide), if_neg (by decide), if_neg (by decide), if_neg (by decide),
      if_neg (by decide)]

/-- An environment that was freed is not run again on the way out. -/
theorem Leaves.free (h : Leaves c cur τ τ') : (τ'.envs cur).envStatus = .free := by
  obtain ⟨w, rfl, hw⟩ := h
  have hfree : (((τ.write (.free c cur)).write (.clear c)).envs cur).envStatus = .free := by
    simp [Table.write, Table.log, Table.setEnv]
  obtain ⟨st, runs, cpunum, heq, hst | ⟨hs, -⟩⟩ := hw.rescheduled cur
  · rw [heq]
    exact hst.trans hfree
  · rw [Schedulable, hfree] at hs
    simp at hs

/-- An interrupt of a line destroys an environment, or is a panic. -/
theorem not_transparently_line {n : ℕ} (hn : n = 1 ∨ n = IRQ_SLAVE)
    (hno : t.tf.tfTrapno = IRQ_OFFSET + BitVec.ofNat 32 n)
    (hfits : trapFits s c t = true)
    (hst : ∀ e, s.curenv c = some e → s.status e ≠ .dying ∧ s.status e ≠ .free) :
    ¬ Transparently s c t := by
  rw [Transparently]
  intro h
  cases hcur : s.curenv c with
  | none =>
    rw [trap_halted hcur hfits, trapDispatchKernel_line hn hno, leaveWith_error] at h
    have hpanic := (h.stop .panic rfl).1
    cases hpanic
  | some cur =>
    obtain ⟨hdying, hfree⟩ := hst cur hcur
    have hcur₁ : (trapEntry s.reset c cur t).curenv c = some cur := trapEntry_curenv hcur t
    rw [trap_user hcur hdying hfits, trapDispatch_line hn hno] at h
    cases hd : envDestroy (trapEntry s.reset c cur t) c cur with
    | ok s₁ => exact envDestroy_curenv hcur₁ hd
    | error l =>
      rw [hd, leaveWith_error] at h
      cases l with
      | stop w => exact hdying ((h.stop w rfl).2 cur hcur)
      | gone s' =>
        -- the environment is free now, and was not before
        have hgone : s'.status cur = .free := (envDestroy_leaves hd).2.free
        obtain ⟨st, runs, cpunum, heq, hsame | ⟨-, hs⟩⟩ :=
          (h.gone s' rfl).env cur fun hz => hdying hz.2
        · have hst' : s'.status cur = st := congrArg Env.envStatus heq
          rw [hgone] at hst'
          exact hfree (hsame.symm.trans hst'.symm)
        · have hst' : s'.status cur = st := congrArg Env.envStatus heq
          rw [hgone] at hst'
          rw [Schedulable, ← hst'] at hs
          simp at hs

/-! ### In every state of a run -/

/-- While a CPU runs an environment, there is an environment that runs or could run. -/
def BusyCpus (s : KState) : Prop := ∀ c e, s.curenv c = some e → Busy s

theorem BusyCpus.step (h : BusyCpus s) (hsound : SoundState s) (hok : Tame s ev)
    (hs : step s ev = some s') : BusyCpus s' := by
  obtain ⟨-, hlands⟩ := step_lands hs
  obtain ⟨-, henters, -⟩ := step_logged hs
  have hsound' := hsound.step hok hs
  -- a CPU that has left the kernel runs an environment, or has found one to wait for
  have hleft : ∀ c, ev.enters = some c → Busy s' := by
    intro c hc
    cases hcur : s'.curenv c with
    | none => exact (hlands c hc).idle hcur
    | some e =>
      have hrun := ((henters c hc).2 e hcur).1
      obtain ⟨k, hx⟩ := hsound'.sound
      have hd : (s'.vmState k).dirs e ≠ none := by
        rw [show (s'.vmState k).dirs e = _ from hsound'.loaded c e hcur]
        simp
      exact ⟨e, hx.vm.tables.bound e hd, .inr (.inl hrun)⟩
  intro c e hcur
  cases ev with
  | start c' => exact hleft c' rfl
  | trap c' t => exact hleft c' rfl
  | create c' elf =>
    simp only [JOS.step] at hs
    cases hcreate : envCreate s.reset c' elf with
    | error w =>
      rw [hcreate] at hs
      cases hs
    | ok s₁ =>
      rw [hcreate] at hs
      cases hs
      obtain ⟨e', -, hacts⟩ := envCreate_acts hcreate
      have hprocs : s'.procs = s.procs.act (.alloc e' .runnable) := hacts.1
      have hcurenv : s'.curenv = s.curenv := congrArg Procs.curenv hprocs
      rw [hcurenv] at hcur
      obtain ⟨e₀, he₀, hst⟩ := h c e hcur
      refine ⟨e₀, he₀, ?_⟩
      have hstatus : s'.status e₀ = Function.update s.status e' .runnable e₀ :=
        congrFun (congrArg Procs.status hprocs) e₀
      rw [hstatus]
      by_cases hne : e₀ = e'
      · rw [hne, Function.update_self]
        exact .inl rfl
      · rw [Function.update_of_ne hne]
        exact hst
  | store c' va b =>
    have hsame : s'.envs = s.envs ∧ s'.cpus = s.cpus := by
      simp only [JOS.step, userStore] at hs
      split_ifs at hs
      split at hs
      · split_ifs at hs
        cases hs
        exact ⟨rfl, rfl⟩
      · cases hs
    rw [KState.curenv, hsame.2] at hcur
    obtain ⟨e₀, he₀, hst⟩ := h c e hcur
    refine ⟨e₀, he₀, ?_⟩
    rw [KState.status, hsame.1]
    exact hst

theorem busyCpus_of_reach (h₀ : Booted s₀) (h : Reach step Tame s₀ s) : BusyCpus s := by
  have hboth : SoundState s ∧ BusyCpus s := by
    apply h.invariant (I := fun s => SoundState s ∧ BusyCpus s) ⟨h₀.soundState, fun c e he => ?_⟩
    · intro s s' ev hI hok hs
      exact ⟨hI.1.step hok hs, hI.2.step hI.1 hok hs⟩
    · rw [h₀.cpus c] at he
      cases he
  exact hboth.2

/-- **Device interrupts are transparent** exactly when they are the timer's or spurious, or find an
environment that is to be freed anyway. -/
theorem transparently_iff_of_reach (h₀ : Booted s₀) (h : Reach step Tame s₀ s)
    (hi : Interrupts (bootIrqs pic1 pic2) s c i t) :
    Transparently s c t ↔ i = .timer ∨ i = .spurious ∨ ∃ e, Zombie s c e := by
  have hsound := sound_of_reach h₀ h
  obtain ⟨hdelivers, hfits, hno⟩ := hi
  rw [trapno_bootIrqs _ i hdelivers] at hno
  obtain ⟨k, hx⟩ := hsound.sound
  by_cases hz : ∃ e, Zombie s c e
  · obtain ⟨e, he⟩ := hz
    exact iff_of_true (transparently_zombie hx hsound.live he hfits) (.inr (.inr ⟨e, he⟩))
  have hdying : ∀ e, s.curenv c = some e → s.status e ≠ .dying := fun e he hst => hz ⟨e, he, hst⟩
  have hknown : KnownIrq t → Transparently s c t := by
    intro hknown
    cases hcur : s.curenv c with
    | none => exact transparently_halted hsound.live hcur hfits hknown
    | some cur =>
      exact transparently_user hsound.live (busyCpus_of_reach h₀ h c cur hcur) hcur
        (hdying cur hcur) hfits hknown
  have hline : ∀ n, i = .line n → (n = 1 ∨ n = IRQ_SLAVE) → ¬ Transparently s c t := by
    rintro n rfl hn
    refine not_transparently_line hn hno hfits fun e he => ⟨hdying e he, ?_⟩
    exact (hsound.alone.status c e (by simp) he).1
  rcases delivers_bootIrqs.mp hdelivers with rfl | rfl | rfl | rfl
  · exact iff_of_true (hknown (.inl hno)) (.inl rfl)
  · exact iff_of_true (hknown (.inr hno)) (.inr (.inl rfl))
  · exact iff_of_false (hline 1 rfl (.inl rfl)) (by simpa using hz)
  · exact iff_of_false (hline IRQ_SLAVE rfl (.inr rfl)) (by simpa using hz)

/-- An interrupt with the trap number `no` while a program runs. -/
def irqTrap (no : Word) : TrapIn := ⟨{ Trapframe.fresh with tfTrapno := no }, 0, 0⟩

/-- A controller as it may be before the kernel programs it. -/
def idlePic : Pic := ⟨0, 0, 0, .ocw1⟩

/-- A program runs, and no controller has been programmed by anyone else. -/
theorem irqRun : ∃ s, [Event.create 0 emptyElf, .start 0].foldlM
    (fun t e => if tameCheck t e then step t e else none) (bootState 1) = some s ∧
    s.curenv 0 = some 0 ∧ s.status 0 = .running := by
  have hrun : ([Event.create 0 emptyElf, .start 0].foldlM (fun t e => if tameCheck t e then step t e
    else none) (bootState 1)).map
      (fun s => (s.curenv 0, s.status 0)) = some (some 0, .running) := by decide +kernel
  obtain ⟨s, hs, hcur⟩ := Option.map_eq_some_iff.mp hrun
  exact ⟨s, hs, congrArg Prod.fst hcur, congrArg Prod.snd hcur⟩

/-- The timer interrupts a program. -/
theorem transparently_timer : ∃ s, Interrupts (bootIrqs idlePic idlePic) s 0 .timer
    (irqTrap IRQ_OFFSET) ∧
    Transparently s 0 (irqTrap IRQ_OFFSET) := by
  obtain ⟨s, hs, hcur, -⟩ := irqRun
  have htimer : (bootIrqs idlePic idlePic).Delivers .timer := trivial
  have hi : Interrupts (bootIrqs idlePic idlePic) s 0 .timer (irqTrap IRQ_OFFSET) := by
    refine ⟨htimer, ?_, ?_⟩
    · rw [trapFits, hcur]
      rfl
    · rw [trapno_bootIrqs _ _ htimer]
      rfl
  exact ⟨s, hi, (transparently_iff_of_reach (bootState_booted 1) (Reach.of_guarded hs fun _ _ =>
    tame_of_check) hi).mpr (.inl rfl)⟩

/-- A key is pressed while a program runs: the program is destroyed. -/
theorem not_transparently : ∃ s, Reach step (fun _ _ => True) (bootState 1) s ∧
    Interrupts (bootIrqs idlePic idlePic) s 0 (.line 1) (irqTrap (IRQ_OFFSET + 1)) ∧
    ¬ Transparently s 0 (irqTrap (IRQ_OFFSET + 1)) := by
  obtain ⟨s, hs, hcur, hst⟩ := irqRun
  have hline : (bootIrqs idlePic idlePic).Delivers (.line 1) :=
    delivers_bootIrqs.mpr (.inr (.inr (.inl rfl)))
  have hfits : trapFits s 0 (irqTrap (IRQ_OFFSET + 1)) = true := by
    rw [trapFits, hcur]
    rfl
  refine ⟨s, Reach.of_guarded hs fun _ _ _ => trivial, ⟨hline, hfits, ?_⟩, ?_⟩
  · rw [trapno_bootIrqs _ _ hline]
    rfl
  · refine not_transparently_line (.inl rfl) rfl hfits fun e he => ?_
    rw [hcur] at he
    cases he
    simp [hst]

end JOS
