import JOS.Envs.Step
import JOS.Ipc.Blocked
import JOS.Kern.TrapInit

/-!
# Interrupts are off in the kernel

`trap` asserts that interrupts are off when it begins. A program runs with `FL_IF` set
and with I/O privilege level 0, and cannot change either, so only the gate can see to
that (`trapAssert_iff_of_reach`).

`flagStep` is the machine with the EFLAGS register of each CPU: `env_run` loads it from
the environment's registers, `sched_halt` sets `FL_IF`, a program may change it as far
as the CPU lets it, and a trap saves it.
-/

namespace JOS

open JOS.General

variable {s₀ s s₁ s₂ s' : KState} {ev : Event} {c cur e : ℕ} {t : Table} {w : Write}

/-! ### The machine with EFLAGS -/

/-- What a program makes of EFLAGS when it loads `new`, by `popf` and the like: the I/O privilege
level stays, and `FL_IF` too, unless that level is 3. -/
def userFlags (old new : Word) : Word :=
  let fixed := if old &&& FL_IOPL_MASK = FL_IOPL_MASK then FL_IOPL_MASK else FL_IOPL_MASK ||| FL_IF
  (new &&& ~~~fixed) ||| (old &&& fixed)

/-- EFLAGS of the CPU when it leaves the kernel: `env_pop_tf` of its environment, or `sti` and
`hlt`. -/
def leaveFlags (s : KState) (c : ℕ) : Word :=
  match s.curenv c with
  | some e => (s.envs e).envTf.tfEflags
  | none => FL_IF

/-- What can happen next. -/
inductive FlagEvent where
  /-- A step of the machine. -/
  | kernel (ev : Event)
  /-- The program on CPU `c` loads EFLAGS. -/
  | load (c : ℕ) (w : Word)

/-- The frame that a trap pushes has EFLAGS in it. -/
def pushesFlags (fl : ℕ → Word) : Event → Bool
  | .trap c t => t.tf.tfEflags == fl c
  | _ => true

/-- Whether an event is an entry into the kernel that ends outside of it. -/
def Event.leaves : Event → Bool
  | .start _ => true
  | .trap _ _ => true
  | _ => false

/-- One step. -/
def flagStep (x : KState × (ℕ → Word)) : FlagEvent → Option (KState × (ℕ → Word))
  | .kernel ev =>
    if pushesFlags x.2 ev then (step x.1 ev).map fun s' =>
      (s', if ev.leaves then Function.update x.2 ev.cpu (leaveFlags s' ev.cpu) else x.2)
    else none
  | .load c w => if x.1.curenv c ≠ none then some (x.1, Function.update x.2 c (userFlags (x.2 c) w))
      else none

/-- Interrupts are on, and the program cannot turn them off. -/
def FlagsOn (w : Word) : Prop := test w FL_IF = true ∧ w &&& FL_IOPL_MASK = 0

theorem flagsOn_FL_IF : FlagsOn FL_IF := ⟨by decide, by decide⟩

/-- The bits of `f` are those of `o`. -/
theorem and_of_fixed (n o : Word) {f m : Word} (h : m &&& f = m) :
    ((n &&& ~~~f) ||| (o &&& f)) &&& m = o &&& m := by
  refine BitVec.eq_of_getLsbD_eq fun i hi => ?_
  have hi' := congrArg (fun w : Word => w.getLsbD i) h
  simp only [BitVec.getLsbD_and] at hi'
  simp only [BitVec.getLsbD_and, BitVec.getLsbD_or, BitVec.getLsbD_not, hi, decide_true,
    Bool.true_and]
  revert hi'
  cases m.getLsbD i <;> cases f.getLsbD i <;> cases n.getLsbD i <;> simp

theorem FlagsOn.userFlags {old : Word} (h : FlagsOn old) (new : Word) :
    FlagsOn (userFlags old new) := by
  have hiopl : ¬ old &&& FL_IOPL_MASK = FL_IOPL_MASK := by
    rw [h.2]
    decide
  have hflags : JOS.userFlags old new =
      (new &&& ~~~(FL_IOPL_MASK ||| FL_IF)) ||| (old &&& (FL_IOPL_MASK ||| FL_IF)) := by
    rw [JOS.userFlags, if_neg hiopl]
  rw [hflags]
  constructor
  · rw [test, and_of_fixed new old (by decide)]
    exact h.1
  · rw [and_of_fixed new old (by decide)]
    exact h.2

/-! ### The registers of environments -/

/-- An environment that is not free or that a CPU runs has good EFLAGS among its registers. -/
def FramesOn (t : Table) : Prop :=
  ∀ e, ((t.envs e).envStatus ≠ .free ∨ ∃ c, t.curenv c = some e) → FlagsOn (t.envs e).envTf.tfEflags

/-- Every write that is allowed keeps them good, when the trap has pushed good ones. -/
theorem FramesOn.write (h : FramesOn t) (hw : Allowed s ev c t w)
    (hpush : ∀ c e trap, ev = .trap c trap → s.curenv c = some e → FlagsOn trap.tf.tfEflags) :
    FramesOn (t.write w) := by
  intro e he
  by_cases hwe : w.env = some e
  · cases w with
    | frame e' tf =>
      cases hwe
      have htf : ((t.write (.frame e tf)).envs e).envTf = tf := by simp [Table.write]
      rw [htf]
      obtain ⟨hscur, htcur, ⟨-, trap, hev, rfl⟩ | ⟨-, hsame⟩⟩ := hw
      · exact hpush c e trap hev hscur
      · rw [hsame]
        exact h e (.inr ⟨c, htcur⟩)
    | alloc e' x =>
      cases hwe
      have htf : ((t.write (.alloc e x)).envs e).envTf = x.envTf := by simp [Table.write]
      rw [htf]
      obtain ⟨-, -, hfresh | ⟨cur, hcur, hsame⟩⟩ := hw
      · rw [hfresh]
        exact flagsOn_FL_IF
      · rw [hsame]
        exact h cur (.inr ⟨c, hcur⟩)
    | free c' e' =>
      cases hwe
      have htf : ((t.write (.free c' e)).envs e).envTf = (t.envs e).envTf := by simp [Table.write]
      rw [htf]
      refine h e (.inr (he.resolve_left fun hne => hne ?_))
      simp [Table.write]
    | zombie e' =>
      cases hwe
      have htf : ((t.write (.zombie e)).envs e).envTf = (t.envs e).envTf := by simp [Table.write]
      rw [htf]
      refine h e (.inl ?_)
      rw [hw.1]
      decide
    | status e' st =>
      cases hwe
      have htf : ((t.write (.status e st)).envs e).envTf = (t.envs e).envTf := by simp [Table.write]
      rw [htf]
      exact h e (hw.2.symm.imp_right fun hc => ⟨c, hc⟩)
    | upcall e' func =>
      cases hwe
      have hst : (t.write (.upcall e func)).envs e =
        { t.envs e with envPgfaultUpcall := func } := by simp [Table.write]
      rw [hst] at he ⊢
      exact h e he
    | perm e' perm =>
      cases hwe
      have hst : (t.write (.perm e perm)).envs e = { t.envs e with envIpcPerm := perm } := by
        simp [Table.write]
      rw [hst] at he ⊢
      exact h e he
    | deliver e' sender value =>
      cases hwe
      have htf : ((t.write (.deliver e sender value)).envs e).envTf.tfEflags =
          (t.envs e).envTf.tfEflags := by
        simp [Table.write]
      rw [htf]
      exact h e (hw.2.2.symm.imp_right fun hc => ⟨c, hc⟩)
    | recv e' dstva =>
      cases hwe
      obtain ⟨hb, trap, hev, hsame⟩ := hw
      have htf : ((t.write (.recv e dstva)).envs e).envTf = trap.tf := by simp [Table.write, hsame]
      rw [htf]
      exact hpush c e trap hev hb.curenv
    | clear c' => cases hwe
    | run c' e' =>
      cases hwe
      rw [Table.write_run_self]
      obtain ⟨-, hst | ⟨hc, -⟩⟩ := hw
      · refine h e (.inl ?_)
        rw [hst]
        decide
      · exact h e (.inr ⟨c, hc⟩)
  · -- the record of another environment
    rcases Table.write_envs_of_ne (t := t) hwe with henv | ⟨c', e', -, -, hr, henv⟩
    · rw [henv] at he ⊢
      exact h e (he.imp_right (Exists.imp fun c' hc' => Table.curenv_of_write hc' hwe))
    · rw [henv]
      refine h e (.inl ?_)
      rw [hr]
      decide

/-! ### In every state of a run -/

/-- The invariant of a run. -/
structure FlagsOk (x : KState × (ℕ → Word)) : Prop where
  frames : FramesOn x.1.table
  cpus : ∀ c, FlagsOn (x.2 c)

variable {x x' : KState × (ℕ → Word)} {fev : FlagEvent}

theorem FlagsOk.step (h : FlagsOk x) (hs : flagStep x fev = some x') : FlagsOk x' := by
  cases fev with
  | load c w =>
    rw [flagStep] at hs
    split_ifs at hs
    cases hs
    refine ⟨h.frames, fun c' => ?_⟩
    dsimp only
    by_cases hcc : c' = c
    · rw [hcc, Function.update_self]
      exact (h.cpus c).userFlags w
    · rw [Function.update_of_ne hcc]
      exact h.cpus c'
  | kernel ev =>
    have hpush : pushesFlags x.2 ev = true := by
      by_contra hnot
      rw [flagStep, if_neg hnot] at hs
      cases hs
    rw [flagStep, if_pos hpush] at hs
    obtain ⟨s', hstep, rfl⟩ := Option.map_eq_some_iff.mp hs
    have hpushed : ∀ c e trap, ev = .trap c trap → x.1.curenv c = some e →
        FlagsOn trap.tf.tfEflags := by
      rintro c e trap rfl -
      have heq : trap.tf.tfEflags = x.2 c := by simpa [pushesFlags] using hpush
      rw [heq]
      exact h.cpus c
    have hframes : FramesOn s'.table := by
      refine (step_written hstep).invariant h.frames ?_
      rintro t _ w ht hw ⟨rfl⟩
      exact ht.write hw hpushed
    refine ⟨hframes, fun c => ?_⟩
    dsimp only
    split_ifs
    · by_cases hc : c = ev.cpu
      · rw [hc, Function.update_self, leaveFlags]
        cases hcur : s'.curenv ev.cpu with
        | none => exact flagsOn_FL_IF
        | some e => exact hframes e (.inr ⟨ev.cpu, hcur⟩)
      · rw [Function.update_of_ne hc]
        exact h.cpus c
    · exact h.cpus c

theorem flagsOk_of_reach (h₀ : Booted s₀)
    (h : Reach flagStep (fun _ _ => True) (s₀, fun _ => FL_IF) x) : FlagsOk x := by
  refine h.invariant ⟨fun e he => ?_, fun _ => flagsOn_FL_IF⟩ fun _ _ _ ht _ hs => ht.step hs
  rcases he with hlive | ⟨c, hc⟩
  · exact absurd (h₀.envs e).1 hlive
  · have hnone : s₀.table.curenv c = none := h₀.cpus c
    rw [hnone] at hc
    cases hc

/-! ### The gates -/

/-- All gates but one are interrupt gates. -/
theorem gdType_of_present {v : Word} (hp : (idt v).gdP ≠ 0) (hv : v ≠ T_BRKPT) :
    (idt v).gdType = STS_IG32 := by
  have hall : ∀ x ∈ trapInit, x.1 ≠ T_BRKPT → x.2.gdType = STS_IG32 := by decide
  rw [idt] at hp ⊢
  cases hl : trapInit.lookup v with
  | none =>
    rw [hl] at hp
    exact absurd rfl hp
  | some g =>
    obtain ⟨l₁, l₂, heq, -⟩ := List.lookup_eq_some_iff.mp hl
    refine hall (v, g) ?_ hv
    rw [heq]
    exact List.mem_append_right l₁ List.mem_cons_self

/-- The CPU only takes gates that are present. -/
theorem present_vector (cpl : ℕ) (cause : Cause) : (idt (cause.vector cpl)).gdP ≠ 0 := by
  have hsegnp : (idt T_SEGNP).gdP ≠ 0 := by decide
  have hgpflt : (idt T_GPFLT).gdP ≠ 0 := by decide
  cases cause with
  | exception v =>
    rw [Cause.vector]
    split_ifs with hp
    · exact hsegnp
    · exact hp
  | software v =>
    rw [Cause.vector]
    split_ifs with hdpl hp
    · exact hgpflt
    · exact hsegnp
    · exact hp
  | hardware v =>
    rw [Cause.vector]
    split_ifs with hp
    · exact hsegnp
    · exact hp

/-- Behind an interrupt gate interrupts are off. -/
theorem trapAssert_iff {cpl : ℕ} {cause : Cause} {fl : Word} (hfl : FlagsOn fl) :
    trapAssert (idt (cause.vector cpl)) fl = true ↔ cause.vector cpl ≠ T_BRKPT := by
  constructor
  · intro hassert heq
    have htrap : (idt T_BRKPT).eflags fl = fl := if_neg (by decide)
    rw [heq, trapAssert, htrap, hfl.1] at hassert
    cases hassert
  · intro hv
    have hoff : fl &&& ~~~FL_IF &&& FL_IF = 0 := by
      rw [BitVec.and_assoc, show ~~~FL_IF &&& FL_IF = 0#32 by decide]
      exact BitVec.and_zero
    rw [trapAssert, Gatedesc.eflags, if_pos (gdType_of_present (present_vector cpl cause) hv), test,
      hoff]
    rfl

/-- **Interrupts are off when `trap` begins**, in any run and for whatever makes the CPU take a gate
next, exactly when that gate is not the one for breakpoints. -/
theorem trapAssert_iff_of_reach (h₀ : Booted s₀)
    (h : Reach flagStep (fun _ _ => True) (s₀, fun _ => FL_IF) x)
    (c cpl : ℕ) (cause : Cause) :
    trapAssert (idt (cause.vector cpl)) (x.2 c) = true ↔ cause.vector cpl ≠ T_BRKPT :=
  trapAssert_iff ((flagsOk_of_reach h₀ h).cpus c)

/-- An environment runs, and has tried to turn interrupts off. -/
theorem flagRun_user : ∃ x, Reach flagStep (fun _ _ => True) (bootState 1, fun _ => FL_IF) x ∧
    x.1.curenv 0 = some 0 := by
  let evs : List FlagEvent := [.kernel (.create 0 emptyElf), .kernel (.start 0), .load 0 0]
  have hrun : (evs.foldlM flagStep (bootState 1, fun _ => FL_IF)).map (fun x => x.1.curenv 0) =
      some (some 0) := by
    decide +kernel
  obtain ⟨x, hs, hx⟩ := Option.map_eq_some_iff.mp hrun
  exact ⟨x, Reach.of_foldlM hs fun _ _ _ => trivial, hx⟩

/-- A timer interrupt of that environment gets into `trap` with interrupts off. -/
theorem trapAssert_timer : ∃ x : KState × (ℕ → Word), x.1.curenv 0 = some 0 ∧
    trapAssert (idt ((Cause.hardware IRQ_OFFSET).vector 3)) (x.2 0) = true := by
  obtain ⟨x, hreach, hcur⟩ := flagRun_user
  exact ⟨x, hcur, (trapAssert_iff_of_reach (bootState_booted 1) hreach 0 3
    (.hardware IRQ_OFFSET)).mpr (by decide)⟩

/-- Its `int3` gets there with interrupts on. -/
theorem not_trapAssert : ∃ x, Reach flagStep (fun _ _ => True) (bootState 1, fun _ => FL_IF) x ∧
    x.1.curenv 0 = some 0 ∧
    trapAssert (idt ((Cause.software T_BRKPT).vector 3)) (x.2 0) = false := by
  obtain ⟨x, hreach, hcur⟩ := flagRun_user
  refine ⟨x, hreach, hcur, ?_⟩
  have hfl := (flagsOk_of_reach (bootState_booted 1) hreach).cpus 0
  have hgate : (Cause.software T_BRKPT).vector 3 = T_BRKPT := by decide
  have hnot : ¬ trapAssert (idt ((Cause.software T_BRKPT).vector 3)) (x.2 0) = true :=
    fun hassert => (trapAssert_iff hfl).mp hassert hgate
  simpa using hnot

end JOS
