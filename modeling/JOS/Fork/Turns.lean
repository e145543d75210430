import JOS.Spaces.Confined
import JOS.Spaces.Contents

/-!
# How a trap ends for the address spaces

A trap of a program destroys it, writes the frame of its page fault, is a system call that returns,
or leaves all address spaces as they are (`trap_turns`). The contents of user pages change in the
second case only.
-/

namespace JOS

open JOS.General

variable {s s' s₂ : KState} {ev : Event} {k : ℕ → Kind} {c e : ℕ} {t : TrapIn} {r : Word}

/-- The system call of `e` returns `r`. -/
def Answer (s : KState) (c e : ℕ) (t : TrapIn) (r : Word) (s' : KState) : Prop :=
  ∃ s₂, syscall (trapEntry s.reset c e t) c e t.args = .ok (r, s₂) ∧
    trapReturn (returned s₂ e r) c = .gone s'

/-- How a trap of `e` ends. -/
inductive TrapTurns (s : KState) (k : ℕ → Kind) (c e : ℕ) (t : TrapIn) (s' : KState) : Prop where
  /-- The environment is destroyed. -/
  | destroyed {k' : ℕ → Kind} : Does (s.vmState k) (.destroy e) (s'.vmState k') →
      (∀ q, k q = .data → s'.mem.phys q = s.mem.phys q) → TrapTurns s k c e t s'
  /-- Its page fault handler starts. -/
  | frame : t.tf.tfTrapno = T_PGFLT → FrameWritten s c e t s' → TrapTurns s k c e t s'
  /-- A system call returns `r`. -/
  | answered {r : Word} : t.tf.tfTrapno = T_SYSCALL → Answer s c e t r s' →
      (∀ q, k q = .data → s'.mem.phys q = s.mem.phys q) → TrapTurns s k c e t s'
  /-- Nothing is mapped or unmapped. -/
  | same : t.tf.tfTrapno ≠ T_PGFLT →
      (t.tf.tfTrapno = T_SYSCALL → SysNo.ofWord t.args.no = some .yield ∨
        SysNo.ofWord t.args.no = some .ipcRecv) →
      SameSpaces s s' → TrapTurns s k c e t s'

/-- A system call that returns leaves the address spaces as it is. -/
theorem returned_spaces (h : trapReturn (returned s₂ e r) c = .gone s') : SameSpaces s₂ s' :=
  (sameSpaces_returned _ _ _).trans (trapReturn_spaces h)

/-- Its result is in `eax`. -/
theorem returned_eax (h : trapReturn (returned s₂ e r) c = .gone s') :
    (s'.envs e).envTf.tfRegs.regEax = r := by
  obtain ⟨st, runs, cpu, -, henv⟩ := trapReturn_kept h e
  rw [henv]
  simp [returned]

/-- The records of others are those that it leaves. -/
theorem returned_kept {e' : ℕ} (h : trapReturn (returned s₂ e r) c = .gone s') (he : e' ≠ e) :
    (s₂.envs e').Kept (s'.envs e') := by
  have hrec : (returned s₂ e r).envs e' = s₂.envs e' := Function.update_of_ne he _ _
  rw [← hrec]
  exact trapReturn_kept h e'

/-- **Every trap** of a program. -/
theorem trap_turns (hx : (s.vmState k).Sound) (hload : Loaded s) (hcur : s.curenv c = some e)
    (hs : step s (.trap c t) = some s') :
    TrapTurns s k c e t s' := by
  by_cases hpf : t.tf.tfTrapno = T_PGFLT
  · rcases pageFault_ends hx hload hcur hpf hs with ⟨⟨k', hdoes⟩, hphys⟩ | hframe
    · exact .destroyed hdoes hphys
    · exact .frame hpf hframe
  have hphys : ∀ q, k q = .data → s'.mem.phys q = s.mem.phys q := by
    have hs := hs
    simp only [step] at hs
    split_ifs at hs
    exact fun q hq => trap_phys hx (fun _ _ => hpf) (state?_eq_some.mp hs) hq
  have hentry : SameSpaces s (trapEntry s.reset c e t) := trapEntry_spaces s.reset c e t
  have hx₁ := hentry.sound hx
  have hcur₁ : (trapEntry s.reset c e t).curenv c = some e := @trapEntry_curenv s.reset c e hcur t
  have hfreed : ∀ {e'}, envDestroy (trapEntry s.reset c e t) c e' = .error (.gone s') →
      TrapTurns s k c e t s' := by
    intro e' h
    obtain ⟨hce, k', hdoes⟩ := envDestroy_gone_does hx₁ h
    cases hcur₁.symm.trans hce
    rw [hentry.vmState] at hdoes
    exact .destroyed hdoes hphys
  by_cases hsys : t.tf.tfTrapno = T_SYSCALL ∧ s.status e ≠ .dying
  · obtain ⟨hsys, hdying⟩ := hsys
    have hcall : SysCall s (.trap c t) c e t.args (trapEntry s.reset c e t) :=
      ⟨t, rfl, hcur, hdying, hsys, rfl, rfl⟩
    rcases hcall.step_cases hs with h | ⟨r, s₂, hr, h⟩
    · rcases syscall_gone_cases h with ⟨hno, h⟩ | ⟨hno, -, h⟩ | ⟨e', -, -, h⟩ | ⟨-, h⟩
      · exact .same hpf (fun _ => .inl hno) (hentry.trans (schedYield_spaces h))
      · exact .same hpf (fun _ => .inr hno)
          (hentry.trans ((sameSpaces_blocked _ e t.args.a1).trans (schedYield_spaces h)))
      · exact hfreed h
      · exact hfreed h
    · exact .answered hsys ⟨s₂, hr, h⟩ hphys
  simp only [step] at hs
  split_ifs at hs with hfits
  cases trapEnds (state?_eq_some.mp hs) with
  | dying hcur' _ hfree h =>
    cases hcur.symm.trans hcur'
    have hstarted : SameSpaces s (s.reset.setCpu c { s.reset.cpus c with cpuStatus := .started }) :=
      ⟨rfl, rfl⟩
    obtain ⟨k', hdoes⟩ := exits_does (hstarted.sound hx) hfree h
    rw [hstarted.vmState] at hdoes
    exact .destroyed hdoes hphys
  | wakes hk _ => exact absurd (trapFits_user hcur hfits) hk
  | user hcur' hdying h =>
    cases hcur.symm.trans hcur'
    have hno : t.tf.tfTrapno ≠ T_SYSCALL := fun h => hsys ⟨h, hdying⟩
    cases h with
    | pageFault h _ => exact absurd h hpf
    | leaves h _ => exact absurd h hno
    | returns h _ _ _ => exact absurd h hno
    | spurious _ h => exact .same hpf (fun h => absurd h hno) (hentry.trans (trapReturn_spaces h))
    | timer h => exact .same hpf (fun h => absurd h hno) (hentry.trans (schedYield_spaces h))
    | destroys h => exact hfreed h

end JOS
