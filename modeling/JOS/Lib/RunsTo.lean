import JOS.Lib.Access
import JOS.Spaces.Upper

/-!
# The instructions of a program are steps of the machine

A store of a program is an event of the machine, so what holds in every state that the machine comes
to holds between the instructions of the upcall, too. The log is about the last event only, and is
left out.
-/

namespace JOS

open JOS.General Running

variable {s₀ s s' : KState} {x y : Running} {t : TrapIn} {ev : Event} {c : ℕ} {a w : Word}
  {b : BitVec 8}

/-- The machine comes from `s₀` to `s`, the log apart. -/
def RunsTo (s₀ s : KState) : Prop := ∃ s', Reach step Tame s₀ s' ∧ s.reset = s'.reset

/-- The log is no part of what happens. -/
theorem step_congr (h : s.reset = s'.reset) : step s ev = step s' ev := by
  unfold step
  rw [h]

theorem RunsTo.of_reach (h : Reach step Tame s₀ s) : RunsTo s₀ s := ⟨s, h, rfl⟩

theorem RunsTo.step (h : RunsTo s₀ s) (htame : ∀ s, Tame s ev) (hs : JOS.step s ev = some s') :
    RunsTo s₀ s' := by
  obtain ⟨s₁, hreach, heq⟩ := h
  rw [step_congr heq] at hs
  exact .of_reach (hreach.tail (htame s₁) hs)

/-- What holds in the states of a run. -/
theorem RunsTo.sound (h₀ : Booted s₀) (h : RunsTo s₀ s) : SoundState s ∧ Good s := by
  obtain ⟨s', hreach, heq⟩ := h
  have hs : s = { s' with acts := s.acts } := by
    cases s
    cases s'
    cases heq
    rfl
  have hsound := sound_of_reach h₀ hreach
  have hgood := good_of_reach h₀ hreach
  rw [hs]
  exact ⟨⟨hsound.sound, hsound.loaded, hsound.alone, hsound.free, hsound.live, hsound.table⟩,
    hgood.same ⟨rfl, rfl⟩⟩

/-- A fault. -/
theorem RunsTo.trap (h : RunsTo s₀ s) (hno : t.tf.tfTrapno = T_PGFLT)
    (hs : JOS.step s (.trap c t) = some s') : RunsTo s₀ s' :=
  h.step (fun s => tame_of_check (by rw [tameCheck, hno]; rfl)) hs

theorem RunsTo.store8 (h : RunsTo s₀ x.kern) (hs : x.store8 a b = some y) : RunsTo s₀ y.kern := by
  obtain ⟨s, hstore, rfl⟩ := Option.map_eq_some_iff.mp hs
  have hreset : JOS.step x.kern (.store x.cpu a b) = some s.reset := by
    rw [userStore] at hstore
    simp only [JOS.step, userStore]
    split_ifs at hstore with hcur
    rw [if_pos (show x.kern.reset.curenv x.cpu ≠ none ∧ a < UTOP from hcur)]
    split at hstore
    · rename_i pte ht
      have ht : translate x.kern.reset.mem (x.kern.reset.cpus x.cpu).cr3 a = some pte := ht
      split_ifs at hstore with hperm
      cases hstore
      simp only [ht, if_pos hperm]
      rfl
    · cases hstore
  obtain ⟨s', hreach, heq⟩ := h.step (fun s => tame_of_check rfl) hreset
  exact ⟨s', hreach, heq⟩

/-- What stores keep is kept by instructions. -/
theorem exec_invariant {I : KState → Prop} {i : Instr}
    (hI : ∀ {x y : Running} {a : Word} {b : BitVec 8}, I x.kern → x.store8 a b = some y → I y.kern)
    (h : I x.kern) (hs : exec x i = some y) : I y.kern := by
  have hstore : ∀ {x y : Running} {a w : Word}, I x.kern → x.store a w = some y → I y.kern := by
    intro x y a w h hs
    have hreach : Reach (fun (x : Running) k => x.store8 (a + BitVec.ofNat 32 k) (byteOf w k))
      (fun _ _ => True) x y :=
      Reach.of_foldlM hs fun _ _ _ => trivial
    exact hreach.invariant (I := fun x => I x.kern) h fun _ _ _ hx _ hstore => hI hx hstore
  cases i with
  | movlStore src base => exact hstore h hs
  | addl imm dst =>
    cases hs
    exact h
  | pushl src =>
    obtain ⟨z, hz, ⟨⟩⟩ := Option.bind_eq_some_iff.mp hs
    have hz := hstore h hz
    exact hz
  | call target next =>
    obtain ⟨z, hz, ⟨⟩⟩ := Option.bind_eq_some_iff.mp hs
    have hz := hstore h hz
    exact hz
  | sublAt imm disp base =>
    obtain ⟨a, -, hs⟩ := Option.bind_eq_some_iff.mp hs
    obtain ⟨z, hz, ⟨⟩⟩ := Option.bind_eq_some_iff.mp hs
    have hz := hstore h hz
    exact hz
  | popal =>
    simp only [exec, Option.bind_eq_bind, Option.bind_eq_some_iff] at hs
    obtain ⟨_, -, _, -, _, -, _, -, _, -, _, -, _, -, ⟨⟩⟩ := hs
    exact h
  | _ =>
    obtain ⟨w, -, ⟨⟩⟩ := Option.bind_eq_some_iff.mp hs
    exact h

theorem execAll_invariant {I : KState → Prop} {code : List Instr}
    (hI : ∀ {x y : Running} {a : Word} {b : BitVec 8}, I x.kern → x.store8 a b = some y → I y.kern)
    (h : I x.kern) (hs : execAll code x = some y) : I y.kern := by
  have hreach : Reach exec (fun _ _ => True) x y := Reach.of_foldlM hs fun _ _ _ => trivial
  exact hreach.invariant (I := fun x => I x.kern) h fun _ _ _ hx _ hexec =>
    exec_invariant hI hx hexec

/-- **The instructions of a program** are a run of the machine. -/
theorem RunsTo.execAll {code : List Instr} (h : RunsTo s₀ x.kern)
    (hs : JOS.execAll code x = some y) : RunsTo s₀ y.kern :=
  execAll_invariant RunsTo.store8 h hs

/-- They do nothing to the environments. -/
theorem execAll_envs {code : List Instr} (hs : execAll code x = some y) :
    y.kern.envs = x.kern.envs := by
  refine execAll_invariant (I := fun s => s.envs = x.kern.envs) ?_ rfl hs
  intro z u a b h hz
  obtain ⟨s, hstore, rfl⟩ := Option.map_eq_some_iff.mp hz
  rw [userStore] at hstore
  split_ifs at hstore
  split at hstore
  · split_ifs at hstore
    cases hstore
    exact h
  · cases hstore

end JOS
