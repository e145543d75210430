import JOS.Calls.Failure
import JOS.Envs.Ids
import JOS.Envs.Step
import JOS.Spaces.Sound

/-!
# Whose record a step writes

Two facts about the records of environments. The ids of an environment stay as long as it has an
address space (`Written.ids`), and they name its slot (`OwnIds`). An environment that is not
runnable and runs nowhere stays so, and its record with it, until a system call destroys it, sets
its status or sends it a message (`Written.asleep`).
-/

namespace JOS

open JOS.General

variable {s s' s₁ : KState} {ev : Event} {c cur e : ℕ} {t : Table} {a : SysArgs} {envid : Word}

/-- What the ids of a slot are when it has an address space. -/
def OwnIds (t : Table) : Prop := ∀ e, (t.envs e).envPgdir ≠ none → 0 < (t.envs e).envId.toInt ∧
    ENVX (t.envs e).envId = e

/-- The ids of `e` are those of `x`. -/
def SameIds (x : Env) (t : Table) (e : ℕ) : Prop := (t.envs e).envId = x.envId ∧
    (t.envs e).envParentId = x.envParentId

/-- `env_run` writes no ids. -/
theorem SameIds.of_envs {x : Env} {t' : Table} (h : SameIds x t e)
    (heq : (t'.envs e).envId = (t.envs e).envId)
    (heq' : (t'.envs e).envParentId = (t.envs e).envParentId) : SameIds x t' e :=
  ⟨heq.trans h.1, heq'.trans h.2⟩

/-- Only `env_alloc` writes ids. -/
theorem Table.write_ids {w : Write} (h : ∀ x, w ≠ .alloc e x) :
    SameIds (t.envs e) (t.write w) e := by
  by_cases hw : w.env = some e
  · cases w with
    | alloc e' x =>
      cases hw
      exact absurd rfl (h x)
    | run c e' =>
      cases hw
      rw [SameIds, Table.write_run_self]
      exact ⟨rfl, rfl⟩
    | clear c => cases hw
    | _ =>
      cases hw
      simp [SameIds, Table.write, Table.setEnv, Table.log]
  · rcases Table.write_envs_of_ne hw with heq |
      ⟨_, _, _, _, _, heq⟩ <;> rw [SameIds, heq] <;> exact ⟨rfl, rfl⟩

/-- Only `env_alloc` gives an address space. -/
theorem Table.write_pgdir {w : Write} (h : ∀ x, w ≠ .alloc e x)
    (hd : ((t.write w).envs e).envPgdir ≠ none) :
    (t.envs e).envPgdir ≠ none := by
  by_cases hw : w.env = some e
  · cases w with
    | alloc e' x =>
      cases hw
      exact absurd rfl (h x)
    | run c e' =>
      cases hw
      rwa [Table.write_run_self] at hd
    | clear c => cases hw
    | _ =>
      cases hw
      simp [Table.write, Table.setEnv, Table.log] at hd
      <;> exact hd
  · rcases Table.write_envs_of_ne hw with heq | ⟨_, _, _, _, _, heq⟩ <;> rwa [heq] at hd

/-- **Ids stay** while an environment has its address space. -/
theorem Written.ids (h : Written s ev c t) (hfree : FreeHead s) (hd : s.dirs e ≠ none) :
    SameIds (s.envs e) t e := by
  refine h.invariant (I := fun t => SameIds (s.envs e) t e) ⟨rfl, rfl⟩ fun t t' w ht hw ht' => ?_
  cases ht'
  have hno : ∀ x, w ≠ .alloc e x := by
    rintro x rfl
    exact hd (hfree e hw.1).2
  have hids := Table.write_ids (t := t) hno
  exact ht.of_envs hids.1 hids.2

/-- **Ids name the slot**, in every state of a run. -/
theorem OwnIds.written (h₀ : OwnIds s.table) (hfree : FreeHead s) (h : Written s ev c t) :
    OwnIds t := by
  refine h.invariant (I := OwnIds) h₀ fun t t' w ht hw ht' => ?_
  cases ht'
  intro e hd
  by_cases hno : ∀ x, w ≠ .alloc e x
  · obtain ⟨hid, -⟩ := Table.write_ids (t := t) hno
    rw [hid]
    exact ht e (Table.write_pgdir hno hd)
  · obtain ⟨x, rfl⟩ := not_forall_not.mp hno
    obtain ⟨hhead, ⟨parentId, st, ⟨pgdir, tf, rfl⟩, -⟩, -⟩ := hw
    have he := (hfree e hhead).1
    have hid : ((t.write (.alloc e { (t.envs e).renew e parentId with
        envPgdir := some pgdir, envStatus := st, envTf := tf })).envs e).envId =
        nextEnvId (t.envs e).envId e := by
      simp [Table.write, Table.setEnv, Table.log, Env.renew]
    rw [hid]
    exact ⟨nextEnvId_pos _ he, ENVX_nextEnvId _ he⟩

/-! ### Environments that do not run -/

/-- `e` is not runnable, and no CPU runs it. -/
structure Asleep (t : Table) (e : ℕ) : Prop where
  status : (t.envs e).envStatus = .notRunnable
  curenv : ∀ c, t.curenv c ≠ some e

/-- The record of `e` is `x`, but for the upcall. -/
def SameRecord (x : Env) (t : Table) (e : ℕ) : Prop :=
  ∃ func, t.envs e = { x with envPgfaultUpcall := func }

/-- **What wakes an environment** that is asleep is a system call. -/
theorem Written.asleep (h : Written s ev c t) (hs : Asleep s.table e)
    (hhead : s.envFreeList ≠ some e) (hdestroys : ¬ Destroys s ev c e)
    (hset : ∀ st, ¬ SetsStatus s ev c e st) (hsends : ¬ Sends s ev c e) :
    SameRecord (s.envs e) t e ∧ ∀ c, t.curenv c ≠ some e := by
  refine h.invariant (I := fun t => SameRecord (s.envs e) t e ∧ ∀ c, t.curenv c ≠ some e)
    ⟨⟨_, rfl⟩, hs.curenv⟩
    fun t t' w ht hw ht' => ?_
  cases ht'
  obtain ⟨⟨func, hrec⟩, hcur⟩ := ht
  have hst : (t.envs e).envStatus = .notRunnable := by
    rw [hrec]
    exact hs.status
  by_cases hwe : w.env = some e
  · -- every write to the record of `e` is ruled out but one
    cases w with
    | upcall e' func' =>
      cases hwe
      refine ⟨⟨func', ?_⟩, hcur⟩
      rw [Table.write, Table.setEnv_envs_self, hrec]
    | frame e' tf =>
      cases hwe
      exact absurd hw.1 (hs.curenv c)
    | alloc e' x =>
      cases hwe
      exact absurd hw.1 hhead
    | free c' e' =>
      cases hwe
      exact (hw.2.elim (hs.curenv c) hdestroys).elim
    | zombie e' =>
      cases hwe
      exact absurd hw.2.2 hdestroys
    | status e' st =>
      cases hwe
      exact absurd hw.1 (hset st)
    | perm e' perm =>
      cases hwe
      exact absurd hw hsends
    | deliver e' sender value =>
      cases hwe
      exact absurd hw.1.sends hsends
    | recv e' dstva =>
      cases hwe
      obtain ⟨⟨a, s₁, ⟨trap, -, hcall, -⟩, -⟩, -⟩ := hw
      exact absurd hcall (hs.curenv c)
    | clear c' => cases hwe
    | run c' e' =>
      cases hwe
      rcases hw.2 with hrun | ⟨hc, -⟩
      · rw [hst] at hrun
        cases hrun
      · exact absurd hc (hcur c)
  · refine ⟨⟨func, ?_⟩, fun c' hc' => hcur c' (Table.curenv_of_write hc' hwe)⟩
    rcases Table.write_envs_of_ne hwe with heq | ⟨c', -, -, hc', -, -⟩
    · rw [heq, hrec]
    · exact absurd hc' (hcur c')

theorem SameRecord.asleep (hs : Asleep s.table e)
    (h : SameRecord (s.envs e) t e ∧ ∀ c, t.curenv c ≠ some e) : Asleep t e := by
  obtain ⟨⟨func, hrec⟩, hcur⟩ := h
  refine ⟨?_, hcur⟩
  rw [hrec]
  exact hs.status

/-- The scheduler wakes nobody. -/
theorem Asleep.schedules {w : Write} (h : Asleep t e) (hw : Schedules c t w) :
    Asleep (t.write w) e := by
  have hwe : w.env ≠ some e := by
    intro hwe
    cases w with
    | run c' e' =>
      cases hwe
      rcases hw.2 with hrun | ⟨hc, -⟩
      · rw [h.status] at hrun
        cases hrun
      · exact h.curenv c hc
    | clear c' => cases hwe
    | _ => exact hw
  refine ⟨?_, fun c' hc' => h.curenv c' (Table.curenv_of_write hc' hwe)⟩
  rcases Table.write_envs_of_ne hwe with heq | ⟨c', -, -, hc', -, -⟩
  · rw [heq]
    exact h.status
  · exact absurd hc' (h.curenv c')

end JOS
