import JOS.Kern.Spinlock
import JOS.General.Run
import Mathlib.Tactic.SplitIfs

/-!
# The big kernel lock is held by one CPU at a time

What a place in the code says about the lock: whether the CPU there has it, whether it
has recorded that in `lk->cpu`, whether its `cpu_status` is `CPU_HALTED`, and how often
it has acquired and released the lock since it entered the kernel. `Disciplined` says
that the lock and the CPUs agree on this. A step moves one CPU from one place to the
next (`Disciplined.move`), and every step of every CPU keeps the agreement.
-/

namespace JOS

open JOS.General

open Function (update)

namespace Loc

/-- The CPU has the lock. -/
def holds : Loc → Bool
  | .bootAps _ | .bootWait _ | .record _ | .kernel | .schedHalt | .unlock _ | .clear _ |
      .release _ => true
  | .trapCs u => !u
  | _ => false

/-- The lock says that the CPU has it. -/
def recorded : Loc → Bool
  | .bootAps _ | .bootWait _ | .kernel | .schedHalt | .unlock _ | .clear _ => true
  | .trapCs u => !u
  | _ => false

/-- The CPU's status is `CPU_HALTED`. -/
def asleep : Loc → Bool
  | .trap u => !u
  | .unlock site | .clear site | .release site => site == .schedHalt
  | .halted => true
  | _ => false

/-- How often the lock has been acquired since the CPU entered the kernel. -/
def acquisitions (l : Loc) : ℕ := if l.holds || l == .user || l == .halted then 1 else 0

/-- How often it has been released. -/
def releases (l : Loc) : ℕ := if l == .user || l == .halted then 1 else 0

/-- The places a CPU can be at: not in a panic, and not at the first `lock_kernel` of `trap` after a
trap from user mode. -/
def Sound : Loc → Prop
  | .panic => False
  | .lock (.trapHalted u) | .spin (.trapHalted u) | .record (.trapHalted u) => u = false
  | _ => True

/-- What a CPU at `l` is like. -/
structure Ok (l : Loc) (st : CpuStatus) (acquired released : ℕ) : Prop where
  sound : l.Sound
  status : st = .halted ↔ l.asleep = true
  acquired : acquired = l.acquisitions
  released : released = l.releases

end Loc

/-- The lock and the CPUs agree. -/
structure Disciplined (s : LockState) : Prop where
  locked : ∀ c, (s.loc c).holds = true → s.lock.locked = true
  unique : ∀ c c', (s.loc c).holds = true → (s.loc c').holds = true → c = c'
  owner : ∀ c, s.lock.cpu = some c ↔ (s.loc c).recorded = true
  cpu : ∀ c, (s.loc c).Ok (s.status c) (s.acquired c) (s.released c)

variable {s s' : LockState} {c ncpu bootcpu : ℕ} {l l' : Loc}

/-- The CPUs other than `c`, and what they see of the lock, are as before. -/
structure Moved (s : LockState) (c : ℕ) (s' : LockState) : Prop where
  loc : ∀ c', c' ≠ c → s'.loc c' = s.loc c'
  status : ∀ c', c' ≠ c → s'.status c' = s.status c'
  acquired : ∀ c', c' ≠ c → s'.acquired c' = s.acquired c'
  released : ∀ c', c' ≠ c → s'.released c' = s.released c'
  owner : ∀ c', c' ≠ c → (s'.lock.cpu = some c' ↔ s.lock.cpu = some c')

namespace Disciplined

/-- Nobody but the CPU that has the lock has it. -/
theorem not_holds (h : Disciplined s) {c' : ℕ} (hc : (s.loc c).holds = true) (hne : c' ≠ c) :
    (s.loc c').holds = false := by
  by_contra hc'
  exact hne (h.unique c' c (Bool.not_eq_false _ ▸ hc') hc)

/-- One CPU moves. It keeps the lock or takes it when nobody has it; when it gives it up, nobody
else has it. -/
theorem move (h : Disciplined s) (hm : Moved s c s')
    (hlocked : (s'.loc c).holds = true → s'.lock.locked = true)
    (hothers : ∀ c', c' ≠ c → (s.loc c').holds = true → s'.lock.locked = true ∧
    (s'.loc c).holds = false)
    (howner : s'.lock.cpu = some c ↔ (s'.loc c).recorded = true)
    (hok : (s'.loc c).Ok (s'.status c) (s'.acquired c) (s'.released c)) : Disciplined s' := by
  refine ⟨fun c' hc' => ?_, fun c₁ c₂ h₁ h₂ => ?_, fun c' => ?_, fun c' => ?_⟩
  · by_cases hne : c' = c
    · exact hlocked (hne ▸ hc')
    · rw [hm.loc c' hne] at hc'
      exact (hothers c' hne hc').1
  · by_cases hne₁ : c₁ = c
    · by_cases hne₂ : c₂ = c
      · rw [hne₁, hne₂]
      · rw [hm.loc c₂ hne₂] at h₂
        rw [hne₁, (hothers c₂ hne₂ h₂).2] at h₁
        cases h₁
    · rw [hm.loc c₁ hne₁] at h₁
      by_cases hne₂ : c₂ = c
      · rw [hne₂, (hothers c₁ hne₁ h₁).2] at h₂
        cases h₂
      · rw [hm.loc c₂ hne₂] at h₂
        exact h.unique c₁ c₂ h₁ h₂
  · by_cases hne : c' = c
    · rw [hne]
      exact howner
    · rw [hm.owner c' hne, hm.loc c' hne]
      exact h.owner c'
  · by_cases hne : c' = c
    · rw [hne]
      exact hok
    · rw [hm.loc c' hne, hm.status c' hne, hm.acquired c' hne, hm.released c' hne]
      exact h.cpu c'

/-- The test of `holding` says what the place says. -/
theorem holding_eq (h : Disciplined s) (hl : (s.loc c).recorded = (s.loc c).holds) :
    holding s.lock c = (s.loc c).holds := by
  rw [holding]
  cases hh : (s.loc c).holds with
  | true =>
    rw [hh] at hl
    rw [h.locked c hh, (h.owner c).mpr hl]
    simp
  | false =>
    rw [hh] at hl
    have hne : s.lock.cpu ≠ some c := by
      rw [ne_eq, h.owner c, hl]
      exact Bool.false_ne_true
    simp [hne]

/-- A CPU goes on, and neither takes nor releases the lock. -/
theorem goOn (h : Disciplined s) (hm : Moved s c s') (hlock : s'.lock = s.lock)
    (hholds : (s'.loc c).holds = (s.loc c).holds) (hrec : (s'.loc c).recorded = (s.loc c).recorded)
    (hok : (s'.loc c).Ok (s'.status c) (s'.acquired c) (s'.released c)) : Disciplined s' := by
  refine h.move hm (fun hc => ?_) (fun c' hne hc' => ⟨?_, ?_⟩) ?_ hok
  · rw [hlock]
    exact h.locked c (hholds ▸ hc)
  · rw [hlock]
    exact h.locked c' hc'
  · rw [hholds]
    exact h.not_holds hc' hne.symm
  · rw [hlock, hrec]
    exact h.owner c

end Disciplined

@[simp] theorem goto_loc (s : LockState) (c : ℕ) (l : Loc) : (s.goto c l).loc c = l :=
  Function.update_self _ _ _

/-- A CPU that goes from `l` to `l'` neither takes nor releases the lock. -/
structure Loc.Like (l l' : Loc) : Prop where
  holds : l'.holds = l.holds
  recorded : l'.recorded = l.recorded
  acquisitions : l'.acquisitions = l.acquisitions
  releases : l'.releases = l.releases
  sound : l'.Sound

theorem Loc.holds_of_recorded (h : l.recorded = true) : l.holds = true := by
  cases l <;> first | rfl | exact h

namespace Disciplined

/-- A step that exchanges `cpu_status` and goes on. -/
theorem setStatus_goto {st : CpuStatus} (h : Disciplined s) (hl : s.loc c = l) (hlike : l.Like l')
    (hst : st = .halted ↔ l'.asleep = true) : Disciplined ((s.setStatus c st).goto c l') := by
  have hself : ((s.setStatus c st).goto c l').loc c = l' := goto_loc _ _ _
  obtain ⟨-, -, h₃, h₄⟩ := h.cpu c
  rw [hl] at h₃ h₄
  refine h.goOn ⟨fun c' hne => Function.update_of_ne hne _ _, fun c' hne =>
    Function.update_of_ne hne _ _,
    fun _ _ => rfl, fun _ _ => rfl, fun _ _ => .rfl⟩ rfl ?_ ?_ ?_
  · rw [hself, hl, hlike.holds]
  · rw [hself, hl, hlike.recorded]
  · rw [hself]
    refine ⟨hlike.sound, ?_, ?_, ?_⟩
    · rw [show ((s.setStatus c st).goto c l').status c = st from Function.update_self _ _ _]
      exact hst
    · rw [hlike.acquisitions]
      exact h₃
    · rw [hlike.releases]
      exact h₄

/-- A step that only goes on. -/
theorem goto (h : Disciplined s) (hl : s.loc c = l) (hlike : l.Like l')
    (hasleep : l'.asleep = l.asleep) :
    Disciplined (s.goto c l') := by
  have hst := (h.cpu c).status
  rw [hl, ← hasleep] at hst
  have := h.setStatus_goto hl hlike hst
  rwa [show s.setStatus c (s.status c) = s by rw [LockState.setStatus,
    Function.update_eq_self]] at this

/-- A CPU out of the kernel enters it. -/
theorem enter (h : Disciplined s) (hl : s.loc c = l) (hholds : l.holds = false)
    (hrec : l.recorded = false)
    (u : Bool) (hasleep : l.asleep = !u) : Disciplined (s.enter c (.trap u)) := by
  have hself : (s.enter c (.trap u)).loc c = .trap u := goto_loc _ _ _
  have hst := (h.cpu c).status
  rw [hl, hasleep] at hst
  refine h.goOn ⟨fun c' hne => Function.update_of_ne hne _ _, fun _ _ => rfl, fun c' hne =>
    Function.update_of_ne hne _ _,
    fun c' hne => Function.update_of_ne hne _ _, fun _ _ => .rfl⟩ rfl ?_ ?_ ?_
  · rw [hself, hl, hholds]
    rfl
  · rw [hself, hl, hrec]
    rfl
  · rw [hself]
    exact ⟨trivial, hst, Function.update_self _ _ _, Function.update_self _ _ _⟩

/-! ### `spin_lock` and `spin_unlock` -/

/-- The exchange that finds the lock free. -/
theorem acquire {site : LockSite} (h : Disciplined s) (hl : s.loc c = .spin site)
    (hfree : s.lock.locked = false) :
    Disciplined { s.goto c (.record site) with
      lock := { s.lock with locked := true }, acquired :=
          update s.acquired c (s.acquired c + 1) } := by
  obtain ⟨h₁, h₂, h₃, h₄⟩ := h.cpu c
  have howner := h.owner c
  rw [hl] at h₁ h₂ h₃ h₄ howner
  refine h.move (c := c) ⟨fun c' hne => Function.update_of_ne hne _ _, fun _ _ => rfl,
    fun c' hne => Function.update_of_ne hne _ _, fun _ _ => rfl, fun _ _ => .rfl⟩ (fun _ => rfl)
      (fun c' _ hc' => ?_) ?_ ?_
  · have := h.locked c' hc'
    rw [hfree] at this
    cases this
  · dsimp only
    rw [goto_loc]
    exact howner
  · dsimp only
    rw [goto_loc, Function.update_self, h₃]
    refine ⟨?_, h₂, rfl, h₄⟩
    cases site <;> exact h₁

/-- `lk->cpu = thiscpu`. -/
theorem record {site : LockSite} (h : Disciplined s) (hl : s.loc c = .record site) :
    Disciplined { s.goto c site.after with lock := { s.lock with cpu := some c } } := by
  have hholds : (s.loc c).holds = true := by rw [hl]; rfl
  obtain ⟨h₁, h₂, h₃, h₄⟩ := h.cpu c
  rw [hl] at h₁ h₂ h₃ h₄
  -- the first `lock_kernel` of `trap` is reached by halted CPUs alone
  have hafter : site.after.holds = true ∧ site.after.recorded = true ∧ site.after.asleep = false ∧
      site.after.acquisitions = 1 ∧ site.after.releases = 0 ∧ site.after.Sound := by
    cases site with
    | trapHalted u =>
      have hu : u = false := h₁
      subst hu
      exact ⟨rfl, rfl, rfl, rfl, rfl, trivial⟩
    | _ => exact ⟨rfl, rfl, rfl, rfl, rfl, trivial⟩
  obtain ⟨ha₁, ha₂, ha₃, ha₄, ha₅, ha₆⟩ := hafter
  refine h.move (c := c) ⟨fun c' hne => Function.update_of_ne hne _ _, fun _ _ => rfl, fun _ _ =>
    rfl, fun _ _ => rfl,
    fun c' hne => ?_⟩ (fun _ => h.locked c hholds) (fun c' hne hc' => ?_) ?_ ?_
  · constructor
    · intro hcc
      exact absurd (Option.some.inj hcc).symm hne
    · intro hcc
      have := Loc.holds_of_recorded ((h.owner c').mp hcc)
      rw [h.not_holds hholds hne] at this
      cases this
  · rw [h.not_holds hholds hne] at hc'
    cases hc'
  · dsimp only
    rw [goto_loc, ha₂]
    simp
  · dsimp only
    rw [goto_loc]
    refine ⟨ha₆, ?_, ?_, ?_⟩
    · rw [ha₃]; exact h₂
    · rw [ha₄]; exact h₃
    · rw [ha₅]; exact h₄

/-- `lk->cpu = 0`. -/
theorem clear {site : UnlockSite} (h : Disciplined s) (hl : s.loc c = .clear site) :
    Disciplined { s.goto c (.release site) with lock := { s.lock with cpu := none } } := by
  have hholds : (s.loc c).holds = true := by rw [hl]; rfl
  obtain ⟨-, h₂, h₃, h₄⟩ := h.cpu c
  rw [hl] at h₂ h₃ h₄
  refine h.move (c := c) ⟨fun c' hne => Function.update_of_ne hne _ _, fun _ _ => rfl, fun _ _ =>
    rfl, fun _ _ => rfl,
    fun c' hne => ?_⟩ (fun _ => h.locked c hholds) (fun c' hne hc' => ?_) ?_ ?_
  · constructor
    · exact nofun
    · intro hcc
      have := Loc.holds_of_recorded ((h.owner c').mp hcc)
      rw [h.not_holds hholds hne] at this
      cases this
  · rw [h.not_holds hholds hne] at hc'
    cases hc'
  · dsimp only
    rw [goto_loc]
    exact ⟨nofun, nofun⟩
  · dsimp only
    rw [goto_loc]
    exact ⟨trivial, h₂, h₃, h₄⟩

/-- The exchange that frees the lock. -/
theorem release {site : UnlockSite} (h : Disciplined s) (hl : s.loc c = .release site) :
    Disciplined { s.goto c site.after with
      lock := { s.lock with locked := false }, released :=
          update s.released c (s.released c + 1) } := by
  have hholds : (s.loc c).holds = true := by rw [hl]; rfl
  obtain ⟨-, h₂, h₃, h₄⟩ := h.cpu c
  have howner := h.owner c
  rw [hl] at h₂ h₃ h₄ howner
  have hafter : site.after.holds = false ∧ site.after.recorded = false ∧
      site.after.asleep = (Loc.release site).asleep ∧ site.after.acquisitions = 1 ∧
        site.after.releases = 1 ∧
        site.after.Sound := by
    cases site <;> exact ⟨rfl, rfl, rfl, rfl, rfl, trivial⟩
  obtain ⟨ha₁, ha₂, ha₃, ha₄, ha₅, ha₆⟩ := hafter
  refine h.move (c := c) ⟨fun c' hne => Function.update_of_ne hne _ _, fun _ _ => rfl,
    fun _ _ => rfl,
    fun c' hne => Function.update_of_ne hne _ _, fun _ _ => .rfl⟩ (fun hc => ?_)
      (fun c' hne hc' => ?_) ?_ ?_
  · dsimp only at hc
    rw [goto_loc, ha₁] at hc
    cases hc
  · rw [h.not_holds hholds hne] at hc'
    cases hc'
  · dsimp only
    rw [goto_loc, ha₂]
    exact howner
  · dsimp only
    rw [goto_loc, Function.update_self, h₄]
    refine ⟨ha₆, ?_, ?_, ?_⟩
    · rw [ha₃]; exact h₂
    · rw [ha₄]; exact h₃
    · rw [ha₅]; rfl

end Disciplined

/-! ### Every step -/

/-- The next step of a CPU keeps the discipline. -/
theorem Disciplined.go (h : Disciplined s) (hs : lockGo ncpu s c = some s') : Disciplined s' := by
  have hok := h.cpu c
  rw [lockGo] at hs
  cases hl : s.loc c with
  | i386Init =>
    simp only [hl, Option.some.injEq] at hs
    subst hs
    exact h.goto hl ⟨rfl, rfl, rfl, rfl, trivial⟩ rfl
  | bootAps i =>
    simp only [hl] at hs
    split_ifs at hs with hi hic hoff <;> cases hs
    · exact h.goto hl ⟨rfl, rfl, rfl, rfl, trivial⟩ rfl
    · have h₁ : Disciplined (s.goto i .mpMain) := h.goto hoff ⟨rfl, rfl, rfl, rfl, trivial⟩ rfl
      have hl₁ : (s.goto i .mpMain).loc c = .bootAps i := by
        rw [← hl]
        exact Function.update_of_ne (Ne.symm hic) _ _
      exact h₁.goto hl₁ ⟨rfl, rfl, rfl, rfl, trivial⟩ rfl
    · exact h.goto hl ⟨rfl, rfl, rfl, rfl, trivial⟩ rfl
  | bootWait i =>
    simp only [hl, Option.some.injEq] at hs
    subst hs
    split_ifs
    · exact h.goto hl ⟨rfl, rfl, rfl, rfl, trivial⟩ rfl
    · exact h
  | mpMain =>
    simp only [hl, Option.some.injEq] at hs
    subst hs
    exact h.setStatus_goto hl ⟨rfl, rfl, rfl, rfl, trivial⟩ ⟨nofun, nofun⟩
  | trap u =>
    simp only [hl, Option.some.injEq] at hs
    subst hs
    rw [hl] at hok
    have hst := hok.status
    -- a halted CPU takes the lock here, one that comes from user mode at the second test
    cases u with
    | false =>
      rw [if_pos (hst.mpr rfl)]
      exact h.setStatus_goto hl ⟨rfl, rfl, rfl, rfl, rfl⟩ ⟨nofun, nofun⟩
    | true =>
      rw [if_neg fun hh => absurd (hst.mp hh) Bool.false_ne_true]
      exact h.setStatus_goto hl ⟨rfl, rfl, rfl, rfl, trivial⟩ ⟨nofun, nofun⟩
  | trapCs u =>
    simp only [hl, Option.some.injEq] at hs
    subst hs
    cases u <;> exact h.goto hl ⟨rfl, rfl, rfl, rfl, trivial⟩ rfl
  | lock site =>
    simp only [hl, Option.some.injEq] at hs
    subst hs
    rw [hl] at hok
    rw [h.holding_eq (by rw [hl]; rfl), hl]
    refine h.goto hl ⟨rfl, rfl, rfl, rfl, ?_⟩ rfl
    have hsound := hok.sound
    cases site <;> exact hsound
  | spin site =>
    simp only [hl, Option.some.injEq] at hs
    subst hs
    split_ifs with hlocked
    · exact h
    · exact h.acquire hl (Bool.not_eq_true _ ▸ hlocked)
  | record site =>
    simp only [hl, Option.some.injEq] at hs
    subst hs
    exact h.record hl
  | schedHalt =>
    simp only [hl, Option.some.injEq] at hs
    subst hs
    exact h.setStatus_goto hl ⟨rfl, rfl, rfl, rfl, trivial⟩ ⟨fun _ => rfl, fun _ => rfl⟩
  | unlock site =>
    simp only [hl, Option.some.injEq] at hs
    subst hs
    rw [h.holding_eq (by rw [hl]; rfl), hl]
    exact h.goto hl ⟨rfl, rfl, rfl, rfl, trivial⟩ rfl
  | clear site =>
    simp only [hl, Option.some.injEq] at hs
    subst hs
    exact h.clear hl
  | release site =>
    simp only [hl, Option.some.injEq] at hs
    subst hs
    exact h.release hl
  | _ => simp [hl] at hs

/-- Every step keeps the discipline. -/
theorem Disciplined.step {ev : LockEvent} (h : Disciplined s) (hs : lockStep ncpu s ev = some s') :
    Disciplined s' := by
  cases ev with
  | go c => exact h.go hs
  | envRun c =>
    simp only [lockStep] at hs
    split_ifs at hs with hl
    cases hs
    exact h.goto hl ⟨rfl, rfl, rfl, rfl, trivial⟩ rfl
  | schedHalt c =>
    simp only [lockStep] at hs
    split_ifs at hs with hl
    cases hs
    exact h.goto hl ⟨rfl, rfl, rfl, rfl, trivial⟩ rfl
  | trap c =>
    simp only [lockStep] at hs
    cases hl : s.loc c with
    | user =>
      simp only [hl, Option.some.injEq] at hs
      subst hs
      exact h.enter hl rfl rfl true rfl
    | halted =>
      simp only [hl, Option.some.injEq] at hs
      subst hs
      exact h.enter hl rfl rfl false rfl
    | _ => simp [hl] at hs

/-- The machine boots with the lock free. -/
theorem disciplined_boot (bootcpu : ℕ) : Disciplined (lockBoot bootcpu) := by
  have hloc : ∀ c, (lockBoot bootcpu).loc c = .i386Init ∨ (lockBoot bootcpu).loc c = .off := by
    intro c
    simp only [lockBoot]
    split_ifs
    · exact .inl rfl
    · exact .inr rfl
  have hst : ∀ c, (lockBoot bootcpu).status c ≠ .halted := by
    intro c
    simp only [lockBoot]
    split_ifs <;> exact nofun
  have hno : ∀ c, ((lockBoot bootcpu).loc c).holds = false ∧
      ((lockBoot bootcpu).loc c).recorded = false := by
    intro c
    rcases hloc c with h | h <;> rw [h] <;> exact ⟨rfl, rfl⟩
  refine ⟨fun c hc => ?_, fun c c' hc => ?_, fun c => ?_, fun c => ?_⟩
  · rw [(hno c).1] at hc
    cases hc
  · rw [(hno c).1] at hc
    cases hc
  · rw [(hno c).2]
    exact ⟨nofun, nofun⟩
  · rcases hloc c with h | h <;> rw [h] <;>
      exact ⟨trivial, ⟨fun hh => absurd hh (hst c), nofun⟩, rfl, rfl⟩

/-- CPU `c` is in the kernel, between its lock acquisition and the unlock. -/
def LockState.InKernel (s : LockState) (c : ℕ) : Prop := (s.loc c).holds = true

/-- **The big kernel lock is kept**: in every state of every run, at most one CPU is in the kernel
under the lock; one that does the kernel's work has acquired the lock once since it entered and not
released it; one in user mode or halted has acquired it once, released it once and does not hold it;
and no CPU is in a panic of `spin_lock` or `spin_unlock`. -/
theorem bigLock_of_reach (h : Reach (lockStep ncpu) (fun _ _ => True) (lockBoot bootcpu) s) :
    (∀ c c', s.InKernel c → s.InKernel c' → c = c') ∧
      (∀ c, s.loc c = .kernel → s.acquired c = 1 ∧ s.released c = 0 ∧ holding s.lock c = true) ∧
      (∀ c, s.loc c = .user ∨ s.loc c = .halted →
        s.acquired c = 1 ∧ s.released c = 1 ∧ ¬ s.InKernel c ∧ holding s.lock c = false) ∧
      ∀ c, s.loc c ≠ .panic := by
  have hd : Disciplined s := h.invariant (disciplined_boot bootcpu) fun _ _ _ ht _ hs => ht.step hs
  refine ⟨hd.unique, fun c hl => ?_, fun c hl => ?_, fun c hl => ?_⟩
  · obtain ⟨-, -, h₃, h₄⟩ := hd.cpu c
    have hh := hd.holding_eq (c := c) (by rw [hl]; rfl)
    rw [hl] at h₃ h₄ hh
    exact ⟨h₃, h₄, hh⟩
  · obtain ⟨-, -, h₃, h₄⟩ := hd.cpu c
    rw [LockState.InKernel]
    rcases hl with hl | hl <;>
    · have hh := hd.holding_eq (c := c) (by rw [hl]; rfl)
      rw [hl] at h₃ h₄ hh ⊢
      exact ⟨h₃, h₄, Bool.false_ne_true, hh⟩
  · have hsound := (hd.cpu c).sound
    rw [hl] at hsound
    exact hsound

/-- The boot CPU starts CPU 1 and goes to user mode; then CPU 1 takes the lock. -/
def bootRun : List LockEvent :=
  [.go 0, .go 0, .go 0, .go 0, .go 0, .go 0, .go 1, .go 0, .go 0, .envRun 0, .go 0, .go 0, .go 0,
    .go 1, .go 1, .go 1]

/-- Two CPUs boot; the first is in user mode, the second in the kernel. -/
theorem bigLock_two : ∃ s, Reach (lockStep 2) (fun _ _ => True) (lockBoot 0) s ∧
    (s.acquired 0 = 1 ∧ s.released 0 = 1 ∧ ¬ s.InKernel 0) ∧ s.acquired 1 = 1 ∧ s.released 1 = 0 ∧
    s.InKernel 1 := by
  have hrun : ((bootRun.foldlM (lockStep 2) (lockBoot 0)).map fun s => (s.loc 0, s.loc 1)) =
      some (.user, .kernel) := by
    decide +kernel
  obtain ⟨s, hs, hloc⟩ := Option.map_eq_some_iff.mp hrun
  have hreach : Reach (lockStep 2) (fun _ _ => True) (lockBoot 0) s :=
    Reach.of_foldlM hs fun _ _ _ => trivial
  obtain ⟨-, hkernel, huser, -⟩ := bigLock_of_reach hreach
  have h₀ : s.loc 0 = .user := congrArg Prod.fst hloc
  have h₁ : s.loc 1 = .kernel := congrArg Prod.snd hloc
  obtain ⟨hu₁, hu₂, hu₃, -⟩ := huser 0 (.inl h₀)
  obtain ⟨hk₁, hk₂, -⟩ := hkernel 1 h₁
  refine ⟨s, hreach, ⟨hu₁, hu₂, hu₃⟩, hk₁, hk₂, ?_⟩
  rw [LockState.InKernel, h₁]
  rfl

end JOS
