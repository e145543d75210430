import JOS.Fork.Tame

/-!
# What keeps the invariant of programs that fork

One lemma for each part of the invariant: what a move must leave alone for it to stay. `Cow.quiet`
puts them together for moves that map and unmap nothing.
-/

namespace JOS

open JOS.General

open Function (update)

variable {s s' : KState} {lib : ℕ → Lib} {l l' : Lib} {ev : Event} {e e' x v p : ℕ}
  {addr va envid : Word} {n : ℕ} {wakes : Prop}

theorem userPageNo_PFTEMP : PGNUM PFTEMP < PGNUM USTACKTOP := by decide

/-! ### Where the programs are -/

/-- The pages below the stack's end that `e` maps keep their contents. -/
def LowSame (s s' : KState) (e : ℕ) : Prop :=
  ∀ v p, v < PGNUM USTACKTOP → Names (s.upte e v) p → s'.sharing.content p = s.sharing.content p

/-- The entries below the stack's end of `e` stay. -/
def LowEntries (s s' : KState) (e : ℕ) : Prop := ∀ v, v < PGNUM USTACKTOP → s'.upte e v = s.upte e v

theorem LowEntries.present (h : LowEntries s s' e) (hv : v < PGNUM USTACKTOP) : Present s' e v ↔
    Present s e v := by
  rw [Present, Present, h v hv]

theorem Duplicating.congr (h : Duplicating s e addr) (hu : LowEntries s s' e) :
    Duplicating s' e addr :=
  ⟨h.user, (hu.present h.user.1).mpr h.present⟩

theorem CowPage.congr (h : CowPage s e addr) (hu : LowEntries s s' e) : CowPage s' e addr :=
  ⟨h.user, h.aligned, (hu.present h.user.1).mpr h.present, by rw [hu _ h.user.1]; exact h.cow⟩

theorem Copying.congr (h : Copying s e addr n) (hu : LowEntries s s' e) (hc : LowSame s s' e) :
    Copying s' e addr n := by
  refine ⟨(hu.present userPageNo_PFTEMP).mpr
    h.present, by rw [hu _ userPageNo_PFTEMP]; exact h.writable, fun hlt => ?_⟩
  obtain ⟨hpage, hcopied⟩ := h.page hlt
  refine ⟨hpage.congr hu, fun o ho => ?_⟩
  rw [hu _ userPageNo_PFTEMP, hu _ hpage.user.1, hc _ _ userPageNo_PFTEMP ⟨h.present, rfl⟩,
    hc _ _ hpage.user.1 ⟨hpage.present, rfl⟩]
  exact hcopied o ho

theorem ForkOk.congr {pc : ForkPc} (h : ForkOk s e pc) (hu : LowEntries s s' e) :
    ForkOk s' e pc := by
  cases pc with
  | dup _ _ => exact Duplicating.congr h hu
  | dupChild _ _ => exact Duplicating.congr h hu
  | dupSelf _ _ => exact Duplicating.congr h hu
  | dupRead _ addr =>
    obtain ⟨hdup, hW, hC⟩ := h
    refine ⟨hdup.congr hu, ?_, ?_⟩
    · rw [hu _ hdup.user.1]
      exact hW
    · rw [hu _ hdup.user.1]
      exact hC
  | _ => trivial

theorem FaultOk.congr {pc : FaultPc} (h : FaultOk s e pc) (hu : LowEntries s s' e)
    (hc : pc = .none ∨ LowSame s s' e) :
    FaultOk s' e pc := by
  have hpresent := hu.present userPageNo_PFTEMP
  cases pc with
  | none => exact fun hp => h (hpresent.mp hp)
  | entered _ _ => exact fun hp => h (hpresent.mp hp)
  | alloc addr => exact ⟨fun hp => h.1 (hpresent.mp hp), fun hlt => (h.2 hlt).congr hu⟩
  | copy addr n => exact ⟨h.1, h.2.congr hu (hc.resolve_left nofun)⟩
  | map addr => exact Copying.congr h hu (hc.resolve_left nofun)
  | unmap addr => exact ⟨h.user, hpresent.mpr h.present⟩

theorem LibOk.congr (h : LibOk s e l) (hu : LowEntries s s' e)
    (hc : l.fault = .none ∨ LowSame s s' e) : LibOk s' e l :=
  ⟨h.stopped, fun hl => (h.fork hl).congr hu, fun hl => (h.fault hl).congr hu hc⟩

/-- A program that has just started, or whose address space is gone. -/
theorem libOk_start (h : ¬ Present s e (PGNUM PFTEMP)) : LibOk s e .start :=
  ⟨nofun, fun _ => trivial, fun _ => h⟩

theorem libOk_panicked : LibOk s e .panicked :=
  ⟨fun _ => rfl, fun h => absurd rfl h, fun h => absurd rfl h⟩

theorem not_present_of_dirs (h : s.dirs e = none) : ¬ Present s e v := by
  rw [Present, KState.upte, upte_of_none h, test_zero]
  exact Bool.false_ne_true

/-! ### Environments that are built -/

/-- The event leaves the environment `x` asleep. -/
structure Spares (s : KState) (ev : Event) (x : ℕ) : Prop where
  destroys : ¬ Destroys s ev ev.cpu x
  setsStatus : ∀ st, ¬ SetsStatus s ev ev.cpu x st
  sends : ¬ Sends s ev ev.cpu x

/-- What is no system call wakes nobody. -/
theorem spares_of_no_call (hno : NoCall s ev) : Spares s ev x :=
  ⟨fun ⟨_, _, _, h, _⟩ => hno _ _ _ _ h, fun _ ⟨_, _, _, h, _⟩ => hno _ _ _ _ h,
    fun ⟨_, _, _, h, _⟩ => hno _ _ _ _ h⟩

/-- **An environment that is built** stays so until a system call is about it. -/
theorem Building.step (h : Building s e envid) (hfree : FreeHead s) (hd : s.dirs e ≠ none)
    (hsp : Spares s ev (ENVX envid))
    (hs : JOS.step s ev = some s') : Building s' e envid := by
  have hw := step_written hs
  have hhead : s.envFreeList ≠ some (ENVX envid) := fun hhead => h.live (hfree _ hhead).2
  have hrec := hw.asleep h.asleep hhead hsp.destroys hsp.setsStatus hsp.sends
  have hids : SameIds (s.envs e) s'.table e := hw.ids hfree hd
  obtain ⟨func, henv⟩ := hrec.1
  have henv : s'.envs (ENVX envid) = { s.envs (ENVX envid) with envPgfaultUpcall := func } := henv
  refine ⟨?_, ?_, h.ne, SameRecord.asleep h.asleep hrec, ?_⟩
  · rw [henv]
    exact h.slot
  · rw [henv]
    exact h.parent.trans hids.1.symm
  · rw [KState.dirs, henv]
    exact h.live

/-! ### The whole invariant -/

theorem Excused.update_of_ne {i j : ℕ × ℕ} (h : Excused lib i j) (he : i.1 ≠ e) :
    Excused (update lib e l) i j := by
  rw [Excused, Function.update_of_ne he]
  exact h

theorem excused_update_self {v : ℕ} {j : ℕ × ℕ} (h : l.Excuses e v j) :
    Excused (update lib e l) (e, v) j := by
  rw [Excused, Function.update_self]
  exact h

/-- What is excused stays so when the excuses of `e` do. -/
theorem Excused.update {i j : ℕ × ℕ} (h : Excused lib i j)
    (he : ∀ v, i = (e, v) → (lib e).Excuses e v j → l.Excuses e v j) :
    Excused (update lib e l) i j := by
  by_cases hi : i.1 = e
  · obtain ⟨e', v⟩ := i
    cases hi
    exact excused_update_self (he v rfl h)
  · exact h.update_of_ne hi

/-- **From one moment to the next**, when `e` goes on to `l'` and the address spaces of others are
not made or destroyed. -/
theorem Cow.next (h : Cow s lib) (hk : KernOk s') (hd : ∀ e', e' ≠ e → s'.dirs e' = s.dirs e')
    (hgone : s'.dirs e = none → l' = .start)
    (halone : s'.sharing.Alone (Excused (update lib e l'))) (hone : OneAddress s')
    (hlow : CowLow s')
    (hothers : ∀ e', e' ≠ e → LibOk s' e' (lib e')) (hl : LibOk s' e l')
    (hbuild : ∀ e' envid, (update lib e l' e').fork.builds = some envid →
      Building s' e' envid ∧ update lib e l' (ENVX envid) = .child) : Cow s' (update lib e l') := by
  refine ⟨hk, fun e' he' => ?_, halone, hone, hlow, fun e' => ?_, hbuild⟩
  · by_cases he : e' = e
    · subst he
      rw [Function.update_self]
      exact hgone he'
    · rw [Function.update_of_ne he]
      exact h.gone e' (by rwa [← hd e' he])
  · by_cases he : e' = e
    · subst he
      rw [Function.update_self]
      exact hl
    · rw [Function.update_of_ne he]
      exact hothers e' he

/-- Nothing is mapped or written. -/
theorem Cow.stay (h : Cow s lib) (hk : KernOk s') (hsame : SameSpaces s s')
    (hbuild : ∀ e' envid, (lib e').fork.builds = some envid → Building s' e' envid) :
    Cow s' lib := by
  have hu := hsame.upte
  have hshare : s'.sharing = s.sharing := by
    rw [KState.sharing, KState.sharing, hu, hsame.1]
  refine ⟨hk, ?_, ?_, ?_, ?_, fun e => ?_, fun e envid hbe =>
    ⟨hbuild e envid hbe, (h.builds e envid hbe).2⟩⟩
  · rw [hsame.2]
    exact h.gone
  · rw [hshare]
    exact h.alone
  · rw [OneAddress, hu]
    exact h.oneAddress
  · rw [CowLow, hu]
    exact h.low
  · exact (h.libOk e).congr (fun v _ => by rw [hu]) (.inr fun v p _ _ => by rw [hshare])

/-! ### Turns -/

/-- What every event of `e` keeps; it `wakes` the child that `e` builds or not. -/
structure Turn (s s' : KState) (lib : ℕ → Lib) (e : ℕ) (wakes : Prop) : Prop where
  kern : KernOk s'
  live : s.dirs e ≠ none
  notChild : ∀ e' envid, (lib e').fork.builds = some envid → ENVX envid ≠ e
  builds : ∀ e' envid, (lib e').fork.builds = some envid → (e' = e → ¬ wakes) → Building s' e' envid

/-- The child that a program at `l'` builds is the one that it has built at `l`, and sleeps on. -/
def GoesOnBuilding (l l' : Lib) (wakes : Prop) : Prop := ∀ envid, l'.fork.builds = some envid →
    l.fork.builds = some envid ∧ ¬ wakes

theorem Cow.builds_next (h : Cow s lib) (ht : Turn s s' lib e wakes)
    (hb : GoesOnBuilding (lib e) l' wakes)
    (hbe : (update lib e l' e').fork.builds = some envid) : Building s' e' envid ∧
    update lib e l' (ENVX envid) = .child := by
  have hbe₀ : (lib e').fork.builds = some envid ∧ (e' = e → ¬ wakes) := by
    by_cases he : e' = e
    · subst he
      rw [Function.update_self] at hbe
      exact ⟨(hb envid hbe).1, fun _ => (hb envid hbe).2⟩
    · rw [Function.update_of_ne he] at hbe
      exact ⟨hbe, fun heq => absurd heq he⟩
  rw [Function.update_of_ne (ht.notChild e' envid hbe₀.1)]
  exact ⟨ht.builds e' envid hbe₀.1 hbe₀.2, (h.builds e' envid hbe₀.1).2⟩

/-- **Events that map and unmap nothing**. -/
theorem Cow.quiet (h : Cow s lib) (ht : Turn s s' lib e wakes) (hu : s'.upte = s.upte)
    (hd : s'.dirs = s.dirs)
    (hc : ∀ e', e' ≠ e → (lib e').fault = .none ∨ LowSame s s' e') (hl : LibOk s' e l')
    (hex : ∀ v j, (lib e).Excuses e v j → l'.Excuses e v j) (hb : GoesOnBuilding (lib e) l' wakes) :
    Cow s' (update lib e l') := by
  refine h.next ht.kern (fun e' _ => congrFun hd e') (fun he => ?_) ?_ ?_ ?_ (fun e' he' => ?_) hl
    (fun e' envid hbe => ?_)
  · rw [hd] at he
    exact absurd he ht.live
  · -- no place shows another page
    have hwrites : s.sharing.Writes (fun _ => True) s'.sharing :=
      writes_of_upte hu fun e v p hn hW => absurd hn (hW (e, v) trivial)
    exact (hwrites.alone h.alone).mono fun i j hij => hij.update fun v _ => hex v j
  · rw [OneAddress, hu]
    exact h.oneAddress
  · rw [CowLow, hu]
    exact h.low
  · exact (h.libOk e').congr (fun v _ => by rw [hu]) (hc e' he')
  · exact h.builds_next ht hb hbe

end JOS
