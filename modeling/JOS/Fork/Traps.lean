import JOS.Fork.Keep
import JOS.Fork.Tame
import JOS.Sched.RoundRobin

/-!
# What programs that fork ask of the kernel

The system calls that a program can make depend on where it is (`Lib.traps`): it maps and unmaps
pages of its own that are there, sets the status of the child that it builds, and destroys itself
only. So its traps are tame (`Cow.tame`), and the children that others build sleep on
(`Cow.spares`).
-/

namespace JOS

open JOS.General

variable {s s' s₁ : KState} {lib : ℕ → Lib} {l : Lib} {y : Symbols} {t : TrapIn} {k : Call}
  {a : SysArgs} {c cur e e' x : ℕ}
  {addr envid : Word} {v : ℕ}

theorem PGNUM_pageAddr (addr : Word) : PGNUM (pageAddr (PGNUM addr)) = PGNUM addr := by
  have hlt : PGNUM addr < 2 ^ 20 := PGNUM_lt addr
  have hsize : (PGSIZE : Word).toNat = 4096 := by decide
  rw [PGNUM_eq (pageAddr (PGNUM addr)), pageAddr, BitVec.toNat_mul, BitVec.toNat_ofNat, hsize]
  omega

/-! ### The system calls -/

/-- Which system calls a program can make. -/
theorem Lib.traps_cases (h : l.traps y t = true) (hsys : t.tf.tfTrapno = T_SYSCALL) :
    (∃ k, l.call y = some k ∧ t.makes k = true) ∨ l.call y = none ∧ l = .start ∧
        t.harmless = true := by
  have hpf : ¬ T_SYSCALL = T_PGFLT := by decide
  rw [Lib.traps, hsys, if_neg hpf, if_pos rfl] at h
  cases hk : l.call y with
  | none =>
    simp only [hk, Bool.and_eq_true, beq_iff_eq] at h
    exact .inr ⟨rfl, h⟩
  | some k =>
    simp only [hk] at h
    exact .inl ⟨k, rfl, h⟩

theorem TrapIn.makes_no (h : t.makes k = true) : SysNo.ofWord t.args.no = some k.no := by
  rw [TrapIn.makes, Bool.and_eq_true, beq_iff_eq] at h
  exact h.1

/-- The arguments of a call with five of them. -/
theorem TrapIn.makes_args {no : SysNo} {a₁ a₂ a₃ a₄ a₅ : Word}
    (h : t.makes ⟨no, [a₁, a₂, a₃, a₄, a₅]⟩ = true) :
    SysNo.ofWord t.args.no = some no ∧ t.args.a1 = a₁ ∧ t.args.a2 = a₂ ∧ t.args.a3 = a₃ ∧
        t.args.a4 = a₄ ∧ t.args.a5 = a₅ := by
  simpa [TrapIn.makes] using h

/-- A system call for which no place in the library asks is one of the program's own code. -/
theorem Lib.harmless_of_no {no : SysNo} (h : l.traps y t = true) (hsys : t.tf.tfTrapno = T_SYSCALL)
    (hno : SysNo.ofWord t.args.no = some no) (hk : ∀ k, l.call y = some k → k.no ≠ no) :
    t.harmless = true := by
  rcases Lib.traps_cases h hsys with ⟨k, hcall, hmakes⟩ | ⟨-, -, hharmless⟩
  · have hno' := TrapIn.makes_no hmakes
    rw [hno] at hno'
    exact absurd (Option.some.inj hno').symm (hk k hcall)
  · exact hharmless

/-- No call of the library destroys an environment or sends a message. -/
theorem Lib.call_no (h : l.call y = some k) : k.no ≠ .envDestroy ∧ k.no ≠ .ipcTrySend ∧
    k.no ≠ .ipcRecv ∧ k.no ≠ .yield := by
  rw [Lib.call] at h
  split at h
  · split at h <;> cases h <;> simp
  all_goals cases h
  all_goals simp

/-- What the library maps. -/
theorem Lib.call_map (h : l.call y = some k) (hno : k.no = .pageMap) : ∃ va dst va' perm,
    k.args = [0, va, dst, va', perm] ∧
    (va = PFTEMP ∧ (∃ addr, l.fault = .map addr) ∨ l.fault = .none ∧ ∃ addr,
      va = pageAddr (PGNUM addr) ∧
      ∃ envid, l.fork = .dupChild envid addr ∨ l.fork = .dupSelf envid addr ∨
      l.fork = .dupRead envid addr) := by
  rw [Lib.call] at h
  split at h
  · rename_i hfault
    split at h <;> cases h <;> cases hno
    · exact ⟨_, _, _, _, rfl, .inr ⟨hfault, _, rfl, _, .inl ‹_›⟩⟩
    · exact ⟨_, _, _, _, rfl, .inr ⟨hfault, _, rfl, _, .inr (.inl ‹_›)⟩⟩
    · exact ⟨_, _, _, _, rfl, .inr ⟨hfault, _, rfl, _, .inr (.inr ‹_›)⟩⟩
  · cases h
    cases hno
  · cases h
    exact ⟨_, _, _, _, rfl, .inl ⟨rfl, _, ‹_›⟩⟩
  · cases h
    cases hno
  · cases h

/-- What it unmaps. -/
theorem Lib.call_unmap (h : l.call y = some k) (hno : k.no = .pageUnmap) :
    k.args = [0, PFTEMP, 0, 0, 0] ∧ ∃ addr, l.fault = .unmap addr := by
  rw [Lib.call] at h
  split at h
  · split at h <;> cases h <;> cases hno
  · cases h
    cases hno
  · cases h
    cases hno
  · cases h
    exact ⟨rfl, _, ‹_›⟩
  · cases h

/-- Whose status it sets. -/
theorem Lib.call_status (h : l.call y = some k) (hno : k.no = .envSetStatus) :
    ∃ envid, k.args = [envid, 2, 0, 0, 0] ∧ l.fault = .none ∧ l.fork = .statusSet envid := by
  rw [Lib.call] at h
  split at h
  · rename_i hfault
    split at h <;> cases h <;> cases hno
    exact ⟨_, rfl, hfault, ‹_›⟩
  all_goals cases h
  all_goals cases hno

/-- A trap that is system call `no` of the library. -/
theorem Lib.traps_call {no : SysNo} (h : l.traps y t = true) (hsys : t.tf.tfTrapno = T_SYSCALL)
    (hno : SysNo.ofWord t.args.no = some no) (hquiet : t.harmless = false) :
    ∃ args, l.call y = some ⟨no, args⟩ ∧ t.makes ⟨no, args⟩ = true := by
  rcases Lib.traps_cases h hsys with ⟨⟨no', args⟩, hcall, hmakes⟩ | ⟨-, -, hharmless⟩
  · have hno' := TrapIn.makes_no hmakes
    rw [hno] at hno'
    cases hno'
    exact ⟨args, hcall, hmakes⟩
  · rw [hquiet] at hharmless
    cases hharmless

/-- A program destroys no other one. -/
theorem Lib.traps_destroy (h : l.traps y t = true) (hsys : t.tf.tfTrapno = T_SYSCALL)
    (hno : SysNo.ofWord t.args.no = some .envDestroy) : t.args.a1 = 0 := by
  have hharmless := Lib.harmless_of_no h hsys hno fun k hk => (Lib.call_no hk).1
  simpa [TrapIn.harmless, hno] using hharmless

/-- It sends no messages. -/
theorem Lib.traps_ipc (h : l.traps y t = true) (hsys : t.tf.tfTrapno = T_SYSCALL) :
    SysNo.ofWord t.args.no ≠ some .ipcTrySend := by
  intro hno
  have hharmless := Lib.harmless_of_no h hsys hno fun k hk => (Lib.call_no hk).2.1
  simp [TrapIn.harmless, hno] at hharmless

/-- It sets the status of the child that it builds. -/
theorem Lib.traps_status (h : l.traps y t = true) (hsys : t.tf.tfTrapno = T_SYSCALL)
    (hno : SysNo.ofWord t.args.no = some .envSetStatus) : ∃ envid, l = ⟨.statusSet envid, .none⟩ ∧
    t.args.a1 = envid := by
  obtain ⟨args, hcall, hmakes⟩ := Lib.traps_call h hsys hno (by simp [TrapIn.harmless, hno])
  obtain ⟨envid, rfl, hfault, hfork⟩ := Lib.call_status hcall rfl
  refine ⟨envid, ?_, (TrapIn.makes_args hmakes).2.1⟩
  rw [← hfault, ← hfork]

/-- The page that it maps is there. -/
theorem Lib.traps_map (h : l.traps y t = true) (hsys : t.tf.tfTrapno = T_SYSCALL)
    (hok : LibOk s e l)
    (hno : SysNo.ofWord t.args.no = some .pageMap) : t.args.a1 = 0 ∧
    Present s e (PGNUM t.args.a2) := by
  obtain ⟨args, hcall, hmakes⟩ := Lib.traps_call h hsys hno (by simp [TrapIn.harmless, hno])
  obtain ⟨va, dst, va', perm, rfl, hwhere⟩ := Lib.call_map hcall rfl
  obtain ⟨-, h₁, h₂, -⟩ := TrapIn.makes_args hmakes
  refine ⟨h₁, ?_⟩
  rw [h₂]
  rcases hwhere with ⟨rfl, addr, hfault⟩ | ⟨-, addr, rfl, envid, hfork⟩
  · have hcopying : FaultOk s e l.fault := hok.fault fun hp => by simp [hok.stopped hp] at hfault
    rw [hfault] at hcopying
    exact hcopying.present
  · rw [PGNUM_pageAddr]
    rcases hfork with hfork | hfork | hfork
    · have hdup := hok.fork (by simp [hfork])
      rw [hfork] at hdup
      exact hdup.present
    · have hdup := hok.fork (by simp [hfork])
      rw [hfork] at hdup
      exact hdup.present
    · have hdup := hok.fork (by simp [hfork])
      rw [hfork] at hdup
      exact hdup.1.present

/-- The page that it unmaps is there. -/
theorem Lib.traps_unmap (h : l.traps y t = true) (hsys : t.tf.tfTrapno = T_SYSCALL)
    (hok : LibOk s e l)
    (hno : SysNo.ofWord t.args.no = some .pageUnmap) : t.args.a1 = 0 ∧
    Present s e (PGNUM t.args.a2) := by
  obtain ⟨args, hcall, hmakes⟩ := Lib.traps_call h hsys hno (by simp [TrapIn.harmless, hno])
  obtain ⟨hargs, addr, hfault⟩ := Lib.call_unmap hcall rfl
  cases hargs
  obtain ⟨-, h₁, h₂, -⟩ := TrapIn.makes_args hmakes
  refine ⟨h₁, ?_⟩
  have hdoubled : FaultOk s e l.fault := hok.fault fun hp => by simp [hok.stopped hp] at hfault
  rw [hfault] at hdoubled
  rw [h₂]
  exact hdoubled.present

/-! ### Who is affected -/

/-- A child that is being built does not run. -/
theorem Cow.not_child (h : Cow s lib) (hcur : s.curenv c = some e)
    (hbe : (lib e').fork.builds = some envid) : ENVX envid ≠ e := by
  rintro rfl
  exact (h.builds e' envid hbe).1.asleep.curenv c hcur

/-- A program that builds a child has an address space. -/
theorem Cow.live_of_builds (h : Cow s lib) (hbe : (lib e).fork.builds = some envid) :
    s.dirs e ≠ none := by
  intro hd
  rw [h.gone e hd] at hbe
  cases hbe

/-- **A child has one parent.** -/
theorem Cow.builder_unique {envid' : Word} (h : Cow s lib) (hbe : (lib e).fork.builds = some envid)
    (hbe' : (lib e').fork.builds = some envid') (hx : ENVX envid = ENVX envid') : e = e' := by
  have hparent := (h.builds e envid hbe).1.parent
  have hparent' := (h.builds e' envid' hbe').1.parent
  rw [← hx, hparent] at hparent'
  calc e = ENVX (s.envs e).envId := (h.kern.ids e (h.live_of_builds hbe)).2.symm
    _ = ENVX (s.envs e').envId := by rw [hparent']
    _ = e' := (h.kern.ids e' (h.live_of_builds hbe')).2

/-- The trap wakes the child that the program builds. -/
def Lib.Wakes (l : Lib) (t : TrapIn) : Prop := t.tf.tfTrapno = T_SYSCALL ∧ ∃ envid,
    l = ⟨.statusSet envid, .none⟩

/-- **A trap leaves the children asleep** that are being built, but for the one that its program
wakes. -/
theorem Cow.spares (h : Cow s lib) (hcur : s.curenv c = some e) (ht : (lib e).traps y t = true)
    (hbe : (lib e').fork.builds = some envid) (hnot : e' = e → ¬ (lib e).Wakes t) :
    Spares s (.trap c t) (ENVX envid) := by
  have hne := h.not_child hcur hbe
  refine ⟨?_, ?_, ?_⟩
  · rintro ⟨cur, a, s₁, ⟨t', ht', hcur', -, hsys, rfl, rfl⟩, hno, henv⟩
    cases ht'
    cases hcur.symm.trans hcur'
    rw [Lib.traps_destroy ht hsys hno, envid2env, if_pos rfl] at henv
    exact hne (Option.some.inj henv).symm
  · rintro st ⟨cur, a, s₁, ⟨t', ht', hcur', -, hsys, rfl, rfl⟩, hno, -, henv⟩
    cases ht'
    cases hcur.symm.trans hcur'
    obtain ⟨envid', hl, harg⟩ := Lib.traps_status ht hsys hno
    rcases envid2env_slot henv with hx | hx
    · exact hne hx
    · rw [harg] at hx
      have hee := h.builder_unique (by rw [hl]; exact rfl) hbe hx.symm
      exact hnot hee.symm ⟨hsys, envid', hl⟩
  · rintro ⟨cur, a, s₁, ⟨t', ht', hcur', -, hsys, rfl, rfl⟩, hno, -⟩
    cases ht'
    cases hcur.symm.trans hcur'
    exact Lib.traps_ipc ht hsys hno

/-- **What programs that fork ask for is tame.** -/
theorem Cow.tame (h : Cow s lib) (hcur : s.curenv c = some e) (ht : (lib e).traps y t = true) :
    Tame s (.trap c t) := by
  have hself : ∀ c', ¬ (c = c' ∧ Elsewhere s c' e) := by
    rintro c' ⟨rfl, c'', hne, hcur'⟩
    exact hne (h.kern.sound.alone.inj c'' c e hcur' hcur)
  refine tame_of_requests (fun _ _ => nofun) h.oneAddress.roomy ?_ ?_ ?_ ?_ ?_
  · rintro e₁ va e₂ va' perm ⟨c', cur, a, s₁, ⟨t', ht', hcur', -, hsys, rfl, rfl⟩, hno,
      hargs, rfl, -, -⟩
    cases ht'
    cases hcur.symm.trans hcur'
    obtain ⟨h0, hpresent⟩ := Lib.traps_map ht hsys (h.libOk e) hno
    rw [h0] at hargs
    have he : envid2env (trapEntry s.reset c e t) e 0 true = some e := by rw [envid2env, if_pos rfl]
    rw [pageMapArgs, he] at hargs
    split at hargs
    · rename_i h₁ _
      split_ifs at hargs
      cases hargs
      cases h₁
      exact hpresent
    · cases hargs
  · rintro e₁ va ⟨c', cur, a, s₁, ⟨t', ht', hcur', -, hsys, rfl, rfl⟩, hno, henv, -, rfl⟩
    cases ht'
    cases hcur.symm.trans hcur'
    obtain ⟨h0, hpresent⟩ := Lib.traps_unmap ht hsys (h.libOk e) hno
    rw [h0, envid2env, if_pos rfl] at henv
    cases henv
    exact hpresent
  · rintro c' e₁ st ⟨cur, a, s₁, ⟨t', ht', hcur', -, hsys, rfl, rfl⟩, hno, -, henv⟩ hel
    cases ht'
    cases hcur.symm.trans hcur'
    obtain ⟨envid, hl, harg⟩ := Lib.traps_status ht hsys hno
    rcases envid2env_slot henv with rfl | rfl
    · exact hself c ⟨rfl, hel⟩
    · rw [harg] at hel
      obtain ⟨c'', -, hcur''⟩ := hel
      exact (h.builds e envid (by rw [hl]; rfl)).1.asleep.curenv c'' hcur''
  · rintro c' e₁ ⟨cur, a, s₁, ⟨t', ht', hcur', -, hsys, rfl, rfl⟩, hno, henv⟩ hel
    cases ht'
    cases hcur.symm.trans hcur'
    rw [Lib.traps_destroy ht hsys hno, envid2env, if_pos rfl] at henv
    cases henv
    exact hself c ⟨rfl, hel⟩
  · rintro c' cur a s₁ ⟨t', ht', hcur', -, hsys, rfl, rfl⟩
    cases ht'
    cases hcur.symm.trans hcur'
    exact Lib.traps_ipc ht hsys

/-- **Every trap of a program**. -/
theorem Cow.turn (h : Cow s lib) (hcur : s.curenv c = some e) (ht : (lib e).traps y t = true)
    (hs : JOS.step s (.trap c t) = some s') : Turn s s' lib e ((lib e).Wakes t) where
  kern := h.kern.step (h.tame hcur ht) hs
  live := by
    rw [h.kern.sound.loaded c e hcur]
    simp
  notChild := fun _ _ hbe => h.not_child hcur hbe
  builds := fun e' _ hbe hnot =>
    (h.builds e' _ hbe).1.step h.kern.sound.freeHead (h.live_of_builds hbe)
      (h.spares hcur ht hbe hnot) hs

/-- **What is no system call** leaves all children asleep. -/
theorem Cow.turn_of_no_call {ev : Event} (h : Cow s lib) (hcur : s.curenv c = some e)
    (hno : NoCall s ev) (hok : Tame s ev)
    (hs : JOS.step s ev = some s') : Turn s s' lib e False where
  kern := h.kern.step hok hs
  live := by
    rw [h.kern.sound.loaded c e hcur]
    simp
  notChild := fun _ _ hbe => h.not_child hcur hbe
  builds := fun e' _ hbe _ =>
    (h.builds e' _ hbe).1.step h.kern.sound.freeHead (h.live_of_builds hbe)
      (spares_of_no_call hno) hs

end JOS
