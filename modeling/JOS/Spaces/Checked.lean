import JOS.Spaces.Sound
import JOS.Sched.RoundRobin

/-!
# Calls that can be checked

Whether the entries that a system call looks up are present can be read off the state,
and whether the page that it maps once more has a reference left, too: where the address
spaces are sound, `pp_ref` of a page of user data is the number of its mappings
(`spare_mapCount`). On one CPU nothing else can go wrong, so that a list of events is a
tame run when each of them passes `sharingCheck` in its state.
-/

namespace JOS

open JOS.General

variable {s s' s₁ : KState} {ev : Event} {k : ℕ → Kind} {c cur d e e' p : ℕ}
  {a : SysArgs} {va : Word}

/-- The entry for `va` of `e` is present, and `pp_ref` of its page can be incremented. -/
def KState.spare (s : KState) (e : ℕ) (va : Word) : Bool :=
  test (s.upte e (PGNUM va)) PTE_P && decide
    ((s.mem.ref (PGNUM (s.upte e (PGNUM va)))).toNat < 65535)

/-- A present entry is not empty. -/
theorem not_emptyEntry (hd : s.dirs e = some d) (hva : va < UTOP)
    (hP : test (s.upte e (PGNUM va)) PTE_P = true) :
    ¬ EmptyEntry s.mem d va := by
  rintro ⟨-, hno⟩
  rw [KState.upte, upte_of_dir hd ((PGNUM_lt_iff va).mpr hva)] at hP
  exact hno hP

theorem spare_present (h : s.spare e va = true) : test (s.upte e (PGNUM va)) PTE_P = true :=
  (Bool.and_eq_true_iff.mp h).1

/-- **A count that has not wrapped** is the number of mappings. -/
theorem spare_mapCount (hx : (s.vmState k).Sound) (h : s.spare e va = true)
    (hn : Names (s.upte e (PGNUM va)) p) :
    mapCount s.upte p < 65535 := by
  have href : (s.mem.ref p).toNat < 65535 := by
    rw [KState.spare, hn.2] at h
    exact of_decide_eq_true (Bool.and_eq_true_iff.mp h).2
  have hcount : s.mem.ref p = BitVec.ofNat 16 (mapCount s.upte p) :=
    hx.vm.count p (hx.vm.tables.data_of_names hn)
  have hsmall : mapCount s.upte p < 65536 := hx.small p
  rw [hcount, BitVec.toNat_ofNat] at href
  generalize mapCount s.upte p = n at href hsmall ⊢
  omega

/-! ### The calls that look a page up -/

/-- The arguments of `sys_page_map` are wrong, or the page can be mapped once more. -/
def mapCheck (s : KState) (cur : ℕ) (srcenvid srcva dstenvid dstva perm : Word) : Bool :=
  match pageMapArgs s cur srcenvid srcva dstenvid dstva perm with
  | .ok (e, _) => s.spare e srcva
  | .error _ => true

/-- The arguments of `sys_page_unmap` are wrong, or there is a page to unmap. -/
def unmapCheck (s : KState) (cur : ℕ) (envid va : Word) : Bool :=
  match envid2env s cur envid true with
  | some e => !vaOk va || test (s.upte e (PGNUM va)) PTE_P
  | none => true

/-- `sys_ipc_try_send` finds no receiver, sends no page, or the page can be mapped once more. -/
def sendCheck (s : KState) (cur : ℕ) (envid srcva : Word) : Bool :=
  match ipcSendArgs s cur envid with
  | .ok _ => !decide (srcva < UTOP) || s.spare cur srcva
  | .error _ => true

variable {envid srcenvid srcva dstenvid dstva perm : Word}

theorem spare_of_mapCheck (h : mapCheck s cur srcenvid srcva dstenvid dstva perm = true)
    (hargs : pageMapArgs s cur srcenvid srcva dstenvid dstva perm = .ok (e, e')) :
    s.spare e srcva = true := by
  rw [mapCheck, hargs] at h
  exact h

theorem present_of_unmapCheck (h : unmapCheck s cur envid va = true)
    (henv : envid2env s cur envid true = some e)
    (hva : vaOk va = true) : test (s.upte e (PGNUM va)) PTE_P = true := by
  rw [unmapCheck, henv] at h
  simpa [hva] using h

theorem spare_of_sendCheck (h : sendCheck s cur envid srcva = true)
    (hargs : ipcSendArgs s cur envid = .ok e)
    (hva : srcva < UTOP) : s.spare cur srcva = true := by
  rw [sendCheck, hargs] at h
  simpa [hva] using h

/-- Whether a system call with these arguments can look up what it looks up, and map it. -/
def callCheck (s : KState) (cur : ℕ) (a : SysArgs) : Bool :=
  match SysNo.ofWord a.no with
  | some .pageMap => mapCheck s cur a.a1 a.a2 a.a3 a.a4 a.a5
  | some .pageUnmap => unmapCheck s cur a.a1 a.a2
  | some .ipcTrySend => sendCheck s cur a.a1 a.a3
  | _ => true

/-! ### Events on one CPU -/

/-- Whether an event happens on CPU `c`, looks up what it can map, and loads a program as it
should. -/
def sharingCheck (c : ℕ) (s : KState) : Event → Bool
  | .create c' elf => c' == c && decide elf.BelowUTOP && s.curenv c' == none
  | .trap c' t => c' == c && (t.tf.tfTrapno != T_SYSCALL ||
      match s.curenv c' with
      | some cur => callCheck (trapEntry s.reset c' cur t) cur t.args
      | none => true)
  | ev => ev.cpu == c

/-- There are no other CPUs whose environments could be taken away. -/
theorem Single.leavesOthers {S : EnvStatus → Prop} (h : Single c s.table) (hc : ev.cpu = c) :
    LeavesOthers S s ev := by
  have hno : ∀ {c' cur a s₁} e, SysCall s ev c' cur a s₁ → ¬ Elsewhere s c' e := by
    rintro c' cur a s₁ e ⟨t, rfl, -⟩ ⟨c'', hne, hcur⟩
    exact hne ((h.only c'' e hcur).trans hc.symm)
  refine ⟨?_, ?_, ?_⟩
  · rintro c' e st ⟨cur, a, s₁, hcall, -⟩ helse
    exact (hno e hcall helse).elim
  · rintro c' e ⟨cur, a, s₁, hcall, -⟩ helse
    exact hno e hcall helse
  · rintro c' e ⟨cur, a, s₁, hcall, -⟩ helse
    exact (hno e hcall helse).elim

theorem sharingCheck_cpu (h : sharingCheck c s ev = true) : ev.cpu = c := by
  cases ev <;> simp [sharingCheck, Event.cpu] at h ⊢ <;> tauto

theorem sharingCheck_image (h : sharingCheck c s ev = true) :
    ∀ c' elf, ev = .create c' elf → elf.BelowUTOP ∧ s.curenv c' = none := by
  rintro c' elf rfl
  simp only [sharingCheck, Bool.and_eq_true, beq_iff_eq, decide_eq_true_eq] at h
  exact ⟨h.1.2, h.2⟩

theorem SysCall.callCheck (hcall : SysCall s ev c cur a s₁) (h : sharingCheck c s ev = true) :
    callCheck s₁ cur a = true := by
  obtain ⟨t, rfl, hcur, -, hno, rfl, rfl⟩ := hcall
  simpa [sharingCheck, hno, hcur] using h

/-- An event that passes looks up present entries. -/
theorem sharingCheck_present (h : sharingCheck c s ev = true) (hlook : LooksUp s ev e va) :
    test (s.upte e (PGNUM va)) PTE_P = true ∧ va < UTOP := by
  have hcpu := sharingCheck_cpu h
  rcases hlook with ⟨e', va', perm, c', cur, a, s₁, hcall, hno, hargs, rfl, -⟩ |
    ⟨c', cur, a, s₁, hcall, hno, henv, hva, rfl⟩ | ⟨c', a, s₁, e', hcall, hno, hargs, hva, rfl⟩
  all_goals
    have hc : c' = c := by
      obtain ⟨t, rfl, -⟩ := hcall
      exact hcpu
    subst hc
    have hcheck := hcall.callCheck h
    rw [JOS.callCheck, hno] at hcheck
    rw [← hcall.spaces.upte]
  · exact ⟨spare_present (spare_of_mapCheck hcheck hargs), vaOk_lt (pageMapArgs_ok hargs).1⟩
  · exact ⟨present_of_unmapCheck hcheck henv hva, vaOk_lt hva⟩
  · exact ⟨spare_present (spare_of_sendCheck hcheck hargs hva), hva⟩

/-- It maps a page once more that has a reference left. -/
theorem sharingCheck_room {va' : Word} (h : sharingCheck c s ev = true) (hx : (s.vmState k).Sound)
    (hmaps : Maps s ev e va e' va' perm) (hn : Names (s.upte e (PGNUM va)) p) :
    mapCount s.upte p < 65535 := by
  have hcpu := sharingCheck_cpu h
  rcases hmaps with ⟨c', cur, a, s₁, hcall, hno, hargs, rfl, -⟩ |
    ⟨c', a, s₁, hcall, hno, hargs, hva, -, -, rfl, -⟩
  all_goals
    have hc : c' = c := by
      obtain ⟨t, rfl, -⟩ := hcall
      exact hcpu
    subst hc
    have hcheck := hcall.callCheck h
    rw [JOS.callCheck, hno] at hcheck
    have hsame := hcall.spaces
    rw [← hsame.upte] at hn ⊢
  · exact spare_mapCount (hsame.sound hx) (spare_of_mapCheck hcheck hargs) hn
  · exact spare_mapCount (hsame.sound hx) (spare_of_sendCheck hcheck hargs hva) hn

/-- **An event that passes is tame**, on one CPU. -/
theorem tame_of_sharingCheck (hsingle : Single c s.table) (hsound : SoundState s)
    (h : sharingCheck c s ev = true) : Tame s ev := by
  obtain ⟨k, hx⟩ := hsound.sound
  refine ⟨hsingle.leavesOthers (sharingCheck_cpu h), fun e va d hlook hd => ?_,
    fun e va e' va' perm p hmaps hn => ?_,
    sharingCheck_image h⟩
  · obtain ⟨hP, hva⟩ := sharingCheck_present h hlook
    exact not_emptyEntry hd hva hP
  · exact .inl (sharingCheck_room h hx hmaps hn)

/-- What the check relies on. -/
structure CheckState (c : ℕ) (s : KState) : Prop where
  single : Single c s.table
  sound : SoundState s

theorem Booted.checkState (h : Booted s) : CheckState c s := ⟨h.single, h.soundState⟩

theorem CheckState.tame (h : CheckState c s) (hok : sharingCheck c s ev = true) : Tame s ev :=
  tame_of_sharingCheck h.single h.sound hok

theorem CheckState.step (h : CheckState c s) (hok : sharingCheck c s ev = true)
    (hs : step s ev = some s') :
    CheckState c s' :=
  ⟨h.single.step (sharingCheck_cpu hok) hs, h.sound.step (h.tame hok) hs⟩

/-- **A list of events that pass** is a tame run. -/
theorem Booted.reach_of_check {es : List Event} (h₀ : Booted s)
    (h : es.foldlM (fun t e => if sharingCheck c t e then JOS.step t e else none) s = some s') :
    Reach JOS.step Tame s s' := by
  have hchecked : Reach JOS.step (fun t e => sharingCheck c t e = true) s s' :=
    Reach.of_guarded h fun _ _ => id
  exact (hchecked.mono_of_invariant (h₀.checkState (c := c)) (fun _ _ _ ht hok hs => ht.step hok hs)
    fun _ _ ht hok => ht.tame hok).2

/-! ### A page that is shared -/

/-- Two programs start, and the second one waits for a page at `0x2000`. The first one gets a page
at `0x1000`, maps it at `0x3000` once more, read-only, and sends it. -/
def sharedRun : List Event :=
  [.create 0 emptyElf, .create 0 emptyElf, .start 0, .trap 0 (sysTrap 10 0 0 0 0 0),
    .trap 0 (sysTrap 12 0x2000 0 0 0 0),
    .trap 0 (sysTrap 4 0 0x1000 7 0 0), .trap 0 (sysTrap 5 0 0x1000 0 0x3000 5),
    .trap 0 (sysTrap 11 0x1001 9 0x1000 7 0)]

end JOS
