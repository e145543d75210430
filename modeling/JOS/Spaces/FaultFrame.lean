import JOS.Spaces.Upper
import JOS.Spaces.Reclaim
import JOS.Spaces.Total
import JOS.Memory.Bytes

/-!
# Where `page_fault_handler` writes

The handler writes a `struct UTrapframe` at `utfAddr`, after `user_mem_assert` has found that the
program may write there. On the exception stack that is 56 bytes below the program's stack pointer,
and near the bottom of the page these reach into the page below. Nothing is mapped there unless the
program has mapped it; then the frame goes there.
-/

namespace JOS

open JOS.General

variable {s s' s₁ : KState} {k : ℕ → Kind} {m m' : Mem} {c cur d i o p : ℕ} {va esp pte : Word}

/-! ### Addresses -/

/-- A frame below `esp` reaches below the exception stack. -/
def Overflows (esp : Word) : Prop :=
  (UXSTACKTOP - PGSIZE).toNat ≤ esp.toNat ∧ esp.toNat < (UXSTACKTOP - PGSIZE).toNat + 56

/-- The program can write all bytes of the frame. -/
def FrameWritable (m : Mem) (d : ℕ) (esp : Word) : Prop :=
  ∀ a : Word, (utfAddr esp).toNat ≤ a.toNat → a.toNat < (utfAddr esp).toNat + 52 →
    AddrOk m d (PTE_W ||| PTE_U) a

theorem uxstack_toNat : (UXSTACKTOP - PGSIZE).toNat = 0xeebff000 ∧
    UXSTACKTOP.toNat = 0xeec00000 := by decide

theorem utfAddr_toNat (esp : Word) : (utfAddr esp).toNat =
    if 0xeebff000 ≤ esp.toNat ∧ esp.toNat < 0xeec00000 then esp.toNat - 56 else 0xeebfffcc := by
  have hcond : (esp ≥ UXSTACKTOP - PGSIZE ∧ esp ≤ UXSTACKTOP - 1) ↔ 0xeebff000 ≤ esp.toNat ∧
      esp.toNat < 0xeec00000 := by
    rw [ge_iff_le, BitVec.le_def, BitVec.le_def, uxstack_toNat.1,
      show (UXSTACKTOP - 1).toNat = 0xeebfffff by decide]
    omega
  rw [utfAddr]
  by_cases h : 0xeebff000 ≤ esp.toNat ∧ esp.toNat < 0xeec00000
  · rw [if_pos (hcond.mpr h), if_pos h, show utfSize = 52#32 from rfl]
    bv_omega
  · rw [if_neg fun h' => h (hcond.mp h'), if_neg h]
    decide

/-- The frame is on the exception stack, or it overflows. -/
theorem overflows_iff : Overflows esp ↔ (utfAddr esp).toNat < (UXSTACKTOP - PGSIZE).toNat := by
  rw [Overflows, uxstack_toNat.1, utfAddr_toNat]
  split_ifs <;> omega

/-- The check of `page_fault_handler`. -/
theorem userMemCheck_frame (esp : Word) (htab : TablesInMemory m d) : ∃ bad r,
    userMemCheck m d (utfAddr esp) utfSize (PTE_W ||| PTE_U) = .ok (r, bad) ∧
    (r = 0 ↔ FrameWritable m d esp) := by
  obtain ⟨bad, r, hcheck, -, hiff⟩ := userMemCheck_eq htab (utfAddr esp) utfSize (PTE_W ||| PTE_U)
  have hle := utfAddr_le esp
  have hU : UTOP.toNat = 0xeec00000 := UTOP_toNat
  have hsize : utfSize.toNat = 52 := rfl
  rw [addrOk_pages (by decide) (by omega), hsize] at hiff
  exact ⟨bad, r, hcheck, hiff⟩

/-! ### What it is to do -/

/-- The environment has been destroyed, and user memory is as it was. -/
def DestroysCurenv (s : KState) (c cur : ℕ) (r : Except Leave KState) : Prop :=
  ∃ s₁, envFree s c cur = .ok s₁ ∧
    r = .error (schedYield ((s₁.setCurenv c none).log (.clear c)) c) ∧
    ∀ p, s.mem.userData p = true → s₁.mem.phys p = s.mem.phys p

/-- `curenv` goes on in its handler, with the frame on its stack. -/
def resumed (s : KState) (cur : ℕ) (m : Mem) : KState :=
  { s with mem := m }.setEnv cur { s.envs cur with
    envTf := { (s.envs cur).envTf with
      tfEip := (s.envs cur).envPgfaultUpcall, tfEsp := utfAddr (s.envs cur).envTf.tfEsp } }

/-- The frame has been written to the exception stack, whose page the program can write, and nothing
else has. -/
def WritesFrame (s : KState) (c cur : ℕ) (faultVa : Word) (r : Except Leave KState) : Prop :=
  let utf := (utfAddr (s.envs cur).envTf.tfEsp).toNat
  ∃ m pte, r = .error (envRun (resumed s cur m) c cur) ∧
    (UXSTACKTOP - PGSIZE).toNat ≤ utf ∧ utf + 52 ≤ UXSTACKTOP.toNat ∧
    translate s.mem (s.cpus c).cr3 (UXSTACKTOP - PGSIZE) = some pte ∧
    pte &&& (PTE_W ||| PTE_U) = PTE_W ||| PTE_U ∧
    (∀ i < 52, m.byte (PGNUM pte) (utf % 4096 + i) = wordsByte
      (utfWords faultVa (s.envs cur).envTf) i) ∧
    ∀ p o, (p = PGNUM pte → o < utf % 4096 ∨ utf % 4096 + 52 ≤ o) → m.byte p o = s.mem.byte p o

/-- `page_fault_handler` as it is to be. -/
def FrameOnStack (s : KState) (c cur : ℕ) (faultVa : Word) : Prop :=
  (DestroysCurenv s c cur (pageFaultHandler s c cur faultVa) ∨
    WritesFrame s c cur faultVa (pageFaultHandler s c cur faultVa)) ∧
    (Overflows (s.envs cur).envTf.tfEsp → DestroysCurenv s c cur (pageFaultHandler s c cur faultVa))

/-! ### What it does -/

/-- The pages of user data. -/
theorem Vm.dataPages {D : ℕ → Option ℕ} {e : ℕ} (h : Vm m D k) (hd : D e = some d) :
    DataPages m d fun p => k p = .data := by
  refine ⟨fun hk => ?_, fun i hi t hn hk => ?_, fun v hv p hn => ?_⟩
  · rw [(h.tables.dir e d).mp hd] at hk
    cases hk
  · have ht := h.tables.pde e d i hd hi hn.1
    rw [hn.2, hk] at ht
    cases ht
  · exact h.tables.data_of_names (e := e) (v := v) (by rwa [upte_of_dir hd hv])

/-- `env_free` writes no user data. -/
theorem envFree_data (hx : (s.vmState k).Sound) (hd : s.dirs cur = some d) : ∃ s₁,
    envFree s c cur = .ok s₁ ∧
    s₁.dirs cur = none ∧ ∀ p, s.mem.userData p = true → s₁.mem.phys p = s.mem.phys p := by
  obtain ⟨m, hm⟩ := hx.vm.envFreeVm_ok hx.small hd
  obtain ⟨s₁, hfree, hmem, hdirs⟩ := envFree_of_envFreeVm (c := c) hd hm
  refine ⟨s₁, hfree, by rw [hdirs, Function.update_self], fun p hp => ?_⟩
  have hpages := hx.vm.dataPages hd
  have hdata : k p = .data := (hx.vm.pool.user p).mp hp
  funext x
  rw [hmem]
  rcases (envFreeVm_cleared hm).words p x with hw | ⟨-, ⟨rfl, -⟩ | ⟨i, hi, hn⟩⟩
  · exact hw
  · exact absurd hdata hpages.dir
  · exact absurd hdata (hpages.table i hi p hn)

/-- `env_destroy` of the environment that runs. -/
theorem envDestroy_destroysCurenv (hx : (s.vmState k).Sound) (hcur : s.curenv c = some cur)
    (hd : s.dirs cur = some d) :
    DestroysCurenv s c cur (envDestroy s c cur) := by
  obtain ⟨s₁, hfree, -, hdata⟩ := envFree_data (c := c) hx hd
  have hcur₁ : s₁.curenv c = some cur :=
    (congrFun (congrArg Procs.curenv (envFree_acts hfree).1.1) c).trans hcur
  refine ⟨s₁, hfree, ?_, hdata⟩
  simp only [envDestroy, hcur, ne_eq, not_true_eq_false, and_false, if_false, hfree, liftStop,
    ok_bind, hcur₁, if_true]

theorem test_of_and {w f g : Word} (h : w &&& f = f) (hg : f &&& g = g) (hne : g ≠ 0) :
    test w g = true := by
  have hand : w &&& g = g := by rw [← hg, ← BitVec.and_assoc, h]
  rw [test, hand]
  simpa using hne

/-- The frame is stored when the check has passed. -/
theorem storeFrame (va : Word) (hx : (s.vmState k).Sound) (hload : s.dirs cur = some d)
    (hw : FrameWritable s.mem d esp) (tf : Trapframe) :
    ∃ m, storeWords s.mem d (utfAddr esp) (utfWords va tf) = .ok m ∧
      Copied s.mem d (fun p => k p = .data) (utfAddr esp) (wordsByte (utfWords va tf)) 52 m := by
  have hle := utfAddr_le esp
  have hU : UTOP.toNat < 2 ^ 32 := UTOP.isLt
  rw [storeWords_eq, show 4 * (utfWords va tf).length = 52 from rfl]
  refine (hx.vm.dataPages hload).storeBytes hle fun i hi => ?_
  have hadd : (utfAddr esp + BitVec.ofNat 32 i).toNat = (utfAddr esp).toNat + i := by
    rw [BitVec.toNat_add, BitVec.toNat_ofNat]
    omega
  obtain ⟨-, pte, ht, hperm⟩ := hw (utfAddr esp + BitVec.ofNat 32 i) (by omega) (by omega)
  exact ⟨pte, ht, test_of_and hperm (by decide) (by decide)⟩

/-- The part of `page_fault_handler` after its checks. -/
theorem pageFaultHandler_resumes (hup : (s.envs cur).envPgfaultUpcall ≠ 0)
    (hcur : s.curenv c = some cur)
    (hd : s.dirs cur = some d)
    (hcheck : (userMemCheck s.mem d (utfAddr (s.envs cur).envTf.tfEsp) utfSize
    (PTE_W ||| PTE_U)).map Prod.fst = .ok 0)
    (hstore : storeWords s.mem (s.cpus c).cr3 (utfAddr (s.envs cur).envTf.tfEsp)
    (utfWords va (s.envs cur).envTf) = .ok m) :
    pageFaultHandler s c cur va = .error (envRun (resumed s cur m) c cur) := by
  have hassert : userMemAssert s c cur (utfAddr (s.envs cur).envTf.tfEsp) utfSize PTE_W = .ok s :=
    (userMemAssert_eq_ok hcur hd).mpr ⟨rfl, hcheck⟩
  rw [pageFaultHandler, if_neg hup]
  simp only [pure_eq_ok, ok_bind, hassert, hstore, liftStop]
  rfl

/-- A fault that is not handled destroys the environment. -/
theorem pageFaultHandler_destroys (hx : (s.vmState k).Sound) (htab : TablesInMemory s.mem d)
    (hcur : s.curenv c = some cur)
    (hd : s.dirs cur = some d)
    (h : (s.envs cur).envPgfaultUpcall = 0 ∨ ¬ FrameWritable s.mem d (s.envs cur).envTf.tfEsp) :
    DestroysCurenv s c cur (pageFaultHandler s c cur va) := by
  obtain ⟨s₁, hfree, hdestroy, hdata⟩ := envDestroy_destroysCurenv hx hcur hd
  refine ⟨s₁, hfree, ?_, hdata⟩
  rw [pageFaultHandler]
  by_cases hup : (s.envs cur).envPgfaultUpcall = 0
  · rw [if_pos hup, hdestroy]
    rfl
  · obtain ⟨bad, r, hcheck, hiff⟩ := userMemCheck_frame (s.envs cur).envTf.tfEsp htab
    have hr : r ≠ 0 := fun hr => (h.resolve_left hup) (hiff.mp hr)
    have hpgdir : (s.envs cur).envPgdir = some d := hd
    have hassert : userMemAssert s c cur (utfAddr (s.envs cur).envTf.tfEsp) utfSize PTE_W =
        envDestroy s c cur := by
      simp only [userMemAssert, hpgdir, deref, liftStop, ok_bind, hcheck]
      exact if_pos hr
    simp only [if_neg hup, pure_eq_ok, ok_bind, hassert, hdestroy]
    rfl

/-- The page of the exception stack that the frame is on. -/
theorem frame_page (h : ¬ Overflows esp) (hi : i < 52) :
    (utfAddr esp + BitVec.ofNat 32 i).toNat = (utfAddr esp).toNat + i ∧
    PGNUM (utfAddr esp + BitVec.ofNat 32 i) = PGNUM (UXSTACKTOP - PGSIZE) ∧
    (utfAddr esp).toNat % 4096 + i < 4096 := by
  rw [overflows_iff, uxstack_toNat.1] at h
  have hle := utfAddr_le esp
  rw [UTOP_toNat] at hle
  have hadd : (utfAddr esp + BitVec.ofNat 32 i).toNat = (utfAddr esp).toNat + i := by
    rw [BitVec.toNat_add, BitVec.toNat_ofNat]
    omega
  refine ⟨hadd, ?_, by omega⟩
  rw [PGNUM_eq, PGNUM_eq, hadd, uxstack_toNat.1]
  omega

/-- A frame that does not overflow is on the exception stack. -/
theorem Copied.writesFrame
    (hcopy : Copied s.mem (s.cpus c).cr3 (fun p => k p = .data) (utfAddr (s.envs cur).envTf.tfEsp)
      (wordsByte (utfWords va (s.envs cur).envTf)) 52 m)
    (hw : FrameWritable s.mem (s.cpus c).cr3 (s.envs cur).envTf.tfEsp)
    (hover : ¬ Overflows (s.envs cur).envTf.tfEsp) :
    WritesFrame s c cur va (.error (envRun (resumed s cur m) c cur)) := by
  generalize hesp : (s.envs cur).envTf.tfEsp = esp at *
  have hle := utfAddr_le esp
  have hbase := hover
  rw [overflows_iff, not_lt] at hbase
  obtain ⟨-, pte, ht, hperm⟩ := hw (utfAddr esp) le_rfl (by omega)
  have hpage := fun i (hi : i < 52) => frame_page hover hi
  have hslot : ∀ i < 52, ∀ p o, Slot s.mem (s.cpus c).cr3 (utfAddr esp + BitVec.ofNat 32 i) p o ↔
      p = PGNUM pte ∧ o = (utfAddr esp).toNat % 4096 + i := by
    intro i hi p o
    have hti : translate s.mem (s.cpus c).cr3 (utfAddr esp + BitVec.ofNat 32 i) = some pte := by
      rw [translate_congr_page ((hpage i hi).2.1.trans (hpage 0 (by decide)).2.1.symm), ← ht]
      simp
    obtain ⟨hadd, -, hin⟩ := hpage i hi
    simp only [Slot, hti, hadd, Option.some.injEq, exists_eq_left']
    refine and_congr_right fun _ => ?_
    rw [show ((utfAddr esp).toNat + i) % 4096 = (utfAddr esp).toNat % 4096 + i by omega]
  refine ⟨m, pte, rfl, ?_, ?_, ?_, hperm, fun i hi => ?_, fun p o ho => ?_⟩
  · rw [hesp]
    exact hbase
  · rw [hesp]
    exact hle
  · rw [← ht]
    refine translate_congr_page ?_
    have hzero := (hpage 0 (by decide)).2.1
    simpa using hzero.symm
  · rw [hesp]
    refine hcopy.bytes (fun j hj n hn p o hs hs' => ?_) i hi _ _ ((hslot i hi _ _).mpr ⟨rfl, rfl⟩)
    have h₁ := ((hslot j hj p o).mp hs).2
    have h₂ := ((hslot n hn p o).mp hs').2
    omega
  · rw [hesp] at ho
    refine hcopy.others p o fun i hi hs => ?_
    obtain ⟨hp, ho'⟩ := (hslot i hi p o).mp hs
    have := ho hp
    omega

/-- An environment that has been destroyed has no directory. -/
theorem DestroysCurenv.dirs (h : DestroysCurenv s c cur (.error (.gone s'))) :
    s'.dirs cur = none := by
  obtain ⟨s₁, hfree, hyield, -⟩ := h
  have hlive : s₁.procs.live cur = false := by
    rw [(envFree_acts hfree).1.1]
    exact Function.update_self _ _ _
  have hclear : SameSpaces s₁ ((s₁.setCurenv c none).log (.clear c)) :=
    sameSpaces_setCurenv s₁ c none
  rw [(schedYield_spaces (Except.error.inj hyield).symm).2, hclear.2]
  exact Option.not_isSome_iff_eq_none.mp
    (by rw [show (s₁.dirs cur).isSome = false from hlive]; simp)

/-- One that goes on has one. -/
theorem resumed_not_destroyed (hd : s.dirs cur = some d) :
    ¬ DestroysCurenv s c cur (.error (envRun (resumed s cur m) c cur)) := by
  intro h
  have hdirs : (resumed s cur m).dirs = s.dirs :=
    (sameSpaces_setEnv { s with mem := m } cur { s.envs cur with
    envTf := { (s.envs cur).envTf with
      tfEip := (s.envs cur).envPgfaultUpcall, tfEsp := utfAddr (s.envs cur).envTf.tfEsp } } rfl).2
  obtain ⟨s', hrun⟩ := envRun_gone (c := c) ((congrFun hdirs cur).trans hd)
  have hsome : s'.dirs cur = some d := (congrFun ((envRun_spaces hrun).2.trans hdirs) cur).trans hd
  rw [hrun] at h
  rw [h.dirs] at hsome
  cases hsome

/-- **Where the frame goes**: `page_fault_handler` destroys the environment or writes the frame to
its exception stack, unless there is a handler, the frame overflows, and the program can write below
its exception stack. -/
theorem pageFaultHandler_frame_iff (hx : (s.vmState k).Sound) (hg : Good s)
    (hcur : s.curenv c = some cur)
    (hload : s.dirs cur = some (s.cpus c).cr3) : FrameOnStack s c cur va ↔
      (s.envs cur).envPgfaultUpcall = 0 ∨ ¬ Overflows (s.envs cur).envTf.tfEsp ∨
        ¬ FrameWritable s.mem (s.cpus c).cr3 (s.envs cur).envTf.tfEsp := by
  have htab := hg.tablesInMemory hx.vm hload
  by_cases hup : (s.envs cur).envPgfaultUpcall = 0
  · have hdestroy : DestroysCurenv s c cur (pageFaultHandler s c cur va) :=
      pageFaultHandler_destroys hx htab hcur hload (.inl hup)
    exact iff_of_true ⟨.inl hdestroy, fun _ => hdestroy⟩ (.inl hup)
  by_cases hw : FrameWritable s.mem (s.cpus c).cr3 (s.envs cur).envTf.tfEsp
  · obtain ⟨bad, r, hcheck, hiff⟩ := userMemCheck_frame (s.envs cur).envTf.tfEsp htab
    obtain ⟨m, hstore, hcopy⟩ := storeFrame va hx hload hw (s.envs cur).envTf
    have hrun : pageFaultHandler s c cur va = .error (envRun (resumed s cur m) c cur) :=
      pageFaultHandler_resumes hup hcur hload (by rw [hcheck, hiff.mpr hw]; rfl) hstore
    rw [FrameOnStack, hrun]
    by_cases hover : Overflows (s.envs cur).envTf.tfEsp
    · refine iff_of_false (fun h => resumed_not_destroyed hload (h.2 hover)) ?_
      rintro (h | h | h)
      · exact hup h
      · exact h hover
      · exact h hw
    · exact iff_of_true ⟨.inr (hcopy.writesFrame hw hover), fun h => absurd h hover⟩
        (.inr (.inl hover))
  · have hdestroy : DestroysCurenv s c cur (pageFaultHandler s c cur va) :=
      pageFaultHandler_destroys hx htab hcur hload (.inr hw)
    exact iff_of_true ⟨.inl hdestroy, fun _ => hdestroy⟩ (.inr (.inr hw))

/-- A program that has an exception stack and a handler. -/
def handlerRun : List Event :=
  [.create 0 emptyElf, .start 0, .trap 0 (sysTrap 4 0 0xeebff000 7 0 0),
    .trap 0 (sysTrap 9 0 0x800020 0 0 0)]

/-- Its first fault. -/
theorem pageFaultHandler_frame_first : ∃ s, Reach step Tame (bootState 1) s ∧ s.curenv 0 = some 0 ∧
    (s.envs 0).envPgfaultUpcall = 0x800020 ∧ FrameOnStack s 0 0 0x1234 := by
  have hrun : (handlerRun.foldlM (fun t e => if tameCheck t e then step t e else none)
    (bootState 1)).map
      (fun s => (s.curenv 0, (s.envs 0).envPgfaultUpcall, (s.envs 0).envTf.tfEsp)) =
          some (some 0, 0x800020, USTACKTOP) := by
    decide +kernel
  obtain ⟨s, hs, hmap⟩ := Option.map_eq_some_iff.mp hrun
  simp only [Prod.mk.injEq] at hmap
  obtain ⟨hcur, hup, hesp⟩ := hmap
  have hreach : Reach step Tame (bootState 1) s := Reach.of_guarded hs fun _ _ => tame_of_check
  have hsound := sound_of_reach (bootState_booted 1) hreach
  obtain ⟨k, hx⟩ := hsound.sound
  refine ⟨s, hreach, hcur, hup, ?_⟩
  refine (pageFaultHandler_frame_iff hx (good_of_reach (bootState_booted 1) hreach) hcur
    (hsound.loaded 0 0 hcur)).mpr (.inr (.inl ?_))
  rw [hesp, Overflows]
  decide

/-- It maps the page below, too, and moves its stack pointer to eight bytes above the bottom of the
exception stack. -/
def overflowRun : List Event :=
  handlerRun ++ [.trap 0 (sysTrap 4 0 0xeebfe000 7 0 0),
    .trap 0 { sysTrap 2 0 0 0 0 0 with
      tf := { (sysTrap 2 0 0 0 0 0).tf with tfEsp := 0xeebff008 } }]

/-- The frame of its next fault goes to the page below. -/
theorem not_frameOnStack : ∃ s, Reach step Tame (bootState 1) s ∧ s.curenv 0 = some 0 ∧
    ¬ FrameOnStack s 0 0 0x1234 := by
  have hrun : (overflowRun.foldlM (fun t e => if tameCheck t e then step t e else none)
    (bootState 1)).map
      (fun s => (s.curenv 0, (s.envs 0).envTf.tfEsp,
        match pageFaultHandler s 0 0 0x1234 with
        | .error (.gone s') => (s'.dirs 0).isSome
        | _ => false)) = some (some 0, 0xeebff008, true) := by
    decide +kernel
  obtain ⟨s, hs, hmap⟩ := Option.map_eq_some_iff.mp hrun
  simp only [Prod.mk.injEq] at hmap
  obtain ⟨hcur, hesp, hgone⟩ := hmap
  refine ⟨s, Reach.of_guarded hs fun _ _ => tame_of_check, hcur, fun h => ?_⟩
  have hdestroy := h.2 (by rw [hesp, Overflows]; decide)
  split at hgone
  · rename_i s' hs'
    rw [hs'] at hdestroy
    rw [hdestroy.dirs] at hgone
    cases hgone
  · cases hgone

end JOS
