import JOS.Spaces.KernelHalf
import JOS.Spaces.Sound

/-!
# The kernel's half, in every state of a run

Every address space has the kernel's half of `kern_pgdir` (`Good`), not after one
operation only but in every state of a tame run (`good_of_reach`). The memory code's
invariant gives what `Affects.good` asks for: no page that is in use is on the free
list, and no table below `UTOP` is a directory. Stores of user programs, and those of
`page_fault_handler`, go to pages of user data.
-/

namespace JOS

open JOS.General

open Function (update)

variable {s₀ s s' s₁ : KState} {ev : Event} {k : ℕ → Kind} {m m' : Mem} {D : ℕ → Option ℕ}
  {c cur d e p : ℕ} {va r w : Word}
  {t : TrapIn}

/-! ### What the memory code's invariant gives -/

/-- No page in use is on the free list. -/
theorem Vm.apart (h : Vm s.mem s.dirs k) : ∃ l, Apart s l := by
  obtain ⟨l, hl, hmem⟩ := h.pool.free
  have hfree : ∀ q ∈ l, k q = .free := fun q hq => (hmem q).mp hq
  refine ⟨l, ⟨hl, fun q hq => h.pool.lt (by rw [hfree q hq]; simp)⟩, fun hkd => ?_,
    fun q huse hq => ?_⟩
  · have hk := hfree _ hkd
    rw [h.tables.kernPgdir] at hk
    cases hk
  · have hk := hfree q hq
    rcases huse with ⟨e, hd⟩ | ⟨e, i, d, hd, hi, hn⟩
    · rw [(h.tables.dir e q).mp hd] at hk
      cases hk
    · have ht := h.tables.pde e d i hd hi hn.1
      rw [hn.2, hk] at ht
      cases ht

theorem Vm.noDirTable (h : Vm s.mem s.dirs k) : NoDirTable s := by
  rintro e i q ⟨d, hd, hi, hn⟩ hdir
  have ht := h.tables.pde e d i hd hi hn.1
  rw [hn.2] at ht
  rcases hdir with rfl | ⟨e', hd'⟩
  · rw [h.tables.kernPgdir] at ht
    cases ht
  · rw [(h.tables.dir e' q).mp hd'] at ht
    cases ht

/-- The tables that a directory names are in memory, those of the kernel's half too. -/
theorem Good.tablesInMemory (hg : Good s) (h : Vm s.mem s.dirs k) (hd : s.dirs e = some d) :
    TablesInMemory s.mem d := by
  intro i hi hP
  have hlt : ∀ q, k q ≠ .reserved → q < s.mem.npages := fun q hq => h.pool.lt_npages hq
  by_cases hlow : i < NUPDX
  · exact hlt _ (by rw [h.tables.pde e d i hd hlow hP]; simp)
  by_cases huvpt : i = PDX UVPT
  · subst huvpt
    rw [(hg.uvpt e d hd).1.2]
    exact hlt _ (by rw [(h.tables.dir e d).mp hd]; simp)
  · have heq := hg.upper e d i hd (not_lt.mp hlow) hi huvpt
    have hkern : KernEntry s.mem.phys s.mem.kernPgdir i (PGNUM (s.mem.phys d i)) :=
      ⟨not_lt.mp hlow, hi, huvpt, by rw [← heq]; exact ⟨hP, rfl⟩⟩
    exact hlt _ (by rw [(h.tables.kern _).mpr ⟨i, hkern⟩]; simp)

/-! ### Stores -/

/-- A store below `UTOP` goes to a page of user data. -/
theorem Vm.storeByte_phys {b : BitVec 8} (h : Vm m D k) (hd : D e = some d) (hva : va < UTOP)
    (hr : JOS.storeByte m d va b = .ok m') (hp : k p ≠ .data) : m'.phys p = m.phys p := by
  rw [JOS.storeByte] at hr
  cases ht : translate m d va with
  | none => simp [ht] at hr
  | some w =>
    simp only [ht] at hr
    split_ifs at hr
    cases hr
    obtain ⟨hP, hw⟩ := translate_eq hd hva ht
    have hdata : k (PGNUM w) = .data :=
      h.tables.data_of_names (e := e) (v := PGNUM va) (by rw [hw]; exact ⟨hP, rfl⟩)
    have hne : p ≠ PGNUM w := by
      rintro rfl
      exact hp hdata
    rw [Mem.storeAt, setWord_phys, setW_of_ne hne]

theorem Vm.storeWord_phys (h : Vm m D k) (hd : D e = some d) (hva : va.toNat + 4 ≤ UTOP.toNat)
    (hr : JOS.storeWord m d va w = .ok m') (hp : k p ≠ .data) : m'.phys p = m.phys p := by
  have hU : UTOP.toNat < 2 ^ 32 := UTOP.isLt
  have hboth : Stored m D k m' ∧ m'.phys p = m.phys p := by
    refine foldlM_invariant (I := fun m' => Stored m D k m' ∧ m'.phys p = m.phys p) hr
      ⟨h.stored, rfl⟩
      fun m₁ m₂ i hi hm₁ hs => ?_
    have hlt : va + BitVec.ofNat 32 i < UTOP := by
      have := List.mem_range.mp hi
      rw [BitVec.lt_def, BitVec.toNat_add, BitVec.toNat_ofNat]
      omega
    exact ⟨hm₁.1.trans (hm₁.1.vm.storeByte hd hlt hs),
      (hm₁.1.vm.storeByte_phys hd hlt hs hp).trans hm₁.2⟩
  exact hboth.2

theorem Vm.storeWords_phys {ws : List Word} (h : Vm m D k) (hd : D e = some d)
    (hva : va.toNat + 4 * ws.length ≤ UTOP.toNat)
    (hr : JOS.storeWords m d va ws = .ok m') (hp : k p ≠ .data) : m'.phys p = m.phys p := by
  induction ws generalizing m va with
  | nil =>
    cases hr
    rfl
  | cons w ws ih =>
    obtain ⟨m₁, hm₁, hr⟩ := bind_eq_ok.mp hr
    rw [List.length_cons] at hva
    have hU : UTOP.toNat < 2 ^ 32 := UTOP.isLt
    have hva₁ : va.toNat + 4 ≤ UTOP.toNat := by omega
    have hva₂ : (va + 4).toNat + 4 * ws.length ≤ UTOP.toNat := by
      rw [BitVec.toNat_add, show (4 : Word).toNat = 4 from rfl]
      omega
    rw [ih (h.storeWord hd hva₁ hm₁).vm hva₂ hr, h.storeWord_phys hd hva₁ hm₁ hp]

/-- What only writes pages of user data leaves a good state. -/
theorem Good.stored (hg : Good s) (h : Vm s.mem s.dirs k)
    (hkern : s'.mem.kernPgdir = s.mem.kernPgdir) (hdirs : s'.dirs = s.dirs)
    (hphys : ∀ p, k p ≠ .data → s'.mem.phys p = s.mem.phys p) : Good s' := by
  have hkd : s'.mem.phys s'.mem.kernPgdir = s.mem.phys s.mem.kernPgdir := by
    rw [hkern]
    exact hphys _ (by rw [h.tables.kernPgdir]; simp)
  have hdir : ∀ e d, s.dirs e = some d → s'.mem.phys d = s.mem.phys d := fun e d hd =>
    hphys d (by rw [(h.tables.dir e d).mp hd]; simp)
  refine ⟨fun e d i hd hi hi' hne => ?_, fun e d hd => ?_⟩
  · rw [hdirs] at hd
    rw [hkd, hdir e d hd]
    exact hg.upper e d i hd hi hi' hne
  · rw [hdirs] at hd
    rw [hdir e d hd]
    exact hg.uvpt e d hd

/-- Nothing is written. -/
theorem Good.same (hg : Good s) (hs : SameSpaces s s') : Good s' := by
  refine ⟨fun e d i hd hi hi' hne => ?_, fun e d hd => ?_⟩
  · rw [hs.2] at hd
    rw [hs.1]
    exact hg.upper e d i hd hi hi' hne
  · rw [hs.2] at hd
    rw [hs.1]
    exact hg.uvpt e d hd

/-- What writes below `UTOP` only, and free pages. -/
theorem Good.affects {T : ℕ → Prop} (hg : Good s) (h : Vm s.mem s.dirs k)
    (haff : ∀ l, Apart s l → Affects T l s s') : Good s' := by
  obtain ⟨l, hl⟩ := h.apart
  exact (haff l hl).good hl h.noDirTable hg

/-! ### New environments -/

/-- The user half of a new directory is empty, as that of `kern_pgdir` is. -/
theorem envSetupVm_empty (hx : Vm s.mem s.dirs k) (h : envSetupVm s e = .ok (0, s')) :
    ∃ d, s'.dirs e = some d ∧ ∀ i < NUPDX, s'.mem.phys d i = 0 := by
  obtain ⟨l, hl⟩ := hx.apart
  obtain ⟨⟨o, m₁⟩, halloc, h₁⟩ := bind_eq_ok.mp h
  rcases pageAlloc_list hl.list halloc with ⟨rfl, rfl⟩ | ⟨p, t, rfl, rfl, -, hbase, -, hphys⟩
  · have hr : (-E_NO_MEM : Word) = 0 := congrArg Prod.fst (Except.ok.inj h₁)
    exact absurd hr (by decide)
  obtain ⟨pgdir, hkaddr, h₂⟩ := bind_eq_ok.mp h₁
  have hp : p < 2 ^ 20 := hl.list.lt p List.mem_cons_self
  have hkp : s.mem.kernPgdir ≠ p := fun h => hl.kernPgdir (h ▸ List.mem_cons_self)
  rw [kaddr, PGNUM_page2pa hp] at hkaddr
  split_ifs at hkaddr
  cases hkaddr
  cases h₂
  rw [if_pos rfl] at hphys
  refine ⟨p, by simp [KState.dirs, KState.setEnv], fun i hi => ?_⟩
  have hne : i ≠ PDX UVPT := by
    rintro rfl
    exact absurd hi (by decide)
  have hword : (setW (update m₁.phys p (m₁.phys m₁.kernPgdir)) p (PDX UVPT)
      (page2pa p ||| PTE_P ||| PTE_U)) p i = 0 := by
    rw [setW_of_ne_index hne, Function.update_self, hbase.kernPgdir, hphys,
      Function.update_of_ne hkp, hx.tables.kernUser i hi]
  exact hword

theorem envAlloc_empty {parentId : Word} (hx : Vm s.mem s.dirs k)
    (h : envAlloc s parentId = .ok (.ok e, s')) :
    ∃ d, s'.dirs e = some d ∧ ∀ i < NUPDX, s'.mem.phys d i = 0 := by
  rw [envAlloc] at h
  cases hfl : s.envFreeList with
  | none =>
    simp only [hfl] at h
    cases h
  | some e₁ =>
    simp only [hfl] at h
    obtain ⟨⟨r₁, s₁⟩, hvm, h⟩ := bind_eq_ok.mp h
    dsimp only at h
    split_ifs at h with hr
    · cases h
    · rw [not_not] at hr
      subst hr
      obtain ⟨d, hd, hzero⟩ := envSetupVm_empty hx hvm
      cases h
      refine ⟨d, ?_, hzero⟩
      simpa [KState.dirs, KState.setEnv, Env.renew] using hd

theorem envCreate_good {elf : Elf} (hg : Good s) (hx : (s.vmState k).Sound) (hfree : FreeHead s)
    (helf : elf.BelowUTOP)
    (h : envCreate s c elf = .ok s') : Good s' := by
  obtain ⟨⟨y, s₁⟩, halloc, h⟩ := bind_eq_ok.mp h
  have hg₁ : Good s₁ := hg.affects hx.vm fun l hl => envAlloc_affects (T := fun _ => True) hl halloc
  rcases envAlloc_does hx hfree halloc with ⟨⟨w, rfl⟩, -⟩ | ⟨e, k₁, rfl, -, hdoes⟩
  · cases h
  obtain ⟨d, hd, hzero⟩ := envAlloc_empty hx.vm halloc
  have hx₁ := hdoes.sound hx
  have hlog : SameSpaces s₁ (s₁.log (.alloc e .runnable)) := sameSpaces_log _ _
  refine (hg₁.same hlog).affects (k := k₁) hx₁.vm fun l hl =>
    loadIcode_affects hl hd (fun i hi => ?_) helf h
  have hz : (s₁.log (.alloc e .runnable)).mem.phys d i = 0 := hzero i hi
  rw [hz]
  exact fun hP => not_names_zero 0 ⟨hP, by decide⟩

/-! ### Traps and steps -/

theorem pageFaultHandler_good (hg : Good s) (hx : (s.vmState k).Sound)
    (hcur : s.curenv c = some cur)
    (hload : s.dirs cur = some (s.cpus c).cr3)
    (h : pageFaultHandler s c cur va = .error (.gone s')) : Good s' := by
  rcases pageFaultHandler_cases hcur h with h | ⟨-, -, m, hstore, h⟩
  · exact hg.affects hx.vm fun l _ => envDestroy_affects (.inr h)
  · have hutf : (utfAddr (s.envs cur).envTf.tfEsp).toNat + 52 ≤ UTOP.toNat := utfAddr_le _
    have hst : Stored s.mem s.dirs k m :=
      hx.vm.storeWords hload (by rw [utfWords]; exact hutf) hstore
    have hstored : Good ({ s with mem := m } : KState) :=
      hg.stored hx.vm hst.base.kernPgdir rfl fun p hp =>
        hx.vm.storeWords_phys hload (by rw [utfWords]; exact hutf) hstore hp
    refine Good.same ?_ (envRun_spaces h)
    exact hstored.same (sameSpaces_setEnv _ cur _ rfl)

theorem exits_good (hg : Good s) (hx : (s.vmState k).Sound) (hfree : envFree s c e = .ok s₁)
    (h : schedYield ((s₁.setCurenv c none).log (.clear c)) c = .gone s') : Good s' := by
  have hg₁ : Good s₁ := hg.affects hx.vm fun l _ => envFree_affects hfree
  have hclear : SameSpaces s₁ ((s₁.setCurenv c none).log (.clear c)) :=
    sameSpaces_setCurenv s₁ c none
  exact (hg₁.same hclear).same (schedYield_spaces h)

/-- A trap from user mode. -/
theorem userTrap_good (hg : Good s) (hx : (s.vmState k).Sound) (hload : Loaded s)
    (hcur : s.curenv c = some cur)
    (h : UserTrapEnds (trapEntry s.reset c cur t) c cur t s') : Good s' := by
  have hcur₁ : (trapEntry s.reset c cur t).curenv c = some cur :=
    @trapEntry_curenv s.reset c cur hcur t
  have hentry : SameSpaces s (trapEntry s.reset c cur t) := trapEntry_spaces s.reset c cur t
  have hg₁ := hg.same hentry
  have hx₁ := hentry.sound hx
  cases h with
  | pageFault _ h =>
    exact pageFaultHandler_good hg₁ hx₁ hcur₁ (@Loaded.trapEntry s.reset c cur t hload hcur) h
  | leaves _ h => exact hg₁.affects hx₁.vm fun l _ => syscall_gone_affects h
  | returns _ hcall _ h =>
    have hg₂ := hg₁.affects hx₁.vm fun l hl => syscall_affects hl hcall
    exact hg₂.same ((sameSpaces_returned _ _ _).trans (trapReturn_spaces h))
  | spurious _ h => exact hg₁.same (trapReturn_spaces h)
  | timer h => exact hg₁.same (schedYield_spaces h)
  | destroys h => exact hg₁.affects hx₁.vm fun l _ => envDestroy_affects (.inr h)

theorem trap_good (hg : Good s) (hx : (s.vmState k).Sound) (hload : Loaded s)
    (h : trap s.reset c t = .gone s') : Good s' := by
  have hstarted : SameSpaces s (s.reset.setCpu c { s.reset.cpus c with cpuStatus := .started }) :=
    ⟨rfl, rfl⟩
  cases trapEnds h with
  | dying _ _ hfreed h => exact exits_good (hg.same hstarted) (hstarted.sound hx) hfreed h
  | user hcur _ h => exact userTrap_good hg hx hload hcur h
  | wakes _ h =>
    rcases h with h | h
    · exact hg.same (hstarted.trans (trapReturn_spaces h))
    · exact hg.same (hstarted.trans (schedYield_spaces h))

theorem userStore_good {b : BitVec 8} (hg : Good s) (hx : (s.vmState k).Sound) (hload : Loaded s)
    (h : userStore s c va b = some s') : Good s' := by
  rw [userStore] at h
  split_ifs at h with hrun
  obtain ⟨hcur, hva⟩ := hrun
  obtain ⟨e, he⟩ := Option.ne_none_iff_exists'.mp hcur
  cases ht : translate s.mem (s.cpus c).cr3 va with
  | none =>
    simp only [ht] at h
    cases h
  | some pte =>
    simp only [ht] at h
    split_ifs at h with hperm
    cases h
    have hstore : storeByte s.mem (s.cpus c).cr3 va b = .ok (s.mem.storeAt pte va b) := by
      rw [JOS.storeByte, ht]
      exact if_pos (Bool.and_eq_true_iff.mp hperm).1
    exact hg.stored hx.vm rfl rfl fun p hp => hx.vm.storeByte_phys (hload c e he) hva hstore hp

/-- A tame step. -/
theorem Good.step (hg : Good s) (hsound : SoundState s) (hok : Tame s ev)
    (hs : step s ev = some s') : Good s' := by
  obtain ⟨k, hx⟩ := hsound.sound
  have hreset : SameSpaces s s.reset := ⟨rfl, rfl⟩
  cases ev with
  | create c elf =>
    simp only [JOS.step] at hs
    cases hcreate : envCreate s.reset c elf with
    | error w =>
      rw [hcreate] at hs
      cases hs
    | ok s₁ =>
      rw [hcreate] at hs
      cases hs
      exact envCreate_good (hg.same hreset) (hreset.sound hx) hsound.freeHead
        (hok.image c elf rfl).1 hcreate
  | start c =>
    simp only [JOS.step] at hs
    split_ifs at hs
    exact hg.same (hreset.trans (schedYield_spaces (state?_eq_some.mp hs)))
  | trap c t =>
    simp only [JOS.step] at hs
    split_ifs at hs
    exact trap_good hg hx hsound.loaded (state?_eq_some.mp hs)
  | store c va b => exact userStore_good (s := s.reset) (hg.same hreset) hx hsound.loaded hs

/-- **All address spaces share the kernel's half** in every state of a run of tame events. -/
theorem good_of_reach (h₀ : Booted s₀) (h : Reach step Tame s₀ s) : Good s := by
  have hboth : SoundState s ∧ Good s := by
    apply h.invariant (I := fun s => SoundState s ∧ Good s) ⟨h₀.soundState, ?_⟩
    · intro s s' ev hI hok hs
      exact ⟨hI.1.step hok hs, hI.2.step hI.1 hok hs⟩
    · refine ⟨fun e d i hd => ?_, fun e d hd => ?_⟩ <;>
      · rw [KState.dirs, (h₀.envs e).2] at hd
        cases hd
  exact hboth.2

end JOS
