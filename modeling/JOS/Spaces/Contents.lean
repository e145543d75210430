import JOS.Spaces.FaultFrame
import JOS.Spaces.Isolation

/-!
# Who writes the pages of user programs

An entry into the kernel leaves the contents of user pages as they are, with one exception: a page
fault that the kernel lets its program handle, of which the frame is written to the exception stack
(`trap_phys`, `pageFault_phys`). So what a user page holds is what programs have stored there, and
frames (`step_writes_user`).
-/

namespace JOS

open JOS.General

variable {s s' s₁ : KState} {ev : Event} {k : ℕ → Kind} {T : ℕ → Prop} {l : List ℕ} {m : Mem}
  {c cur d e o q v : ℕ} {va : Word}
  {b : BitVec 8} {t : TrapIn}

/-! ### The kernel's functions -/

/-- Pages of user data are neither free nor tables. -/
theorem Affects.phys_data (h : Affects T l s s') (hl : Apart s l) (hx : Vm s.mem s.dirs k)
    (hq : k q = .data) :
    s'.mem.phys q = s.mem.phys q := by
  funext x
  rcases h.words q x with hw | hql | ⟨e, d, -, hd, ⟨rfl, -⟩ | ⟨i, hi, hn⟩⟩
  · exact hw
  · obtain ⟨l', hl', hfree⟩ := hx.pool.free
    have hk := (hfree q).mp (hl.list.chain.unique hl' ▸ hql)
    rw [hq] at hk
    cases hk
  · have hk := (hx.tables.dir e q).mp hd
    rw [hq] at hk
    cases hk
  · have hk := hx.tables.pde e d i hd hi hn.1
    rw [hn.2, hq] at hk
    cases hk

theorem Vm.phys_data (hx : Vm s.mem s.dirs k) (haff : ∀ l, Apart s l → Affects T l s s')
    (hq : k q = .data) :
    s'.mem.phys q = s.mem.phys q := by
  obtain ⟨l, hl⟩ := hx.apart
  exact (haff l hl).phys_data hl hx hq

theorem exits_phys (hx : (s.vmState k).Sound) (hfree : envFree s c e = .ok s₁)
    (h : schedYield ((s₁.setCurenv c none).log (.clear c)) c = .gone s') (hq : k q = .data) :
    s'.mem.phys q = s.mem.phys q := by
  have hclear : SameSpaces s₁ ((s₁.setCurenv c none).log (.clear c)) :=
    sameSpaces_setCurenv s₁ c none
  rw [(hclear.trans (schedYield_spaces h)).1]
  exact hx.vm.phys_data (fun l _ => envFree_affects hfree) hq

/-- **A trap** that is no page fault of a program. -/
theorem trap_phys (hx : (s.vmState k).Sound)
    (hno : ∀ cur, s.curenv c = some cur → t.tf.tfTrapno ≠ T_PGFLT)
    (h : trap s.reset c t = .gone s') (hq : k q = .data) : s'.mem.phys q = s.mem.phys q := by
  have hstarted : SameSpaces s (s.reset.setCpu c { s.reset.cpus c with cpuStatus := .started }) :=
    ⟨rfl, rfl⟩
  cases trapEnds h with
  | dying _ _ hfreed h =>
    have hphys := exits_phys (hstarted.sound hx) hfreed h hq
    rwa [hstarted.1] at hphys
  | @user cur hcur _ h =>
    have hentry : SameSpaces s (trapEntry s.reset c cur t) := trapEntry_spaces s.reset c cur t
    have hx₁ := hentry.sound hx
    rw [← hentry.1]
    cases h with
    | pageFault hpf _ => exact absurd hpf (hno cur hcur)
    | leaves _ h => exact hx₁.vm.phys_data (fun l _ => syscall_gone_affects h) hq
    | returns _ hcall _ h =>
      rw [((sameSpaces_returned _ _ _).trans (trapReturn_spaces h)).1]
      exact hx₁.vm.phys_data (fun l hl => syscall_affects hl hcall) hq
    | spurious _ h => rw [(trapReturn_spaces h).1]
    | timer h => rw [(schedYield_spaces h).1]
    | destroys h => exact hx₁.vm.phys_data (fun l _ => envDestroy_affects (.inr h)) hq
  | wakes _ h =>
    rcases h with h | h
    · rw [(hstarted.trans (trapReturn_spaces h)).1]
    · rw [(hstarted.trans (schedYield_spaces h)).1]

/-! ### Fault frames -/

/-- Bytes that have been stored could be stored. -/
theorem storeBytes_writes {P : ℕ → Prop} {f : ℕ → BitVec 8} {n : ℕ} {m' : Mem} (h : DataPages m d P)
    (hva : va.toNat + n ≤ UTOP.toNat) (hr : storeBytes d va f n m = .ok m') :
    (∀ i < n, Writable m d (va + BitVec.ofNat 32 i)) ∧ Copied m d P va f n m' := by
  have hU : UTOP.toNat < 2 ^ 32 := UTOP.isLt
  induction n generalizing m' with
  | zero =>
    cases hr
    exact ⟨fun i hi => absurd hi (Nat.not_lt_zero i), .zero m d P va f⟩
  | succ n ih =>
    rw [storeBytes, foldlM_range_succ] at hr
    obtain ⟨m₁, hm₁, hr⟩ := bind_eq_ok.mp hr
    obtain ⟨hw, hc⟩ := ih (by omega) hm₁
    have hlt : va + BitVec.ofNat 32 n < UTOP := by
      rw [BitVec.lt_def, BitVec.toNat_add, BitVec.toNat_ofNat]
      omega
    have hlast : Writable m d (va + BitVec.ofNat 32 n) := by
      rw [storeByte, h.translate_congr hc.words hlt] at hr
      cases ht : translate m d (va + BitVec.ofNat 32 n) with
      | none =>
        rw [ht] at hr
        cases hr
      | some pte =>
        simp only [ht] at hr
        split_ifs at hr with hW
        exact ⟨pte, ht, hW⟩
    obtain ⟨m₂, hm₂, hc₂⟩ := hc.succ h hlt hlast
    cases hm₂.symm.trans hr
    refine ⟨fun i hi => ?_, hc₂⟩
    rcases Nat.lt_succ_iff_lt_or_eq.mp hi with hi | rfl
    · exact hw i hi
    · exact hlast

/-- A page fault of a program, which has written its frame and goes on. -/
structure FrameWritten (s : KState) (c cur : ℕ) (t : TrapIn) (s' : KState) : Prop where
  dirs : s'.dirs = s.dirs
  curenv : s'.curenv c = some cur
  kernPgdir : s'.mem.kernPgdir = s.mem.kernPgdir
  /-- The frame could be written, -/
  writable : ∀ i < 52, Writable s.mem (s.cpus c).cr3 (utfAddr t.tf.tfEsp + BitVec.ofNat 32 i)
  /-- and nothing else has been. -/
  others : ∀ p o, (∀ i < 52,
    ¬ Slot s.mem (s.cpus c).cr3 (utfAddr t.tf.tfEsp + BitVec.ofNat 32 i) p o) →
    s'.mem.byte p o = s.mem.byte p o

theorem FrameWritten.of_store (hx : Vm s.mem s.dirs k) (hd : s.dirs cur = some (s.cpus c).cr3)
    (hstore : storeWords s.mem (s.cpus c).cr3 (utfAddr t.tf.tfEsp) (utfWords t.cr2 t.tf) = .ok m)
    (hmem : s'.mem = m) (hdirs : s'.dirs = s.dirs) (hcur : s'.curenv c = some cur) :
    FrameWritten s c cur t s' := by
  subst hmem
  rw [storeWords_eq] at hstore
  obtain ⟨hw, hc⟩ := storeBytes_writes (hx.dataPages hd) (utfAddr_le t.tf.tfEsp) hstore
  refine ⟨hdirs, hcur, ?_, hw, hc.others⟩
  rw [hc.mem]

theorem atUpcall_dirs (s : KState) (cur : ℕ) (m : Mem) : (atUpcall s cur m).dirs = s.dirs := by
  rw [atUpcall]
  exact (sameSpaces_setEnv { s with mem := m } cur { s.envs cur with
    envTf := { (s.envs cur).envTf with
      tfEip := (s.envs cur).envPgfaultUpcall, tfEsp := utfAddr (s.envs cur).envTf.tfEsp } } rfl).2

/-- **A page fault of a program**: it is destroyed, or its frame is written. -/
theorem pageFault_ends (hx : (s.vmState k).Sound) (hload : Loaded s) (hcur : s.curenv c = some cur)
    (hno : t.tf.tfTrapno = T_PGFLT) (hs : step s (.trap c t) = some s') :
    (∃ k', Does (s.vmState k) (.destroy cur) (s'.vmState k')) ∧
      (∀ q, k q = .data → s'.mem.phys q = s.mem.phys q) ∨
      FrameWritten s c cur t s' := by
  simp only [step] at hs
  split_ifs at hs with hfits
  have htrap := state?_eq_some.mp hs
  cases trapEnds htrap with
  | dying hcur' _ hfreed hyield =>
    have hstarted : SameSpaces s (s.reset.setCpu c { s.reset.cpus c with cpuStatus := .started }) :=
      ⟨rfl, rfl⟩
    cases hcur.symm.trans hcur'
    obtain ⟨k', hdoes⟩ := exits_does (hstarted.sound hx) hfreed hyield
    rw [hstarted.vmState] at hdoes
    refine .inl ⟨⟨k', hdoes⟩, fun q hq => ?_⟩
    have hphys := exits_phys (hstarted.sound hx) hfreed hyield hq
    rwa [hstarted.1] at hphys
  | wakes hk _ => exact absurd (trapFits_user hcur hfits) hk
  | user hcur' hst h =>
    cases hcur.symm.trans hcur'
    have hentry : SameSpaces s (trapEntry s.reset c cur t) := trapEntry_spaces s.reset c cur t
    have hx₁ := hentry.sound hx
    have hcur₁ : (trapEntry s.reset c cur t).curenv c = some cur :=
      @trapEntry_curenv s.reset c cur hcur t
    rw [trap_user hcur hst hfits, trapDispatch, if_pos hno] at htrap
    rcases leaveWith_gone htrap with hgone | ⟨s₁, hok, -⟩
    · rcases pageFaultHandler_cases hcur₁ hgone with h | ⟨-, -, m, hstore, h⟩
      · obtain ⟨-, k', hdoes⟩ := envDestroy_gone_does hx₁ h
        rw [hentry.vmState] at hdoes
        refine .inl ⟨⟨k', hdoes⟩, fun q hq => ?_⟩
        rw [← hentry.1]
        exact hx₁.vm.phys_data (fun l _ => envDestroy_affects (.inr h)) hq
      · refine .inr ?_
        have henv : ((trapEntry s.reset c cur t).envs cur).envTf = t.tf :=
          congrArg Env.envTf (trapEntry_envs s.reset c cur t)
        have hcr3 : ((trapEntry s.reset c cur t).cpus c).cr3 = (s.cpus c).cr3 := by
          simp [trapEntry, KState.setEnv, KState.setCpu, KState.reset]
        rw [henv, hentry.1, hcr3] at hstore
        have hspaces := envRun_spaces h
        have hcurenv : s'.curenv c = some cur := by
          rw [← procs_curenv, (envRun_acts h).1.1]
          exact Function.update_self _ _ _
        exact .of_store hx.vm (hload c cur hcur) hstore hspaces.1
          (hspaces.2.trans ((atUpcall_dirs _ cur m).trans hentry.2)) hcurenv
    · exact absurd hok pageFaultHandler_ne_ok

/-! ### Programs that are loaded -/

/-- `env_create` writes pages that it obtains. -/
theorem envCreate_phys {elf : Elf} (hx : (s.vmState k).Sound) (hfree : FreeHead s)
    (helf : elf.BelowUTOP)
    (h : envCreate s c elf = .ok s') (hn : Names (s.upte e v) q) :
    s'.mem.phys q = s.mem.phys q := by
  obtain ⟨⟨y, s₁⟩, halloc, h⟩ := bind_eq_ok.mp h
  have hphys₁ : s₁.mem.phys q = s.mem.phys q :=
    hx.vm.phys_data (fun l hl => envAlloc_affects (T := fun _ => True) hl halloc)
      (hx.vm.tables.data_of_names hn)
  rcases envAlloc_does hx hfree halloc with ⟨⟨w, rfl⟩, -⟩ | ⟨e₁, k₁, rfl, -, hdoes⟩
  · cases h
  obtain ⟨d, hd, hzero⟩ := envAlloc_empty hx.vm halloc
  have hx₁ := hdoes.sound hx
  -- a new address space has no entries
  have hentries : (s₁.vmState k₁).upte = s.upte := by
    generalize s₁.vmState k₁ = x' at hdoes
    cases hdoes with
    | create _ _ hupte _ => exact hupte
  have hdata : k₁ q = .data := by
    refine hx₁.vm.tables.data_of_names (e := e) (v := v) ?_
    have hn₁ : Names ((s₁.vmState k₁).upte e v) q := by rwa [hentries]
    exact hn₁
  rw [← hphys₁]
  exact hx₁.vm.phys_data (s := s₁.log (.alloc e₁ .runnable))
      (fun l hl => loadIcode_affects hl hd (fun i hi => by
    have hz : (s₁.log (.alloc e₁ .runnable)).mem.phys d i = 0 := hzero i hi
    rw [hz]
    exact fun hP => not_names_zero 0 ⟨hP, by decide⟩) helf h) hdata

/-! ### Steps -/

/-- Byte `o` of page `q` is at an address that the environment of CPU `c` can write. -/
def WritesAt (s : KState) (c : ℕ) (va : Word) (q o : ℕ) : Prop :=
  ∃ cur, s.curenv c = some cur ∧ va < UTOP ∧ WritesPage s cur (PGNUM va) q ∧ o = va.toNat % 4096

/-- The event writes the address `va`: a program stores there, or it is in the frame of a page
fault. -/
def Event.Stores (ev : Event) (va : Word) : Prop :=
  (∃ c b, ev = .store c va b) ∨
    ∃ c t i, ev = .trap c t ∧ t.tf.tfTrapno = T_PGFLT ∧ i < 52 ∧
    va = utfAddr t.tf.tfEsp + BitVec.ofNat 32 i

theorem writesAt_of_slot (hload : Loaded s) {cur : ℕ} (hcur : s.curenv c = some cur)
    (hva : va < UTOP)
    (hs : Slot s.mem (s.cpus c).cr3 va q o) (hw : Writable s.mem (s.cpus c).cr3 va) :
    WritesAt s c va q o := by
  obtain ⟨pte, ht, rfl, rfl⟩ := hs
  obtain ⟨pte', ht', hW⟩ := hw
  cases ht.symm.trans ht'
  obtain ⟨hP, hentry⟩ := translate_eq (hload c cur hcur) hva ht
  have hentry : s.upte cur (PGNUM va) = pte := hentry
  refine ⟨cur, hcur, hva, ⟨?_, ?_⟩, rfl⟩ <;> rw [hentry]
  · exact ⟨hP, rfl⟩
  · exact hW

/-- **What changes a byte of a user page** is an event that writes it, at an address that the
environment of its CPU can write. -/
theorem step_writes_user (hsound : SoundState s) (hok : Tame s ev) (hs : step s ev = some s')
    (hn : Names (s.upte e v) q)
    (hne : s'.mem.byte q o ≠ s.mem.byte q o) : ∃ va, ev.Stores va ∧ WritesAt s ev.cpu va q o := by
  obtain ⟨k, hx⟩ := hsound.sound
  have hdata : k q = .data := hx.vm.tables.data_of_names hn
  have hphys : s'.mem.phys q ≠ s.mem.phys q := fun h => hne (by rw [Mem.byte, Mem.byte, h])
  cases ev with
  | create c elf =>
    simp only [step] at hs
    cases hcreate : envCreate s.reset c elf with
    | error w =>
      rw [hcreate] at hs
      cases hs
    | ok s₁ =>
      rw [hcreate] at hs
      cases hs
      exact absurd (envCreate_phys (s := s.reset) hx hsound.freeHead
        (hok.image c elf rfl).1 hcreate hn) hphys
  | start c =>
    simp only [step] at hs
    split_ifs at hs
    have hspaces := schedYield_spaces (state?_eq_some.mp hs)
    exact absurd (congrFun (congrArg Mem.phys hspaces.1) q) hphys
  | trap c t =>
    by_cases hpf : ∃ cur, s.curenv c = some cur ∧ t.tf.tfTrapno = T_PGFLT
    · obtain ⟨cur, hcur, hno⟩ := hpf
      rcases pageFault_ends hx hsound.loaded hcur hno hs with ⟨-, hkept⟩ | hframe
      · exact absurd (hkept q hdata) hphys
      · have hslot : ∃ i < 52, Slot s.mem (s.cpus c).cr3
            (utfAddr t.tf.tfEsp + BitVec.ofNat 32 i) q o := by
          by_contra hnone
          exact hne (hframe.others q o fun i hi hsl => hnone ⟨i, hi, hsl⟩)
        obtain ⟨i, hi, hslot⟩ := hslot
        refine ⟨_, .inr ⟨c, t, i, rfl, hno, hi, rfl⟩,
          writesAt_of_slot hsound.loaded hcur ?_ hslot (hframe.writable i hi)⟩
        have hle := utfAddr_le t.tf.tfEsp
        have hU : UTOP.toNat < 2 ^ 32 := UTOP.isLt
        rw [BitVec.lt_def, BitVec.toNat_add, BitVec.toNat_ofNat]
        omega
    · simp only [step] at hs
      split_ifs at hs
      exact absurd (trap_phys hx (fun cur hcur hno => hpf ⟨cur, hcur, hno⟩)
        (state?_eq_some.mp hs) hdata) hphys
  | store c va b =>
    simp only [step, userStore] at hs
    split_ifs at hs with hrun
    obtain ⟨hcur, hva⟩ := hrun
    obtain ⟨cur, hcur⟩ := Option.ne_none_iff_exists'.mp hcur
    cases ht : translate s.reset.mem (s.reset.cpus c).cr3 va with
    | none =>
      simp only [ht] at hs
      cases hs
    | some pte =>
      simp only [ht] at hs
      split_ifs at hs with hperm
      cases hs
      have hslot : q = PGNUM pte ∧ o = va.toNat % 4096 := by
        by_contra hno
        refine hne ?_
        rw [byte_storeAt, if_neg hno]
        rfl
      refine ⟨va, .inl ⟨c, b, rfl⟩, writesAt_of_slot hsound.loaded hcur hva ⟨pte, ht, hslot⟩
        ⟨pte, ht, ?_⟩⟩
      exact (Bool.and_eq_true_iff.mp hperm).1

/-- **In every state of a run**, a byte of a user page changes only at an address that the
environment of the CPU can write: by a store of its program, or in the frame of its page fault. -/
theorem writes_user_of_reach {s₀ : KState} (h₀ : Booted s₀) (h : Reach step Tame s₀ s)
    (hok : Tame s ev) (hs : step s ev = some s')
    (hn : Names (s.upte e v) q) (hne : s'.mem.byte q o ≠ s.mem.byte q o) : ∃ va, ev.Stores va ∧
    WritesAt s ev.cpu va q o :=
  step_writes_user (sound_of_reach h₀ h) hok hs hn hne

/-- A store to the page that `userPageRun` gets. -/
theorem writes_user_page : ∃ s s' q, Reach step Tame (bootState 1) s ∧
    step s (.store 0 0x1002 7) = some s' ∧
    s'.mem.byte q 2 ≠ s.mem.byte q 2 ∧ ∃ va, (Event.store 0 0x1002 7).Stores va ∧
    WritesAt s 0 va q 2 := by
  have hrun : ((userPageRun.foldlM (fun t e => if tameCheck t e then step t e else none)
      (bootState 1)).bind fun s =>
      (step s (.store 0 0x1002 7)).map fun s' =>
        (test (s.upte 0 1) PTE_P, s.mem.byte (PGNUM (s.upte 0 1)) 2,
        s'.mem.byte (PGNUM (s.upte 0 1)) 2)) = some (true, 0, 7) := by decide +kernel
  obtain ⟨s, hs, hrun⟩ := Option.bind_eq_some_iff.mp hrun
  obtain ⟨s', hs', hbytes⟩ := Option.map_eq_some_iff.mp hrun
  simp only [Prod.mk.injEq] at hbytes
  obtain ⟨hP, h0, h7⟩ := hbytes
  have hreach : Reach step Tame (bootState 1) s := Reach.of_guarded hs fun _ _ => tame_of_check
  have hne : s'.mem.byte (PGNUM (s.upte 0 1)) 2 ≠ s.mem.byte (PGNUM (s.upte 0 1)) 2 := by
    rw [h0, h7]
    decide
  exact ⟨s, s', _, hreach, hs', hne, writes_user_of_reach (bootState_booted 1) hreach
    (tame_of_check rfl) hs' ⟨hP, rfl⟩ hne⟩

end JOS
