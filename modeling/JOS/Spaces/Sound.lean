import JOS.Spaces.Work
import JOS.Sched.Loaded
import JOS.Sched.Teardown

/-!
# Sound address spaces, in every state of a run

`Tame` is what the memory code needs of an event: that it leaves the environments of
other CPUs alone, that `page_lookup` is not called for an empty entry of a table that
exists, that the page to map has a reference left, and that a program to load lies below
`UTOP`. In a run of such events the address spaces are sound in every state
(`sound_of_reach`): a step does operations of `VmOp` that its event asks for
(`step_works`), and each of these keeps them sound.
-/

namespace JOS

open JOS.General

open Function (update)

variable {s₀ s s' s₁ s₂ : KState} {ev : Event} {k : ℕ → Kind} {ask : VmOp → Prop}
  {c cur d e e' p : ℕ} {a : SysArgs} {va va' r perm : Word}

/-! ### What an event asks for -/

/-- `sys_page_alloc` at `va` of `e`, past its checks. -/
def Allocs (s : KState) (ev : Event) (e : ℕ) (va perm : Word) : Prop :=
  ∃ c cur a s₁, SysCall s ev c cur a s₁ ∧ SysNo.ofWord a.no = some .pageAlloc ∧
    envid2env s₁ cur a.a1 true = some e ∧
    vaOk a.a2 = true ∧ permOk a.a3 = true ∧ va = a.a2 ∧ perm = a.a3

/-- `sys_page_unmap` at `va` of `e`, past its checks. -/
def Unmaps (s : KState) (ev : Event) (e : ℕ) (va : Word) : Prop :=
  ∃ c cur a s₁, SysCall s ev c cur a s₁ ∧ SysNo.ofWord a.no = some .pageUnmap ∧
    envid2env s₁ cur a.a1 true = some e ∧
    vaOk a.a2 = true ∧ va = a.a2

/-- `sys_page_map`, past the checks of its arguments. -/
def MapsPage (s : KState) (ev : Event) (e : ℕ) (va : Word) (e' : ℕ) (va' perm : Word) : Prop :=
  ∃ c cur a s₁, SysCall s ev c cur a s₁ ∧ SysNo.ofWord a.no = some .pageMap ∧
    pageMapArgs s₁ cur a.a1 a.a2 a.a3 a.a4 a.a5 = .ok (e, e') ∧ va = a.a2 ∧ va' = a.a4 ∧ perm = a.a5

/-- `sys_ipc_try_send` of the page at `va`, to a receiver that asks for it at `va'`. -/
def SendsPage (s : KState) (ev : Event) (e : ℕ) (va : Word) (e' : ℕ) (va' perm : Word) : Prop :=
  ∃ c a s₁, SysCall s ev c e a s₁ ∧ SysNo.ofWord a.no = some .ipcTrySend ∧
    ipcSendArgs s₁ e a.a1 = .ok e' ∧
    a.a3 < UTOP ∧ (s₁.envs e').envIpcDstva < UTOP ∧
    ipcPageOk (s.upte e (PGNUM a.a3)) a.a3 a.a4 = true ∧
    va = a.a3 ∧ va' = (s₁.envs e').envIpcDstva ∧ perm = a.a4

/-- A system call maps the page at `va` of `e` at `va'` of `e'`. -/
def Maps (s : KState) (ev : Event) (e : ℕ) (va : Word) (e' : ℕ) (va' perm : Word) : Prop :=
  MapsPage s ev e va e' va' perm ∨ SendsPage s ev e va e' va' perm

/-- A system call hands the address `va` of `e` to `page_lookup` or `page_remove`. -/
def LooksUp (s : KState) (ev : Event) (e : ℕ) (va : Word) : Prop :=
  (∃ e' va' perm, MapsPage s ev e va e' va' perm) ∨ Unmaps s ev e va ∨
    ∃ c a s₁ e', SysCall s ev c e a s₁ ∧ SysNo.ofWord a.no = some .ipcTrySend ∧
      ipcSendArgs s₁ e a.a1 = .ok e' ∧
      a.a3 < UTOP ∧ va = a.a3

/-- The operations that an event asks for. -/
def Asks (s : KState) (ev : Event) : VmOp → Prop
  | .create e => s.envFreeList = some e
  | .alloc e va perm => Allocs s ev e va perm ∨ s.envFreeList = some e ∧ ∃ c elf, ev = .create c elf
  | .share e va e' va' perm => Maps s ev e va e' va' perm
  | .unmap e va => Unmaps s ev e va
  | .keep => True
  | .destroy e => s.curenv ev.cpu = some e ∨ Destroys s ev ev.cpu e ∧ s.status e ≠ .running

/-- What the memory code needs of an event. -/
structure Tame (s : KState) (ev : Event) : Prop where
  /-- Environments of other CPUs are left alone. -/
  others : LeavesOthers NotFreeOrRunnable s ev
  /-- No empty entry is looked up. -/
  lookup : ∀ e va d, LooksUp s ev e va → s.dirs e = some d → ¬ EmptyEntry s.mem d va
  /-- There is a reference left for a page that is mapped once more. -/
  room : ∀ e va e' va' perm p, Maps s ev e va e' va' perm → Names (s.upte e (PGNUM va)) p →
    mapCount s.upte p < 65535 ∨ Names (s.upte e' (PGNUM va')) p
  /-- Programs are loaded by a CPU that runs none, below `UTOP`. -/
  image : ∀ c elf, ev = .create c elf → elf.BelowUTOP ∧ s.curenv c = none

/-! ### System calls -/

theorem SameSpaces.upte (h : SameSpaces s s') : s'.upte = s.upte := by
  funext e v
  rw [KState.upte, KState.upte, h.1, h.2]

theorem SameSpaces.sound (h : SameSpaces s s') (hx : (s.vmState k).Sound) :
    (s'.vmState k).Sound := by
  rw [h.vmState]
  exact hx

/-- `env_destroy` that comes back. -/
theorem envDestroy_does (hx : (s.vmState k).Sound) (h : envDestroy s c e = .ok s') :
    SameSpaces s s' ∨ s.status e ≠ .running ∧ ∃ k',
        Does (s.vmState k) (.destroy e) (s'.vmState k') := by
  obtain ⟨-, ⟨-, rfl⟩ | ⟨hr, hfree⟩⟩ := envDestroy_ok h
  · exact .inl ((sameSpaces_setStatus s e .dying).trans (sameSpaces_log _ _))
  · exact .inr ⟨hr, envFree_does hx hfree⟩

/-- `env_free` of the environment of the CPU, and then `sched_yield`. -/
theorem exits_does (hx : (s.vmState k).Sound) (hfree : envFree s c e = .ok s₁)
    (h : schedYield ((s₁.setCurenv c none).log (.clear c)) c = .gone s') :
    ∃ k', Does (s.vmState k) (.destroy e) (s'.vmState k') := by
  obtain ⟨k', hdoes⟩ := envFree_does hx hfree
  have hclear : SameSpaces s₁ ((s₁.setCurenv c none).log (.clear c)) :=
    sameSpaces_setCurenv s₁ c none
  exact ⟨k', (hdoes.same hclear).same (schedYield_spaces h)⟩

/-- `env_destroy` that does not come back. -/
theorem envDestroy_gone_does (hx : (s.vmState k).Sound) (h : envDestroy s c e = .error (.gone s')) :
    s.curenv c = some e ∧ ∃ k', Does (s.vmState k) (.destroy e) (s'.vmState k') := by
  obtain ⟨hc, s₁, hfree, h⟩ := envDestroy_gone h
  exact ⟨hc, exits_does hx hfree h⟩

section

variable (hlook : ∀ e va d, LooksUp s ev e va → s.dirs e = some d → ¬ EmptyEntry s.mem d va)
  (hcall : SysCall s ev c cur a s₁)
include hlook hcall

/-- What a call looks up in the state behind `trap`'s entry. -/
theorem SysCall.lookup_pageMap (hno : SysNo.ofWord a.no = some .pageMap)
    (hargs : pageMapArgs s₁ cur a.a1 a.a2 a.a3 a.a4 a.a5 = .ok (e, e')) (hd : s₁.dirs e = some d) :
    ¬ EmptyEntry s₁.mem d a.a2 := by
  rw [hcall.spaces.2] at hd
  rw [hcall.spaces.1]
  exact hlook e a.a2 d (.inl ⟨e', a.a4, a.a5, c, cur, a, s₁, hcall, hno, hargs, rfl, rfl, rfl⟩) hd

theorem SysCall.lookup_pageUnmap (hno : SysNo.ofWord a.no = some .pageUnmap)
    (henv : envid2env s₁ cur a.a1 true = some e) (hva : vaOk a.a2 = true)
    (hd : s₁.dirs e = some d) : ¬ EmptyEntry s₁.mem d a.a2 := by
  rw [hcall.spaces.2] at hd
  rw [hcall.spaces.1]
  exact hlook e a.a2 d (.inr (.inl ⟨c, cur, a, s₁, hcall, hno, henv, hva, rfl⟩)) hd

theorem SysCall.lookup_ipcTrySend (hno : SysNo.ofWord a.no = some .ipcTrySend)
    (hargs : ipcSendArgs s₁ cur a.a1 = .ok e') (hva : a.a3 < UTOP) (hd : s₁.dirs cur = some d) :
    ¬ EmptyEntry s₁.mem d a.a3 := by
  rw [hcall.spaces.2] at hd
  rw [hcall.spaces.1]
  exact hlook cur a.a3 d (.inr (.inr ⟨c, a, s₁, e', hcall, hno, hargs, hva, rfl⟩)) hd

end

/-- The environments that `env_alloc` takes next have no address space. -/
def FreeHead (s : KState) : Prop := ∀ e, s.envFreeList = some e → e < NENV ∧ s.dirs e = none

/-- **A system call that returns** does what its event asks for. -/
theorem SysReturns.does (hx : (s.vmState k).Sound) (hfree : FreeHead s) (hok : Tame s ev)
    (hcall : SysCall s ev c cur a s₁) (h : SysReturns s₁ c cur a r s₂) :
    ∃ op k', Does (s.vmState k) op (s₂.vmState k') ∧ Asks s ev op := by
  have hsame := hcall.spaces
  have hx₁ : (s₁.vmState k).Sound := hsame.sound hx
  have hst : ∀ e, s₁.status e = s.status e := by
    intro e
    obtain ⟨t, -, -, -, -, -, rfl⟩ := hcall
    exact congrFun (congrArg Procs.status (fresh_trapEntry t).1) e
  have hcpu : ev.cpu = c := by
    obtain ⟨t, rfl, -⟩ := hcall
    rfl
  have hfree₁ : ∀ e, s₁.envFreeList = some e → e < NENV ∧ s₁.dirs e = none := by
    intro e he
    rw [hsame.2]
    refine hfree e ?_
    obtain ⟨t, -, -, -, -, -, rfl⟩ := hcall
    exact he
  have hfl : s₁.envFreeList = s.envFreeList := by
    obtain ⟨t, -, -, -, -, -, rfl⟩ := hcall
    rfl
  rw [← hsame.vmState]
  have hkeep : (∃ k', Does (s₁.vmState k) .keep (s₂.vmState k')) → ∃ op k',
    Does (s₁.vmState k) op (s₂.vmState k') ∧ Asks s ev op :=
    fun ⟨k', hdoes⟩ => ⟨_, k', hdoes, trivial⟩
  have hspaces : SameSpaces s₁ s₂ → ∃ op k', Does (s₁.vmState k) op (s₂.vmState k') ∧
      Asks s ev op := fun hs =>
    ⟨.keep, k, (Does.refl hx₁).same hs, trivial⟩
  cases h with
  | same => exact hspaces (.refl _)
  | envDestroy hno henv h =>
    rcases envDestroy_does hx₁ h with hs | ⟨hne, k', hdoes⟩
    · exact hspaces hs
    · rw [hst] at hne
      have hdestroys : Destroys s ev ev.cpu _ := ⟨cur, a, s₁, by rw [hcpu]; exact hcall, hno, henv⟩
      exact ⟨_, k', hdoes, .inr ⟨hdestroys, hne⟩⟩
  | pageAlloc hno h =>
    rcases sysPageAlloc_does hx₁ h with hk | ⟨e, k', henv, hva, hperm, hdoes⟩
    · exact hkeep hk
    · exact ⟨_, k', hdoes, .inl ⟨c, cur, a, s₁, hcall, hno, henv, hva, hperm, rfl, rfl⟩⟩
  | pageMap hno h =>
    have hmaps : ∀ e e', pageMapArgs s₁ cur a.a1 a.a2 a.a3 a.a4 a.a5 = .ok (e, e') →
      MapsPage s ev e a.a2 e' a.a4 a.a5 :=
      fun e e' hargs => ⟨c, cur, a, s₁, hcall, hno, hargs, rfl, rfl, rfl⟩
    have hroom : ∀ e e' p, pageMapArgs s₁ cur a.a1 a.a2 a.a3 a.a4 a.a5 = .ok (e, e') →
        Names (s₁.upte e (PGNUM a.a2)) p →
        mapCount s₁.upte p < 65535 ∨ Names (s₁.upte e' (PGNUM a.a4)) p := by
      intro e e' p hargs hn
      rw [hsame.upte] at hn ⊢
      exact hok.room e a.a2 e' a.a4 a.a5 p (.inl (hmaps e e' hargs)) hn
    rcases sysPageMap_does hx₁ (fun _ _ _ => hcall.lookup_pageMap hok.lookup hno) hroom h with
      hk | ⟨e, e', k', hargs, hdoes⟩
    · exact hkeep hk
    · exact ⟨_, k', hdoes, .inl (hmaps e e' hargs)⟩
  | pageUnmap hno h =>
    have hunmaps : ∀ e, envid2env s₁ cur a.a1 true = some e → vaOk a.a2 = true →
        Unmaps s ev e a.a2 := fun e henv hva =>
      ⟨c, cur, a, s₁, hcall, hno, henv, hva, rfl⟩
    rcases sysPageUnmap_does hx₁ (fun _ _ => hcall.lookup_pageUnmap hok.lookup hno) h with
      hk | ⟨e, k', henv, hva, hdoes⟩
    · exact hkeep hk
    · exact ⟨_, k', hdoes, hunmaps e henv hva⟩
  | exofork hno h =>
    rcases sysExofork_does hx₁ hfree₁ h with hk | ⟨e, k', he, hdoes⟩
    · exact hkeep hk
    · rw [hfl] at he
      exact ⟨_, k', hdoes, he⟩
  | envSetStatus hno hst henv =>
      exact hspaces ((sameSpaces_setStatus _ _ _).trans (sameSpaces_log _ _))
  | envSetPgfaultUpcall hno henv => exact hspaces (sameSpaces_setEnv _ _ _ rfl)
  | ipcTrySend hno h =>
    have hsends : ∀ e', ipcSendArgs s₁ cur a.a1 = .ok e' → a.a3 < UTOP →
        (s₁.envs e').envIpcDstva < UTOP →
        ipcPageOk (s₁.upte cur (PGNUM a.a3)) a.a3 a.a4 = true →
        SendsPage s ev cur a.a3 e' (s₁.envs e').envIpcDstva a.a4 := fun e' hargs hva hdst hpage =>
      ⟨c, a, s₁, hcall, hno, hargs, hva, hdst, by rw [← hsame.upte]; exact hpage, rfl, rfl, rfl⟩
    have hroom : ∀ e' p, ipcSendArgs s₁ cur a.a1 = .ok e' → a.a3 < UTOP →
        (s₁.envs e').envIpcDstva < UTOP →
        ipcPageOk (s₁.upte cur (PGNUM a.a3)) a.a3 a.a4 = true → Names (s₁.upte cur (PGNUM a.a3)) p →
        mapCount s₁.upte p < 65535 ∨ Names (s₁.upte e' (PGNUM (s₁.envs e').envIpcDstva)) p := by
      intro e' p hargs hva hdst hpage hn
      have hmaps := hsends e' hargs hva hdst hpage
      rw [hsame.upte] at hn ⊢
      exact hok.room cur a.a3 e' _ a.a4 p (.inr hmaps) hn
    have hlook : ∀ e' d, ipcSendArgs s₁ cur a.a1 = .ok e' → a.a3 < UTOP → s₁.dirs cur = some d →
        ¬ EmptyEntry s₁.mem d a.a3 := fun _ _ => hcall.lookup_ipcTrySend hok.lookup hno
    rcases sysIpcTrySend_does hx₁ hlook hroom h with hk | ⟨e', k', hargs, hva, hdst, hpage, hdoes⟩
    · exact hkeep hk
    · exact ⟨_, k', hdoes, .inr (hsends e' hargs hva hdst hpage)⟩

/-- **A system call that does not return**, too. -/
theorem syscall_gone_does (hx : (s.vmState k).Sound) (hcall : SysCall s ev c cur a s₁)
    (h : syscall s₁ c cur a = .error (.gone s')) : ∃ op k', Does (s.vmState k) op (s'.vmState k') ∧
    Asks s ev op := by
  have hsame := hcall.spaces
  have hx₁ : (s₁.vmState k).Sound := hsame.sound hx
  have hspaces : SameSpaces s₁ s' → ∃ op k', Does (s₁.vmState k) op (s'.vmState k') ∧
      Asks s ev op := fun hs =>
    ⟨.keep, k, (Does.refl hx₁).same hs, trivial⟩
  -- the environment of the CPU is freed
  have hdestroy : ∀ e, s₁.curenv c = some e ∧
      (∃ k', Does (s₁.vmState k) (.destroy e) (s'.vmState k')) →
      ∃ op k', Does (s₁.vmState k) op (s'.vmState k') ∧ Asks s ev op := by
    rintro e ⟨hcur, k', hdoes⟩
    refine ⟨_, k', hdoes, .inl ?_⟩
    obtain ⟨t, rfl, hscur, -, -, -, rfl⟩ := hcall
    have hscur' : s.reset.curenv c = some cur := hscur
    rw [trapEntry_curenv hscur'] at hcur
    rw [← hcur]
    exact hscur
  rw [← hsame.vmState]
  rcases syscall_gone_cases h with ⟨-, h⟩ | ⟨-, -, h⟩ | ⟨e, -, -, h⟩ | ⟨-, h⟩
  · exact hspaces (schedYield_spaces h)
  · exact hspaces ((sameSpaces_blocked s₁ cur a.a1).trans (schedYield_spaces h))
  · exact hdestroy _ (envDestroy_gone_does hx₁ h)
  · exact hdestroy _ (envDestroy_gone_does hx₁ h)

/-! ### Traps -/

/-- The `struct UTrapframe` lies below `UXSTACKTOP`. -/
theorem utfAddr_le (esp : Word) : (utfAddr esp).toNat + 52 ≤ UTOP.toNat := by
  rw [utfAddr, UTOP_toNat]
  split_ifs with h
  · obtain ⟨hlo, hhi⟩ := h
    have hlo : 0xeebff000 ≤ esp.toNat := BitVec.le_def.mp hlo
    have hhi : esp.toNat ≤ 0xeebfffff := BitVec.le_def.mp hhi
    have hsub : (esp - utfSize - 4).toNat = esp.toNat - 56 := by
      have h₁ : utfSize = 52#32 := rfl
      rw [h₁]
      bv_omega
    omega
  · decide

/-- `page_fault_handler` writes the exception stack, or destroys the environment. -/
theorem pageFaultHandler_does {va : Word} (hx : (s.vmState k).Sound) (hcur : s.curenv c = some cur)
    (hload : s.dirs cur = some (s.cpus c).cr3) (hkeep : ask .keep) (hdestroy : ask (.destroy cur))
    (h : pageFaultHandler s c cur va = .error (.gone s')) : ∃ op k',
    Does (s.vmState k) op (s'.vmState k') ∧ ask op := by
  rcases pageFaultHandler_cases hcur h with h | ⟨-, -, m, hstore, h⟩
  · obtain ⟨-, k', hdoes⟩ := envDestroy_gone_does hx h
    exact ⟨_, k', hdoes, hdestroy⟩
  · have hst : Stored s.mem s.dirs k m :=
      hx.vm.storeWords hload (by rw [utfWords]; exact utfAddr_le _) hstore
    refine ⟨.keep, k, Does.same ?_ (envRun_spaces h), hkeep⟩
    exact hst.does.same (sameSpaces_setEnv _ cur _ rfl)

/-- The program that runs on a CPU is in the address space that the CPU has loaded. -/
def Loaded (s : KState) : Prop := ∀ c e, s.curenv c = some e → s.dirs e = some (s.cpus c).cr3

/-- The program that traps is in the address space that the CPU has loaded. -/
theorem Loaded.trapEntry {t : TrapIn} (h : Loaded s) (hcur : s.curenv c = some cur) :
    (trapEntry s c cur t).dirs cur = some ((trapEntry s c cur t).cpus c).cr3 := by
  rw [(trapEntry_spaces s c cur t).2]
  simpa [JOS.trapEntry, KState.setEnv, KState.setCpu] using h c cur hcur

/-- A trap from user mode does what it asks for. -/
theorem userTrap_does {t : TrapIn} (hx : (s.vmState k).Sound) (hload : Loaded s)
    (hfree : FreeHead s) (hok : Tame s (.trap c t))
    (hcur : s.curenv c = some cur) (hdying : s.status cur ≠ .dying)
    (h : UserTrapEnds (trapEntry s.reset c cur t) c cur t s') :
    ∃ op k', Does (s.vmState k) op (s'.vmState k') ∧ Asks s (.trap c t) op := by
  have hcur₁ : (trapEntry s.reset c cur t).curenv c = some cur :=
    @trapEntry_curenv s.reset c cur hcur t
  have hentry : SameSpaces s (trapEntry s.reset c cur t) := trapEntry_spaces s.reset c cur t
  have hx₁ := hentry.sound hx
  have hdestroy : Asks s (.trap c t) (.destroy cur) := .inl hcur
  have hspaces : SameSpaces s s' → ∃ op k', Does (s.vmState k) op (s'.vmState k') ∧
      Asks s (.trap c t) op := fun hs =>
    ⟨.keep, k, (Does.refl hx).same hs, trivial⟩
  cases h with
  | pageFault _ h =>
    rw [← hentry.vmState]
    exact pageFaultHandler_does hx₁ hcur₁ (@Loaded.trapEntry s.reset c cur t hload hcur)
      trivial hdestroy h
  | leaves hsys h => exact syscall_gone_does hx ⟨t, rfl, hcur, hdying, hsys, rfl, rfl⟩ h
  | returns hsys hcall _ h =>
    obtain ⟨op, k', hdoes, hask⟩ :=
      (syscall_returns hcur₁ hcall).does hx hfree hok ⟨t, rfl, hcur, hdying, hsys, rfl, rfl⟩
    exact ⟨op, k', hdoes.same ((sameSpaces_returned _ _ _).trans (trapReturn_spaces h)), hask⟩
  | spurious _ h => exact hspaces (hentry.trans (trapReturn_spaces h))
  | timer h => exact hspaces (hentry.trans (schedYield_spaces h))
  | destroys h =>
    obtain ⟨-, k', hdoes⟩ := envDestroy_gone_does hx₁ h
    rw [hentry.vmState] at hdoes
    exact ⟨_, k', hdoes, hdestroy⟩

/-- **A trap** does what it asks for. -/
theorem trap_does {t : TrapIn} (hx : (s.vmState k).Sound) (hload : Loaded s) (hfree : FreeHead s)
    (hok : Tame s (.trap c t))
    (h : trap s.reset c t = .gone s') : ∃ op k', Does (s.vmState k) op (s'.vmState k') ∧
    Asks s (.trap c t) op := by
  have hstarted : SameSpaces s (s.reset.setCpu c { s.reset.cpus c with cpuStatus := .started }) :=
    ⟨rfl, rfl⟩
  cases trapEnds h with
  | dying hcur _ hfreed h =>
    obtain ⟨k', hdoes⟩ := exits_does (hstarted.sound hx) hfreed h
    rw [hstarted.vmState] at hdoes
    exact ⟨_, k', hdoes, .inl hcur⟩
  | user hcur hdying h => exact userTrap_does hx hload hfree hok hcur hdying h
  | wakes _ h =>
    have hs : SameSpaces s s' := by
      rcases h with h | h
      · exact hstarted.trans (trapReturn_spaces h)
      · exact hstarted.trans (schedYield_spaces h)
    exact ⟨.keep, k, (Does.refl hx).same hs, trivial⟩

/-! ### Steps -/

/-- A store of the program that runs on a CPU. -/
theorem userStore_does {b : BitVec 8} (hx : (s.vmState k).Sound) (hload : Loaded s)
    (h : userStore s c va b = some s') :
    s'.dirs = s.dirs ∧ Does (s.vmState k) .keep (s'.vmState k) := by
  rw [userStore] at h
  split_ifs at h with hrun
  obtain ⟨hcur, hva⟩ := hrun
  obtain ⟨e, he⟩ := Option.ne_none_iff_exists'.mp hcur
  cases ht : translate s.mem (s.cpus c).cr3 va with
  | none =>
    simp only [ht] at h
    cases h
  | some pte =>
    simp only [ht] at h
    split_ifs at h
    cases h
    obtain ⟨hP, hentry⟩ := translate_eq (hload c e he) hva ht
    have hn : Names (JOS.upte s.mem.phys s.dirs e (PGNUM va)) (PGNUM pte) := by
      rw [hentry]
      exact ⟨hP, rfl⟩
    have hdata : k (PGNUM pte) = .data := hx.vm.tables.data_of_names hn
    exact ⟨rfl, (hx.vm.setWord hdata).does⟩

/-- `env_create`, which leaves `kern_pgdir` loaded. -/
theorem envCreate_works {elf : Elf} (hx : (s.vmState k).Sound) (hfree : FreeHead s)
    (helf : elf.BelowUTOP)
    (hcreate : ∀ e, s.envFreeList = some e → ask (.create e) ∧ ∀ va, elf.MapsAt va →
    ask (.alloc e va (PTE_W ||| PTE_U)))
    (hkeep : ask .keep)
    (h : envCreate s c elf = .ok s') :
    (∃ k', Works ask (s.vmState k) (s'.vmState k')) ∧ (s'.cpus c).cr3 = s'.mem.kernPgdir := by
  obtain ⟨⟨y, s₁⟩, halloc, h⟩ := bind_eq_ok.mp h
  rcases envAlloc_does hx hfree halloc with ⟨⟨w, rfl⟩, -⟩ | ⟨e, k₁, rfl, hfl, hdoes⟩
  · cases h
  obtain ⟨hask, halloc'⟩ := hcreate e hfl
  have hlog : SameSpaces s₁ (s₁.log (.alloc e .runnable)) := sameSpaces_log _ _
  have hwork : Works ask (s.vmState k) ((s₁.log (.alloc e .runnable)).vmState k₁) :=
    .single (hdoes.same hlog) hask
  have hd : ∃ d, s₁.dirs e = some d := by
    have hdirs : ∃ p, s₁.dirs = update s.dirs e (some p) := by
      generalize hs₁ : s₁.vmState k₁ = x' at hdoes
      cases hdoes with
      | create =>
        exact ⟨_, congrArg VmState.dirs hs₁⟩
    obtain ⟨p, hdirs⟩ := hdirs
    exact ⟨p, by rw [hdirs, Function.update_self]⟩
  obtain ⟨d, hd⟩ := hd
  obtain ⟨⟨k', hrest⟩, hcr3⟩ := loadIcode_works (hwork.sound hx) hd helf halloc' hkeep h
  exact ⟨⟨k', hwork.trans hrest⟩, hcr3⟩

/-- A step that loads no program does at most one thing. -/
theorem step_does (hx : (s.vmState k).Sound) (hload : Loaded s) (hfree : FreeHead s)
    (hok : Tame s ev)
    (hcreate : ∀ c elf, ev ≠ .create c elf) (hs : step s ev = some s') :
    ∃ op k', Does (s.vmState k) op (s'.vmState k') ∧ Asks s ev op := by
  have hreset : SameSpaces s s.reset := ⟨rfl, rfl⟩
  cases ev with
  | create c elf => exact absurd rfl (hcreate c elf)
  | start c =>
    simp only [step] at hs
    split_ifs at hs
    have hspaces := schedYield_spaces (state?_eq_some.mp hs)
    exact ⟨_, k, (Does.refl hx).same (hreset.trans hspaces), trivial⟩
  | trap c t =>
    simp only [step] at hs
    split_ifs at hs
    exact trap_does hx hload hfree hok (state?_eq_some.mp hs)
  | store c va b =>
    obtain ⟨-, hdoes⟩ := userStore_does (s := s.reset) hx hload hs
    exact ⟨_, k, hdoes, trivial⟩

/-- **A step** does what its event asks for. -/
theorem step_works (hx : (s.vmState k).Sound) (hload : Loaded s) (hfree : FreeHead s)
    (hok : Tame s ev)
    (hs : step s ev = some s') : ∃ k', Works (Asks s ev) (s.vmState k) (s'.vmState k') := by
  by_cases hcreate : ∃ c elf, ev = .create c elf
  · obtain ⟨c, elf, rfl⟩ := hcreate
    simp only [step] at hs
    cases hcreate : envCreate s.reset c elf with
    | error w =>
      rw [hcreate] at hs
      cases hs
    | ok s₁ =>
      rw [hcreate] at hs
      cases hs
      exact (envCreate_works (s := s.reset) hx hfree (hok.image c elf rfl).1
        (fun e he => ⟨he, fun va _ => .inr ⟨he, c, elf, rfl⟩⟩) trivial hcreate).1
  · obtain ⟨op, k', hdoes, hask⟩ :=
      step_does hx hload hfree hok (fun c elf h => hcreate ⟨c, elf, h⟩) hs
    exact ⟨k', .single hdoes hask⟩

/-! ### In every state of a run -/

/-- The list of free environments stays in the table. -/
structure InTable (p : Procs) : Prop where
  head : ∀ e, p.freeList = some e → e < NENV
  link : ∀ e, e < NENV → ∀ e', p.link e = some e' → e' < NENV

theorem InTable.alloc {p : Procs} {st : EnvStatus} (h : InTable p) (he : p.freeList = some e) :
    InTable (p.act (.alloc e st)) :=
  ⟨h.link e (h.head e he), h.link⟩

theorem InTable.free {p : Procs} (h : InTable p) (he : e < NENV) : InTable (p.act (.free c e)) := by
  refine ⟨fun e' he' => ?_, fun e₁ he₁ e' he' => ?_⟩
  · cases he'
    exact he
  · simp only [Procs.act, Function.update_apply] at he'
    split_ifs at he'
    · exact h.head e' he'
    · exact h.link e₁ he₁ e' he'

theorem InTable.act {p : Procs} {a : Act} (h : InTable p)
    (hfree : ∀ c' e, a = .free c' e → e < NENV)
    (hg : Guard s ev c p a) : InTable (p.act a) := by
  cases a with
  | alloc e st =>
    obtain ⟨rfl, he⟩ := hg
    exact h.alloc he
  | free c' e => exact h.free (hfree c' e rfl)
  | _ => exact ⟨h.head, h.link⟩

theorem InTable.step (h : InTable s.procs) (hx : (s.vmState k).Sound) (hs : step s ev = some s') :
    InTable s'.procs := by
  refine (step_logged hs).1.invariant h fun q a _ hq hg => hq.act ?_ hg
  rintro c' e rfl
  obtain ⟨-, rfl, he, -⟩ := hg
  obtain ⟨d, hd⟩ := Option.isSome_iff_exists.mp he
  exact hx.vm.tables.bound e (by rw [show (s.vmState k).dirs e = some d from hd]; simp)

theorem Booted.inTable (h : Booted s₀) : InTable s₀.procs := by
  obtain ⟨l, hchain, hl⟩ := h.envList
  refine ⟨fun e he => ?_, fun e he e' he' => ?_⟩
  · have he : s₀.envFreeList = some e := he
    rw [he] at hchain
    obtain ⟨tail, rfl, -⟩ := hchain.of_some
    exact (hl e).mp List.mem_cons_self
  · exact (hl e').mp (hchain.next_mem ((hl e).mpr he) he')

/-- What holds in every state of a tame run. -/
structure SoundState (s : KState) : Prop where
  sound : ∃ k, (s.vmState k).Sound
  loaded : Loaded s
  alone : OneCpu NotFreeOrRunnable none s.procs
  free : FreeOk s.procs
  live : LiveOk s.procs
  table : InTable s.procs

theorem SoundState.freeHead (h : SoundState s) : FreeHead s := by
  intro e he
  refine ⟨h.table.head e he, ?_⟩
  have hlive := h.free.head (e := e) he
  have hlive : (s.dirs e).isSome = false := hlive
  exact Option.not_isSome_iff_eq_none.mp (by rw [hlive]; simp)

/-- An environment that runs on another CPU keeps its directory. -/
theorem Works.dirs_elsewhere {x : VmState} (h : Works (Asks s ev) (s.vmState k) x) (hok : Tame s ev)
    (halone : OneCpu NotFreeOrRunnable none s.procs) (hcur : s.curenv c = some e) (hc : c ≠ ev.cpu)
    (hd : s.dirs e = some d) :
    x.dirs e = some d := by
  refine h.invariant (I := fun x => x.dirs e = some d) hd fun x op x' hxd hask hdoes => ?_
  rw [hdoes.dirs_of_ne, hxd]
  cases hdoes with
  | create hnone =>
    rintro ⟨rfl⟩
    rw [hxd] at hnone
    cases hnone
  | destroy hd' =>
    rintro ⟨rfl⟩
    rcases hask with hcur' | ⟨hdestroys, hne⟩
    · exact hc (halone.inj _ _ _ hcur hcur')
    · exact hne (hok.others.2.2 _ _ hdestroys ⟨c, hc, hcur⟩)
  | _ => simp [VmOp.dirOf]

theorem Loaded.step (h : Loaded s) (hx : (s.vmState k).Sound) (hfree : FreeHead s) (hok : Tame s ev)
    (halone : OneCpu NotFreeOrRunnable none s.procs) (hs : JOS.step s ev = some s') :
    Loaded s' := by
  obtain ⟨honly, hlands⟩ := step_lands hs
  obtain ⟨k', hwork⟩ := step_works hx h hfree hok hs
  intro c e hcur'
  by_cases hc : c = ev.cpu
  · subst hc
    cases ev with
    | start c => exact (hlands c rfl).cr3 e hcur'
    | trap c t => exact (hlands c rfl).cr3 e hcur'
    | create c elf =>
      -- the CPU runs no program while it loads one
      have hnone := (hok.image c elf rfl).2
      have hlog := (step_logged hs).1
      simp only [JOS.step] at hs
      cases hcreate : envCreate s.reset c elf with
      | error w =>
        rw [hcreate] at hs
        cases hs
      | ok s₁ =>
        rw [hcreate] at hs
        cases hs
        obtain ⟨e', -, hacts⟩ := envCreate_acts hcreate
        have hsame : s'.curenv = s.curenv := congrArg Procs.curenv hacts.1
        rw [hsame, show (Event.create c elf).cpu = c from rfl, hnone] at hcur'
        cases hcur'
    | store c va b =>
      have hst : s'.dirs = s.dirs ∧ s'.cpus = s.cpus := by
        refine ⟨(userStore_does (s := s.reset) hx h hs).1, ?_⟩
        simp only [JOS.step, userStore] at hs
        split_ifs at hs
        split at hs
        · split_ifs at hs
          cases hs
          rfl
        · cases hs
      have hcur : s.curenv c = some e := by
        rw [KState.curenv, hst.2] at hcur'
        exact hcur'
      rw [hst.1, hst.2]
      exact h c e hcur
  · have hcpu := honly c hc
    have hcur : s.curenv c = some e := by
      rw [KState.curenv, ← hcpu]
      exact hcur'
    rw [hcpu]
    exact hwork.dirs_elsewhere hok halone hcur hc (h c e hcur)

/-- A tame step keeps the invariant. -/
theorem SoundState.step (h : SoundState s) (hok : Tame s ev) (hs : step s ev = some s') :
    SoundState s' := by
  obtain ⟨k, hx⟩ := h.sound
  obtain ⟨k', hwork⟩ := step_works hx h.loaded h.freeHead hok hs
  refine ⟨⟨k', hwork.sound hx⟩, h.loaded.step hx h.freeHead hok h.alone hs,
    h.alone.step occupied_notFreeOrRunnable h.free hok.others hs, h.free.step hs,
    h.live.step h.alone hs, h.table.step hx hs⟩

theorem Booted.soundState (h : Booted s₀) : SoundState s₀ := by
  have hdirs : s₀.dirs = fun _ => none := funext fun e => (h.envs e).2
  refine ⟨⟨bootKind s₀.mem, ?_⟩, fun c e hc => ?_, h.oneCpu, h.freeOk, h.liveOk, h.inTable⟩
  · rw [KState.vmState, hdirs]
    exact h.mem.sound
  · rw [h.cpus c] at hc
    cases hc

/-- **The address spaces are sound** in every state of a run of tame events. -/
theorem sound_of_reach (h₀ : Booted s₀) (h : Reach step Tame s₀ s) : SoundState s :=
  h.invariant h₀.soundState fun _ _ _ ht hok hs => ht.step hok hs

/-! ### A check for runs without sharing -/

/-- Whether an event maps, unmaps, sends and destroys nothing and sets no status, and loads a
program as it should. -/
def tameCheck (s : KState) : Event → Bool
  | .create c elf => decide elf.BelowUTOP && s.curenv c == none
  | .trap _ t => t.tf.tfTrapno != T_SYSCALL ||
      [none, some .cputs, some .cgetc, some .getenvid, some .pageAlloc, some .exofork,
        some .envSetPgfaultUpcall, some .yield,
        some SysNo.ipcRecv].contains (SysNo.ofWord t.args.no)
  | _ => true

theorem tame_of_check (h : tameCheck s ev = true) : Tame s ev := by
  have hno : ∀ {c cur a s₁ n}, SysCall s ev c cur a s₁ → SysNo.ofWord a.no = some n →
      n ≠ .envDestroy ∧ n ≠ .pageMap ∧ n ≠ .pageUnmap ∧ n ≠ .envSetStatus ∧ n ≠ .ipcTrySend := by
    rintro c cur a s₁ n ⟨t, rfl, -, -, hsys, rfl, -⟩ hn
    simp only [tameCheck, hsys, hn, bne_self_eq_false, Bool.false_or] at h
    cases n <;> simp_all
  exact {
    others := by
      refine ⟨?_, ?_, ?_⟩
      · rintro c e st ⟨cur, a, s₁, hcall, hn, -⟩ -
        exact ((hno hcall hn).2.2.2.1 rfl).elim
      · rintro c e ⟨cur, a, s₁, hcall, hn, -⟩ -
        exact (hno hcall hn).2.2.2.2 rfl
      · rintro c e ⟨cur, a, s₁, hcall, hn, -⟩ -
        exact ((hno hcall hn).1 rfl).elim
    lookup := by
      rintro e va d (⟨e', va', perm, c, cur, a, s₁, hcall, hn, -⟩ | ⟨c, cur, a, s₁, hcall, hn, -⟩ |
        ⟨c, a, s₁, e', hcall, hn, -⟩) -
      · exact ((hno hcall hn).2.1 rfl).elim
      · exact ((hno hcall hn).2.2.1 rfl).elim
      · exact ((hno hcall hn).2.2.2.2 rfl).elim
    room := by
      rintro e va e' va' perm p (⟨c, cur, a, s₁, hcall, hn, -⟩ | ⟨c, a, s₁, hcall, hn, -⟩) -
      · exact ((hno hcall hn).2.1 rfl).elim
      · exact ((hno hcall hn).2.2.2.2 rfl).elim
    image := by
      rintro c elf rfl
      simpa only [tameCheck, Bool.and_eq_true, decide_eq_true_eq, beq_iff_eq] using h }

end JOS
