import JOS.Spaces.Total
import JOS.Spaces.Upper
import JOS.Memory.Cputs
import JOS.Spaces.Checked

/-!
# User programs do not panic the kernel

On one CPU no system call comes to a panic, to a failing assertion or to a pointer that
was never set, in any run whose calls are careful (`noPanic_of_reach`): they look up no
empty entry, `sys_page_map` finds a table at its source address, no page is mapped more
than 65535 times, and `sys_cputs` is given a string that can be read to its end. A call
of `sys_page_map` at an address that has no table is all it takes otherwise
(`sysPageMap_panics`).
-/

namespace JOS

open JOS.General

variable {s₀ s s' s₁ : KState} {ev : Event} {c cur e d : ℕ} {a : SysArgs} {t : TrapIn} {w : Stop}
  {k : ℕ → Kind}

/-! ### What `sys_cputs` prints -/

section

variable {rd : Word → Option (BitVec 8)} {str len : Word}

/-- `cprintf("%.*s", len, str)` finds every character that it fetches: those up to a NUL, or up to
the one after the `len`-th. -/
def Printable (rd : Word → Option (BitVec 8)) (str len : Word) : Prop :=
  str = 0 ∨ ∀ i : ℕ, (isNeg len = true ∨ i ≤ len.toNat) →
    (∀ j < i, ∃ ch, rd (str + BitVec.ofNat 32 j) = some ch ∧ ch ≠ 0) →
    rd (str + BitVec.ofNat 32 i) ≠ none

/-- The precision stops the loop, or there is a next character. -/
theorem precisionAt_next {i : ℕ} (hi : isNeg len = true ∨ i ≤ len.toNat) :
    (!isNeg (precisionAt len i) && isNeg (precisionAt len i - 1)) = true ∨
      (isNeg len = true ∨ i + 1 ≤ len.toNat) ∧
        (if isNeg (precisionAt len i) then precisionAt len i else precisionAt len i - 1) =
          precisionAt len (i + 1) := by
  by_cases hneg : isNeg len = true
  · exact .inr ⟨.inl hneg, by simp [precisionAt, hneg]⟩
  have hle := hi.resolve_left hneg
  rcases Nat.lt_or_eq_of_le hle with hlt | rfl
  · exact .inr ⟨.inr hlt, (precisionAt_succ hlt).2⟩
  · have hzero : precisionAt len len.toNat = 0 := by simp [precisionAt, hneg]
    rw [hzero]
    exact .inl (by decide)

/-- `(null)` is printed without a fetch. -/
theorem strLoop_halt_null : ∀ (f i : ℕ) (precision width : Word) (x : Fmt), x.halt = none →
    (strLoop rd 0 false f i precision width x).2.halt = some w → w = .diverge := by
  intro f
  induction f with
  | zero =>
    intro i precision width x _ h
    exact (Option.some.inj h).symm
  | succ f ih =>
    intro i precision width x hx h
    simp only [strLoop, strByte, if_true] at h
    split_ifs at h
    · simp [hx] at h
    · simp [hx] at h
    all_goals
      refine ih _ _ _ _ ?_ h
      exact hx

/-- The loop of `%s`, from character `i` on. -/
theorem strLoop_halt (hstr : str ≠ 0) (hprint : Printable rd str len) :
    ∀ (f i : ℕ) (width : Word) (x : Fmt), x.halt = none →
    (isNeg len = true ∨ i ≤ len.toNat) →
    (∀ j < i, ∃ ch, rd (str + BitVec.ofNat 32 j) = some ch ∧ ch ≠ 0) →
    (strLoop rd str false f i (precisionAt len i) width x).2.halt = some w → w = .diverge := by
  intro f
  induction f with
  | zero =>
    intro i width x _ _ _ h
    exact (Option.some.inj h).symm
  | succ f ih =>
    intro i width x hx hi hbefore h
    rw [strLoop_succ hstr] at h
    have hread := hprint.resolve_left hstr i hi hbefore
    cases hch : rd (str + BitVec.ofNat 32 i) with
    | none => exact absurd hch hread
    | some ch =>
      simp only [hch] at h
      by_cases hnul : ch = 0
      · rw [if_pos hnul] at h
        simp [Fmt.fetch, hx] at h
      rw [if_neg hnul] at h
      rcases precisionAt_next hi with hstop | ⟨hi', hnext⟩
      · rw [if_pos hstop] at h
        simp [Fmt.fetch, hx] at h
      by_cases hstop : (!isNeg (precisionAt len i) && isNeg (precisionAt len i - 1)) = true
      · rw [if_pos hstop] at h
        simp [Fmt.fetch, hx] at h
      rw [if_neg hstop, hnext] at h
      refine ih (i + 1) _ _ ?_ hi' (fun j hj => ?_) h
      · exact hx
      rcases Nat.lt_succ_iff_lt_or_eq.mp hj with hj | rfl
      · exact hbefore j hj
      · exact ⟨ch, hch, hnul⟩

theorem vprintfmt_halt (hprint : Printable rd str len)
    (h : (vprintfmt rd (bytes "%.*s") [len, str]).halt = some w) :
    w = .diverge := by
  obtain ⟨cs, hcs⟩ := @fmtString_cputs rd str len
  rw [vprintfmt_precision, hcs] at h
  have h : (strLoop rd str false strFuel 0 len 0 ⟨4, [], [], [], none⟩).2.halt = some w := h
  by_cases hstr : str = 0
  · subst hstr
    exact strLoop_halt_null _ _ _ _ _ rfl h
  · have hzero : precisionAt len 0 = len := by simp [precisionAt]
    rw [← hzero] at h
    exact strLoop_halt hstr hprint _ _ _ _ rfl (.inr (Nat.zero_le _))
      (fun j hj => absurd hj (Nat.not_lt_zero j)) h

end

/-! ### Careful events -/

/-- What keeps the system calls on CPU `c` from stopping the kernel. -/
structure Careful (c : ℕ) (s : KState) (ev : Event) : Prop where
  /-- Everything happens on the one CPU. -/
  cpu : ev.cpu = c
  /-- No empty entry is looked up. -/
  lookup : ∀ e va d, LooksUp s ev e va → s.dirs e = some d → ¬ EmptyEntry s.mem d va
  /-- There is a table where `sys_page_map` looks for the page. -/
  table : ∀ e va e' va' perm d, MapsPage s ev e va e' va' perm → s.dirs e = some d →
    test (s.mem.phys d (PDX va)) PTE_P = true
  /-- There is a reference left for a page that is mapped once more. -/
  room : ∀ e va e' va' perm p, Maps s ev e va e' va' perm → Names (s.upte e (PGNUM va)) p →
    mapCount s.upte p < 65535 ∨ Names (s.upte e' (PGNUM va')) p
  /-- A string that `sys_cputs` lets through can be read to its end. -/
  string : ∀ cur a s₁ d, SysCall s ev c cur a s₁ → SysNo.ofWord a.no = some .cputs →
    s.dirs cur = some d →
    (userMemCheck s.mem d a.a1 a.a2 PTE_U).map Prod.fst = .ok 0 →
    Printable (loadByte s.mem d) a.a1 a.a2
  /-- Programs are loaded by a CPU that runs none, below `UTOP`. -/
  image : ∀ c elf, ev = .create c elf → elf.BelowUTOP ∧ s.curenv c = none

theorem Careful.tame (h : Careful c s ev) (hsingle : Single c s.table) : Tame s ev :=
  ⟨hsingle.leavesOthers h.cpu, h.lookup, h.room, h.image⟩

/-- What holds in every state of a careful run. -/
theorem careful_of_reach (h₀ : Booted s₀) (h : Reach step (Careful c) s₀ s) :
    Single c s.table ∧ SoundState s ∧ Good s := by
  have hsingle := single_of_reach h₀ (h.mono fun _ _ hok => hok.cpu)
  have htame : Single c s.table ∧ Reach step Tame s₀ s := by
    refine h.invariant (I := fun s => Single c s.table ∧ Reach step Tame s₀ s)
      ⟨h₀.single, .refl s₀⟩ ?_
    rintro s s' ev ⟨hsingle, hreach⟩ hok hs
    exact ⟨hsingle.step hok.cpu hs, hreach.tail (hok.tame hsingle) hs⟩
  exact ⟨hsingle, sound_of_reach h₀ htame.2, good_of_reach h₀ htame.2⟩

/-! ### System calls -/

/-- **A careful system call that does not come back** leaves the kernel, or gives the machine to the
monitor. -/
theorem SysLeaves.careful (hx : (s.vmState k).Sound) (hload : Loaded s) (hlive : LiveOk s.procs)
    (hgood : Good s)
    (hok : Careful c s ev) (hcall : SysCall s ev c cur a s₁) (h : SysLeaves s₁ c cur a (.stop w)) :
    w = .monitor ∨ w = .diverge := by
  have hsame := hcall.spaces
  have hx₁ : (s₁.vmState k).Sound := hsame.sound hx
  obtain ⟨hcur, hlive₁, hcr3⟩ : s.curenv c = some cur ∧ LiveOk s₁.procs ∧
      (s₁.cpus c).cr3 = (s.cpus c).cr3 := by
    obtain ⟨t, -, hcur, -, -, -, rfl⟩ := hcall
    have hfresh : Fresh s (trapEntry s.reset c cur t) := fresh_trapEntry t
    refine ⟨hcur, by rw [hfresh.1]; exact hlive, ?_⟩
    simp [trapEntry, KState.setEnv, KState.setCpu, KState.reset]
  have hd : s.dirs cur = some (s.cpus c).cr3 := hload c cur hcur
  have hd₁ : s₁.dirs cur = some (s.cpus c).cr3 := by rw [hsame.2, hd]
  have henvs : ∀ e envid, envid2env s₁ cur envid true = some e → ∃ d, s₁.dirs e = some d :=
      fun e envid henv =>
    hlive₁.envid2env hd₁ henv
  have hcur₁ : s₁.curenv c = some cur := by
    obtain ⟨t, -, -, -, -, -, rfl⟩ := hcall
    exact trapEntry_curenv (s := s.reset) hcur t
  generalize hl : Leave.stop w = l at h
  cases h with
  | yield _ => exact .inl (schedYield_stop hlive₁ hl.symm).1
  | ipcRecv _ _ =>
    refine .inl (schedYield_stop (fun e he => ?_) hl.symm).1
    have hblock : SameSpaces s₁ (blocked s₁ cur a.a1) :=
      (sameSpaces_setEnv s₁ cur { s₁.envs cur with
        envIpcRecving := true, envStatus := .notRunnable, envIpcDstva := a.a1 } rfl).trans
          (sameSpaces_log _ _)
    have hdirs : ∃ d, s₁.dirs e = some d := by
      by_cases hee : e = cur
      · exact ⟨_, by rw [hee]; exact hd₁⟩
      · refine hlive₁.dirs fun hst => he ?_
        simpa [blocked, KState.setEnv, KState.log, KState.status,
          Function.update_of_ne hee] using hst
    obtain ⟨d, hde⟩ := hdirs
    rw [← hblock.2] at hde
    exact Option.isSome_iff_exists.mpr ⟨d, hde⟩
  | envDestroy _ henv h =>
    subst hl
    obtain ⟨d, hde⟩ := henvs _ _ henv
    exact .inl (envDestroy_stop hx₁ hlive₁ hde h)
  | fault _ h =>
    subst hl
    have htab : TablesInMemory s₁.mem (s.cpus c).cr3 := by
      rw [hsame.1]
      exact hgood.tablesInMemory hx.vm hd
    exact .inl (userMemAssert_stop hx₁ hlive₁ hd₁ htab h)
  | print hno hassert hhalt =>
    cases hl
    have hpgdir : (s₁.envs cur).envPgdir = some (s.cpus c).cr3 := hd₁
    have hcheck := ((userMemAssert_eq_ok hcur₁ hpgdir).mp hassert).2
    rw [hsame.1, show PTE_U ||| PTE_U = PTE_U by decide] at hcheck
    have hprint := hok.string cur a s₁ _ hcall hno hd hcheck
    rw [cputs, hsame.1, hcr3] at hhalt
    exact .inr (vprintfmt_halt hprint hhalt)
  | pageAlloc _ h =>
    obtain ⟨y, hy⟩ : ∃ y, sysPageAlloc s₁ cur a.a1 a.a2 a.a3 = .ok y :=
      sysPageAlloc_ok hx₁ fun e => henvs e a.a1
    rw [hy] at h
    cases h
  | pageMap hno h =>
    have hlook : ∀ e₁ e₂ d, pageMapArgs s₁ cur a.a1 a.a2 a.a3 a.a4 a.a5 = .ok (e₁, e₂) →
        s₁.dirs e₁ = some d →
        test (s₁.mem.phys d (PDX a.a2)) PTE_P = true ∧ ¬ EmptyEntry s₁.mem d a.a2 := by
      intro e₁ e₂ d hargs hd
      refine ⟨?_, hcall.lookup_pageMap hok.lookup hno hargs hd⟩
      have hmaps : MapsPage s ev e₁ a.a2 e₂ a.a4 a.a5 :=
        ⟨c, cur, a, s₁, hcall, hno, hargs, rfl, rfl, rfl⟩
      rw [hsame.2] at hd
      rw [hsame.1]
      exact hok.table e₁ a.a2 e₂ a.a4 a.a5 d hmaps hd
    obtain ⟨y, hy⟩ := sysPageMap_ok hx₁ henvs hlook
    rw [hy] at h
    cases h
  | pageUnmap hno h =>
    obtain ⟨y, hy⟩ := sysPageUnmap_ok hx₁ (fun e => henvs e a.a1) fun _ _ =>
      hcall.lookup_pageUnmap hok.lookup hno
    rw [hy] at h
    cases h
  | exofork _ h =>
    obtain ⟨y, hy⟩ : ∃ y, sysExofork s₁ cur = .ok y := sysExofork_ok hx₁
    rw [hy] at h
    cases h
  | ipcTrySend hno h =>
    have hlook : ∀ e, ipcSendArgs s₁ cur a.a1 = .ok e → a.a3 < UTOP →
        ¬ EmptyEntry s₁.mem (s.cpus c).cr3 a.a3 := fun e hargs hva =>
      hcall.lookup_ipcTrySend hok.lookup hno hargs hva hd₁
    obtain ⟨y, hy⟩ : ∃ y, sysIpcTrySend s₁ cur a.a1 a.a2 a.a3 a.a4 = .ok y :=
      sysIpcTrySend_ok hx₁ hlive₁ hd₁ hlook
    rw [hy] at h
    cases h

/-- `trap` comes to a panic, to a failing assertion, or to a pointer that was not set. -/
def Panics (s : KState) (c : ℕ) (t : TrapIn) : Prop := (trap s.reset c t = .stop .panic) ∨
    (trap s.reset c t = .stop .undef)

/-- **User programs do not panic the kernel**: on one CPU, whatever has been called before, a system
call does not come to a panic or to a pointer that was not set, when it and all calls before it are
careful. -/
theorem noPanic_of_reach (h₀ : Booted s₀) (h : Reach step (Careful c) s₀ s)
    (hfits : trapFits s c t = true)
    (hcall : SysCall s (.trap c t) c cur a s₁) (hok : Careful c s (.trap c t)) :
    ¬ Panics s c t := by
  obtain ⟨hsingle, hsound, hgood⟩ := careful_of_reach h₀ h
  obtain ⟨k, hx⟩ := hsound.sound
  have hstop : ∀ w, trap s.reset c t = .stop w → w = .monitor ∨ w = .diverge := by
    intro w hw
    rw [trap_sysCall hfits hcall] at hw
    have hfresh : Fresh s s₁ := by
      obtain ⟨t', -, -, -, -, -, rfl⟩ := hcall
      exact fresh_trapEntry t'
    cases hr : syscall s₁ c cur a with
    | error l =>
      simp only [hr] at hw
      subst hw
      exact (syscall_leaves (hcall.curenv hfresh) hr).careful hx hsound.loaded hsound.live
        hgood hok hcall
    | ok y =>
      obtain ⟨r, s₂⟩ := y
      simp only [hr] at hw
      have hquiet : Quiet s₂ (returned s₂ cur r) := quiet_setEnv _ _ _ rfl rfl rfl
      have hlog : Logged s (.trap c t) c (returned s₂ cur r) :=
        (syscall_ok hcall hfresh hr).quiet hquiet
      exact .inl (trapReturn_stop (hsound.live.logged hsound.alone hlog) hw).1
  rintro (hw | hw)
  · rcases hstop _ hw with h | h <;> cases h
  · rcases hstop _ hw with h | h <;> cases h

/-! ### Runs that can be checked -/

/-- Whether `cprintf("%.*s", len, str)` can read the first `len` characters, and one more. -/
def printableCheck (rd : Word → Option (BitVec 8)) (str len : Word) : Bool :=
  !isNeg len && (List.range (len.toNat + 1)).all fun i => (rd (str + BitVec.ofNat 32 i)).isSome

theorem printable_of_check {rd : Word → Option (BitVec 8)} {str len : Word}
    (h : printableCheck rd str len = true) :
    Printable rd str len := by
  obtain ⟨hneg, hall⟩ := Bool.and_eq_true_iff.mp h
  refine .inr fun i hi _ hnone => ?_
  have hle : i ≤ len.toNat := hi.resolve_left fun h => by simp [h] at hneg
  have hsome := List.all_eq_true.mp hall i (List.mem_range.mpr (Nat.lt_succ_of_le hle))
  rw [hnone] at hsome
  cases hsome

/-- Whether an event passes `sharingCheck`, and prints what can be read. -/
def carefulCheck (c : ℕ) (s : KState) (ev : Event) : Bool :=
  sharingCheck c s ev && match ev with
    | .trap c' t => SysNo.ofWord t.args.no != some .cputs ||
        printableCheck (loadByte s.mem (s.cpus c').cr3) t.args.a1 t.args.a2
    | _ => true

theorem CheckState.careful (h : CheckState c s) (hcheck : carefulCheck c s ev = true) :
    Careful c s ev := by
  obtain ⟨hsharing, hprint⟩ := Bool.and_eq_true_iff.mp hcheck
  have htame := h.tame hsharing
  obtain ⟨k, hx⟩ := h.sound.sound
  refine ⟨sharingCheck_cpu hsharing, htame.lookup, ?_, htame.room, ?_, htame.image⟩
  · -- where there is an entry, there is a table
    intro e va e' va' perm d hmaps hd
    obtain ⟨hP, hva⟩ := sharingCheck_present hsharing (.inl ⟨e', va', perm, hmaps⟩)
    exact pde_of_names hd hva ⟨hP, rfl⟩
  · rintro cur a s₁ d ⟨t, rfl, hcur, -, -, rfl, -⟩ hno hd -
    have hcr3 : d = (s.cpus c).cr3 := Option.some.inj (hd.symm.trans (h.sound.loaded c cur hcur))
    simp only [hno, bne_self_eq_false, Bool.false_or] at hprint
    exact printable_of_check (hcr3 ▸ hprint)

theorem CheckState.reach {es : List Event} (h : CheckState c s)
    (hs : es.foldlM (fun t e => if carefulCheck c t e then JOS.step t e else none) s = some s') :
    CheckState c s' ∧ Reach JOS.step (Careful c) s s' := by
  have hchecked : Reach JOS.step (fun t e => carefulCheck c t e = true) s s' :=
    Reach.of_guarded hs fun _ _ => id
  exact hchecked.mono_of_invariant h (fun _ _ _ ht hok hs =>
    ht.step (Bool.and_eq_true_iff.mp hok).1 hs)
    fun _ _ ht hok => ht.careful hok

/-- The first program of `sharedRun` goes on: it unmaps `0x3000`, and writes two characters to the
page that it has sent. -/
def printingRun : List Event :=
  sharedRun ++ [.trap 0 (sysTrap 6 0 0x3000 0 0 0), .store 0 0x1000 0x68, .store 0 0x1001 0x69]

/-- Printing them does not panic. -/
theorem noPanic_cputs : ∃ s, Reach step (Careful 0) (bootState 1) s ∧
    ¬ Panics s 0 (sysTrap 0 0x1000 2 0 0 0) := by
  have hrun : (printingRun.foldlM (fun t e => if carefulCheck 0 t e then step t e else none)
    (bootState 1)).map
      (fun s => (s.curenv 0, s.status 0, trapFits s 0 (sysTrap 0 0x1000 2 0 0 0),
        carefulCheck 0 s (.trap 0 (sysTrap 0 0x1000 2 0 0 0)))) = some (some 0, .running, true,
        true) := by decide +kernel
  obtain ⟨s, hs, hmap⟩ := Option.map_eq_some_iff.mp hrun
  simp only [Prod.mk.injEq] at hmap
  obtain ⟨hcur, hst, hfits, hcheck⟩ := hmap
  obtain ⟨hstate, hreach⟩ := (bootState_booted 1).checkState.reach hs
  have hcall : SysCall s (.trap 0 (sysTrap 0 0x1000 2 0 0 0)) 0 0 (sysTrap 0 0x1000 2 0 0 0).args
      (trapEntry s.reset 0 0 (sysTrap 0 0x1000 2 0 0 0)) :=
        ⟨_, rfl, hcur, by simp [hst], rfl, rfl, rfl⟩
  exact ⟨s, hreach, noPanic_of_reach (bootState_booted 1) hreach hfits hcall
    (hstate.careful hcheck)⟩

/-- The first environment maps the page at address 0, for which it has no page table: `sys_page_map`
reads the entry through a pointer that `page_lookup` has not set. -/
theorem sysPageMap_panics : ∃ s a s₁, Reach step (fun _ ev => ev.cpu = 0) (bootState 1) s ∧
    trapFits s 0 (sysTrap 5 0 0 0 0 5) = true ∧ SysCall s (.trap 0 (sysTrap 5 0 0 0 0 5)) 0 0 a s₁ ∧
    SysNo.ofWord a.no = some .pageMap ∧ Panics s 0 (sysTrap 5 0 0 0 0 5) := by
  have hrun : ([Event.create 0 emptyElf, .start 0].foldlM step (bootState 1)).map
      (fun s => (s.curenv 0, s.status 0,
        match trap s.reset 0 (sysTrap 5 0 0 0 0 5) with | .stop w => some w | .gone _ => none)) =
      some (some 0, .running, some .undef) := by decide +kernel
  obtain ⟨s, hs, hmap⟩ := Option.map_eq_some_iff.mp hrun
  simp only [Prod.mk.injEq] at hmap
  obtain ⟨hcur, hst, htrap⟩ := hmap
  have hreach : Reach step (fun _ ev => ev.cpu = 0) (bootState 1) s :=
      Reach.of_foldlM hs fun _ ev hev => by
    simp only [List.mem_cons, List.not_mem_nil, or_false] at hev
    rcases hev with rfl | rfl <;> rfl
  refine ⟨s, _, _, hreach, ?_, ⟨_, rfl, hcur, by simp [hst], rfl, rfl, rfl⟩, rfl, .inr ?_⟩
  · rw [trapFits, hcur]
    rfl
  · split at htrap
    · rename_i w hw
      cases htrap
      exact hw
    · cases htrap

end JOS
