import JOS.Fork.Records
import JOS.Fork.Shared
import JOS.Fork.Turns
import JOS.Spaces.RefCounts

/-!
# What the system calls of `fork` do

For the calls that `fork` and the page fault handler make: what they do to the entries of user
pages, depending on the result. `s` is the state in which the trap happens, `s₁` the one in which
`trap_dispatch` gets it.
-/

namespace JOS

open JOS.General

variable {s s' s₁ s₂ : KState} {k : ℕ → Kind} {c e p : ℕ} {t : TrapIn} {a : SysArgs} {r : Word}

/-- Room for one more reference to every page. -/
def Roomy (s : KState) : Prop := ∀ p, mapCount s.upte p < 65535

theorem MemOnly.dirs (h : MemOnly s s') : s'.dirs = s.dirs := by
  obtain ⟨m, rfl⟩ := h
  rfl

/-- **`sys_page_alloc`** maps a page that was mapped nowhere. -/
theorem pageAlloc_call (hx : (s₁.vmState k).Sound) (hno : SysNo.ofWord a.no = some .pageAlloc)
    (h : syscall s₁ c e a = .ok (r, s₂)) : s₂.dirs = s₁.dirs ∧ (r ≠ 0 ∧ s₂.upte = s₁.upte ∨
      r = 0 ∧ ∃ e' p, envid2env s₁ e a.a1 true = some e' ∧ (∀ e v, ¬ Names (s₁.upte e v) p) ∧
        p < 2 ^ 20 ∧ IsFlags a.a3 ∧
        s₂.upte = setAt s₁.upte e' (PGNUM a.a2) (mkPte p a.a3)) := by
  rw [syscall, hno] at h
  have h := liftStop_eq_ok.mp h
  have hdirs := (sysPageAlloc_memOnly h).dirs
  refine ⟨hdirs, ?_⟩
  cases henv : envid2env s₁ e a.a1 true with
  | none =>
    simp only [sysPageAlloc, henv] at h
    cases h
    exact .inl ⟨by decide, rfl⟩
  | some e' =>
    by_cases hva : vaOk a.a2 = true
    · by_cases hperm : permOk a.a3 = true
      · rcases sysPageAlloc_mapped hx henv hva hperm h with ⟨hr, k', hdoes⟩ | ⟨hr, k', hdoes⟩
        · exact .inl ⟨hr, hdoes.upte_keep⟩
        · obtain ⟨p, hfree, hp, hf, hu⟩ := hdoes.upte_alloc hx
          refine .inr ⟨hr, e', p, rfl, fun e v hn => ?_, hp, hf, hu⟩
          have hdata : k p = .data := hx.vm.tables.data_of_names hn
          rw [hfree] at hdata
          cases hdata
      · simp only [sysPageAlloc, henv, hva, hperm, Bool.not_true, Bool.not_false,
          Bool.false_eq_true, if_false, if_true] at h
        cases h
        exact .inl ⟨by decide, rfl⟩
    · simp only [sysPageAlloc, henv, hva, Bool.not_false, if_true] at h
      cases h
      exact .inl ⟨by decide, rfl⟩

/-- **`sys_page_map`** of a page of the caller. -/
theorem pageMap_call (hx : (s₁.vmState k).Sound) (hno : SysNo.ofWord a.no = some .pageMap)
    (h0 : a.a1 = 0)
    (hn : Names (s₁.upte e (PGNUM a.a2)) p) (hroom : Roomy s₁)
    (h : syscall s₁ c e a = .ok (r, s₂)) : s₂.dirs = s₁.dirs ∧ (r ≠ 0 ∧ s₂.upte = s₁.upte ∨
      r = 0 ∧ ∃ e', envid2env s₁ e a.a3 true = some e' ∧ a.a4 < UTOP ∧ p < 2 ^ 20 ∧ IsFlags a.a5 ∧
        s₂.upte = setAt s₁.upte e' (PGNUM a.a4) (mkPte p a.a5)) := by
  rw [syscall, hno] at h
  have h := liftStop_eq_ok.mp h
  have hdirs := (sysPageMap_memOnly h).dirs
  refine ⟨hdirs, ?_⟩
  have hself : envid2env s₁ e a.a1 true = some e := by rw [h0, envid2env, if_pos rfl]
  cases hargs : pageMapArgs s₁ e a.a1 a.a2 a.a3 a.a4 a.a5 with
  | error w =>
    have hw : w ≠ 0 := by
      rw [pageMapArgs, hself] at hargs
      split at hargs
      · split_ifs at hargs <;> cases hargs <;> decide
      · cases hargs
        decide
    simp only [sysPageMap, hargs] at h
    cases h
    exact .inl ⟨hw, rfl⟩
  | ok es =>
    obtain ⟨e₁, e₂⟩ := es
    have hes : e₁ = e ∧ envid2env s₁ e a.a3 true = some e₂ := by
      rw [pageMapArgs, hself] at hargs
      split at hargs
      · rename_i x₁ x₂ h₁ h₂
        split_ifs at hargs
        cases hargs
        cases h₁
        exact ⟨rfl, h₂⟩
      · cases hargs
    obtain ⟨rfl, hdst⟩ := hes
    have hva := vaOk_lt (pageMapArgs_ok hargs).1
    rcases sysPageMap_mapped hx hargs (fun d hd => not_emptyEntry hd hva hn.1)
      (fun q _ => .inl (hroom q)) h with
      ⟨hr, rfl⟩ | ⟨hr, k', hdoes⟩
    · exact .inl ⟨hr, rfl⟩
    · obtain ⟨q, hq, hp, hf, hu⟩ := hdoes.upte_share hx
      cases names_unique hn hq
      exact .inr ⟨hr, e₂, hdst, vaOk_lt (pageMapArgs_ok hargs).2.1, hp, hf, hu⟩

/-- **`sys_page_unmap`** of a page of the caller. -/
theorem pageUnmap_call (hx : (s₁.vmState k).Sound) (hno : SysNo.ofWord a.no = some .pageUnmap)
    (h0 : a.a1 = 0)
    (hva : vaOk a.a2 = true) (hn : Names (s₁.upte e (PGNUM a.a2)) p)
    (h : syscall s₁ c e a = .ok (r, s₂)) : s₂.dirs = s₁.dirs ∧ r = 0 ∧
    s₂.upte = setAt s₁.upte e (PGNUM a.a2) 0 := by
  rw [syscall, hno] at h
  have h := liftStop_eq_ok.mp h
  have hdirs := (sysPageUnmap_memOnly h).dirs
  have hself : envid2env s₁ e a.a1 true = some e := by rw [h0, envid2env, if_pos rfl]
  simp only [sysPageUnmap, hself, hva, Bool.not_true, Bool.false_eq_true, if_false] at h
  obtain ⟨pgdir, hd, h⟩ := bind_eq_ok.mp h
  obtain ⟨m, hrem, h⟩ := bind_eq_ok.mp h
  cases h
  have hd : s₁.dirs e = some pgdir := deref_eq_some hd
  obtain ⟨k', hm, -⟩ := pageRemove_spec hx.vm hd (vaOk_lt hva) hn (hx.small.spare _ _ _ hn) hrem
  exact ⟨hdirs, rfl, hm.entries⟩

/-- The other calls map and unmap nothing, when `sys_env_destroy` is asked for the caller only. -/
theorem plain_call (hcur : s₁.curenv c = some e) (hno : SysNo.ofWord a.no ∉
      [some SysNo.pageAlloc, some .pageMap, some .pageUnmap, some .exofork, some .ipcTrySend])
    (h0 : SysNo.ofWord a.no = some .envDestroy → a.a1 = 0) (h : syscall s₁ c e a = .ok (r, s₂)) :
    SameSpaces s₁ s₂ := by
  cases syscall_returns hcur h with
  | same => exact .refl s₁
  | envDestroy hn henv hd =>
    rw [h0 hn, envid2env, if_pos rfl] at henv
    cases henv
    exact absurd hd (envDestroy_curenv hcur)
  | envSetStatus _ _ _ => exact (sameSpaces_setStatus _ _ _).trans (sameSpaces_log _ _)
  | envSetPgfaultUpcall _ _ => exact sameSpaces_setEnv _ _ _ rfl
  | pageAlloc hn _ => simp [hn] at hno
  | pageMap hn _ => simp [hn] at hno
  | pageUnmap hn _ => simp [hn] at hno
  | exofork hn _ => simp [hn] at hno
  | ipcTrySend hn _ => simp [hn] at hno

/-- The calls that make no environment leave the directories, when `sys_env_destroy` is asked for
the caller only. -/
theorem call_dirs (hcur : s₁.curenv c = some e)
    (hno : SysNo.ofWord a.no ∉ [some SysNo.exofork, some .ipcTrySend])
    (h0 : SysNo.ofWord a.no = some .envDestroy → a.a1 = 0) (h : syscall s₁ c e a = .ok (r, s₂)) :
    s₂.dirs = s₁.dirs := by
  have hreturns := syscall_returns hcur h
  by_cases hmem : SysNo.ofWord a.no ∈ [some SysNo.pageAlloc, some .pageMap, some .pageUnmap]
  · cases hreturns with
    | same => rfl
    | pageAlloc _ h => exact (sysPageAlloc_memOnly h).dirs
    | pageMap _ h => exact (sysPageMap_memOnly h).dirs
    | pageUnmap _ h => exact (sysPageUnmap_memOnly h).dirs
    | envDestroy hn => simp [hn] at hmem
    | envSetStatus hn => simp [hn] at hmem
    | envSetPgfaultUpcall hn => simp [hn] at hmem
    | exofork hn => simp [hn] at hmem
    | ipcTrySend hn => simp [hn] at hmem
  · refine (plain_call hcur (fun hmem' => ?_) h0 h).2
    simp only [List.mem_cons, List.not_mem_nil, or_false] at hno hmem hmem'
    tauto

/-! ### Environments -/

/-- A failed `env_alloc` returns an error code. -/
theorem envAlloc_error {parentId w : Word} {s' : KState}
    (h : envAlloc s parentId = .ok (.error w, s')) : w.toInt < 0 := by
  rw [envAlloc] at h
  cases hfl : s.envFreeList with
  | none =>
    simp only [hfl] at h
    cases h
    decide
  | some x =>
    simp only [hfl] at h
    obtain ⟨⟨r₁, s₂⟩, hvm, h⟩ := bind_eq_ok.mp h
    dsimp only at h
    split_ifs at h with hr
    · cases h
      obtain ⟨⟨o, m₁⟩, -, hvm⟩ := bind_eq_ok.mp hvm
      cases o with
      | none =>
        cases hvm
        decide
      | some q =>
        obtain ⟨pgdir, -, hvm⟩ := bind_eq_ok.mp hvm
        cases hvm
        exact absurd rfl hr
    · cases h

/-- The child `x` that `sys_exofork` of `e` has made between `s` and `s'`, when it has returned
`r`. -/
structure NewChild (s : KState) (e : ℕ) (r : Word) (x : ℕ) (s' : KState) : Prop where
  head : s.envFreeList = some x
  pos : 0 < r.toInt
  slot : ENVX r = x
  record : (s'.envs x).envId = r ∧ (s'.envs x).envParentId = (s.envs e).envId ∧
    (s'.envs x).envStatus = .notRunnable
  live : s'.dirs x ≠ none
  others : ∀ e', e' ≠ x → s'.envs e' = s.envs e'
  curenv : s'.table.curenv = s.table.curenv

/-- **`sys_exofork`** fails, or makes a child. -/
theorem exofork_call (hx : (s₁.vmState k).Sound) (hfree : FreeHead s₁)
    (hno : SysNo.ofWord a.no = some .exofork)
    (h : syscall s₁ c e a = .ok (r, s₂)) : s₂.upte = s₁.upte ∧
    (r.toInt < 0 ∧ s₂.envs = s₁.envs ∧ s₂.table.curenv = s₁.table.curenv ∨
      ∃ x, NewChild s₁ e r x s₂) := by
  rw [syscall, hno] at h
  have h := liftStop_eq_ok.mp h
  have hupte : s₂.upte = s₁.upte := by
    rcases sysExofork_does hx hfree h with ⟨k', hdoes⟩ | ⟨x, k', -, hdoes⟩
    · exact hdoes.upte_keep
    · exact hdoes.upte_create
  refine ⟨hupte, ?_⟩
  obtain ⟨⟨y, s₃⟩, halloc, h⟩ := bind_eq_ok.mp h
  rcases envAlloc_writes halloc with ⟨⟨w, rfl⟩, ht⟩ | ⟨x, y', rfl, hhead, ⟨pgdir, tf, rfl⟩, -, ht⟩
  · cases h
    exact .inl ⟨envAlloc_error halloc, congrArg Table.envs ht, congrArg Table.curenv ht⟩
  · have hx20 := (hfree x hhead).1
    have henvs : s₃.envs = _ := congrArg Table.envs ht
    have hcur : s₃.table.curenv = _ := congrArg Table.curenv ht
    cases h
    have hid : (s₃.envs x).envId = nextEnvId (s₁.envs x).envId x := by
      rw [henvs]
      simp [Table.setEnv, Env.renew]
    refine .inr ⟨x, hhead, ?_, ?_, ⟨?_, ?_, ?_⟩, ?_, fun e' he' => ?_, hcur⟩
    · simpa [KState.setEnv, KState.setStatus, KState.log, hid] using nextEnvId_pos _ hx20
    · simpa [KState.setEnv, KState.setStatus, KState.log, hid] using ENVX_nextEnvId _ hx20
    · rfl
    · simp [KState.setEnv, KState.setStatus, KState.log, henvs, Table.setEnv, Env.renew]
    · simp [KState.setEnv, KState.setStatus, KState.log]
    · simp [KState.dirs, KState.setEnv, KState.setStatus, KState.log, henvs,
        Table.setEnv, Env.renew]
    · simp [KState.setEnv, KState.setStatus, KState.log, henvs, Table.setEnv, KState.table,
        Function.update_of_ne he']

/-! ### Between a trap and its end -/

/-- The environment that an id means to `e`. -/
def named (e : ℕ) (envid : Word) : ℕ := if envid = 0 then e else ENVX envid

theorem named_of_envid2env {e' : ℕ} {envid : Word} {checkperm : Bool}
    (h : envid2env s e envid checkperm = some e') :
    e' = named e envid := by
  rw [envid2env] at h
  rw [named]
  split_ifs at h ⊢ with h0
  · exact (Option.some.inj h).symm
  · dsimp only at h
    split_ifs at h
    exact (Option.some.inj h).symm

/-- `sys_exofork` of `e` has returned the id `r` of the child `x`. -/
structure Born (s : KState) (e : ℕ) (r : Word) (x : ℕ) (s' : KState) : Prop where
  pos : 0 < r.toInt
  slot : ENVX r = x
  gone : s.dirs x = none
  live : s'.dirs x ≠ none
  id : (s'.envs x).envId = r
  parent : (s'.envs x).envParentId = (s'.envs e).envId
  asleep : Asleep s'.table x
  others : ∀ e', e' ≠ x → s'.dirs e' = s.dirs e'

namespace Answer

/-- `sys_page_alloc` -/
theorem pageAlloc (h : Answer s c e t r s') (hx : (s.vmState k).Sound)
    (hno : SysNo.ofWord t.args.no = some .pageAlloc) :
    s'.dirs = s.dirs ∧ (r ≠ 0 ∧ s'.upte = s.upte ∨ r = 0 ∧ ∃ p, (∀ e v, ¬ Names (s.upte e v) p) ∧
      p < 2 ^ 20 ∧ IsFlags t.args.a3 ∧
      s'.upte = setAt s.upte (named e t.args.a1) (PGNUM t.args.a2) (mkPte p t.args.a3)) := by
  obtain ⟨s₂, hcall, hret⟩ := h
  have hentry : SameSpaces s (trapEntry s.reset c e t) := trapEntry_spaces s.reset c e t
  have hret := returned_spaces hret
  obtain ⟨hd, hr⟩ := pageAlloc_call (hentry.sound hx) hno hcall
  rw [hret.upte, hret.2, hd, hentry.2]
  rw [hentry.upte] at hr
  refine ⟨rfl, hr.imp_right ?_⟩
  rintro ⟨hr0, e', p, henv, hfresh, hp, hf, hu⟩
  exact ⟨hr0, p, hfresh, hp, hf, by rw [hu, named_of_envid2env henv]⟩

/-- `sys_page_map` of a page of the caller -/
theorem pageMap (h : Answer s c e t r s') (hx : (s.vmState k).Sound)
    (hno : SysNo.ofWord t.args.no = some .pageMap)
    (h0 : t.args.a1 = 0) (hn : Names (s.upte e (PGNUM t.args.a2)) p) (hroom : Roomy s) :
    s'.dirs = s.dirs ∧ (r ≠ 0 ∧ s'.upte = s.upte ∨ r = 0 ∧ t.args.a4 < UTOP ∧ p < 2 ^ 20 ∧
      IsFlags t.args.a5 ∧
      s'.upte = setAt s.upte (named e t.args.a3) (PGNUM t.args.a4) (mkPte p t.args.a5)) := by
  obtain ⟨s₂, hcall, hret⟩ := h
  have hentry : SameSpaces s (trapEntry s.reset c e t) := trapEntry_spaces s.reset c e t
  have hret := returned_spaces hret
  have hroom₁ : Roomy (trapEntry s.reset c e t) := fun p => by
    rw [hentry.upte]
    exact hroom p
  obtain ⟨hd, hr⟩ := pageMap_call (hentry.sound hx) hno h0
    (by rw [hentry.upte]; exact hn) hroom₁ hcall
  rw [hret.upte, hret.2, hd, hentry.2]
  rw [hentry.upte] at hr
  refine ⟨rfl, hr.imp_right ?_⟩
  rintro ⟨hr0, e', henv, hva, hp, hf, hu⟩
  exact ⟨hr0, hva, hp, hf, by rw [hu, named_of_envid2env henv]⟩

/-- `sys_page_unmap` of a page of the caller -/
theorem pageUnmap (h : Answer s c e t r s') (hx : (s.vmState k).Sound)
    (hno : SysNo.ofWord t.args.no = some .pageUnmap)
    (h0 : t.args.a1 = 0) (hva : vaOk t.args.a2 = true) (hn : Names (s.upte e (PGNUM t.args.a2)) p) :
    s'.dirs = s.dirs ∧ r = 0 ∧ s'.upte = setAt s.upte e (PGNUM t.args.a2) 0 := by
  obtain ⟨s₂, hcall, hret⟩ := h
  have hentry : SameSpaces s (trapEntry s.reset c e t) := trapEntry_spaces s.reset c e t
  have hret := returned_spaces hret
  obtain ⟨hd, hr, hu⟩ := pageUnmap_call (hentry.sound hx) hno h0 hva
    (by rw [hentry.upte]; exact hn) hcall
  rw [hret.upte, hret.2, hd, hentry.2, hu, hentry.upte]
  exact ⟨rfl, hr, rfl⟩

/-- The calls that map and unmap nothing -/
theorem plain (h : Answer s c e t r s') (hcur : s.curenv c = some e) (hno : SysNo.ofWord t.args.no ∉
      [some SysNo.pageAlloc, some .pageMap, some .pageUnmap, some .exofork, some .ipcTrySend])
    (h0 : SysNo.ofWord t.args.no = some .envDestroy → t.args.a1 = 0) : SameSpaces s s' := by
  obtain ⟨s₂, hcall, hret⟩ := h
  have hcur₁ : (trapEntry s.reset c e t).curenv c = some e := @trapEntry_curenv s.reset c e hcur t
  exact ((trapEntry_spaces s.reset c e t).trans (plain_call hcur₁ hno h0 hcall)).trans
    (returned_spaces hret)

/-- The result is in `eax`. -/
theorem eax (h : Answer s c e t r s') : (s'.envs e).envTf.tfRegs.regEax = r := by
  obtain ⟨s₂, -, hret⟩ := h
  exact returned_eax hret

/-- What a trap writes to the table before the system call. -/
theorem trapEntry_others (e' : ℕ) : ((trapEntry s.reset c e t).envs e').envId = (s.envs e').envId ∧
    ((trapEntry s.reset c e t).envs e').envPgdir = (s.envs e').envPgdir := by
  by_cases he : e' = e
  · subst he
    rw [trapEntry_envs]
    exact ⟨rfl, rfl⟩
  · have hrec : (trapEntry s.reset c e t).envs e' = s.envs e' := Function.update_of_ne he _ _
    rw [hrec]
    exact ⟨rfl, rfl⟩

theorem trapEntry_runs (c' : ℕ) : (trapEntry s.reset c e t).table.curenv c' = s.curenv c' := by
  simp only [KState.table, KState.curenv, trapEntry, KState.setEnv, KState.setCpu]
  by_cases hc : c' = c
  · subst hc
    simp [KState.reset]
  · simp [hc, KState.reset]

/-- **`sys_exofork`** fails, or a child is there when it returns. -/
theorem exofork (h : Answer s c e t r s') (hx : (s.vmState k).Sound) (hfree : FreeHead s)
    (hload : Loaded s)
    (hcur : s.curenv c = some e) (hno : SysNo.ofWord t.args.no = some .exofork) :
    s'.upte = s.upte ∧ (r.toInt < 0 ∧ s'.dirs = s.dirs ∨ ∃ x, Born s e r x s') := by
  obtain ⟨s₂, hcall, hret⟩ := h
  have hentry : SameSpaces s (trapEntry s.reset c e t) := trapEntry_spaces s.reset c e t
  have hsame := returned_spaces hret
  have hfree₁ : FreeHead (trapEntry s.reset c e t) := fun x hx => by
    rw [hentry.2]
    exact hfree x hx
  obtain ⟨hu, hr⟩ := exofork_call (hentry.sound hx) hfree₁ hno hcall
  refine ⟨by rw [hsame.upte, hu, hentry.upte], hr.imp ?_ ?_⟩
  · rintro ⟨hneg, henvs, -⟩
    refine ⟨hneg, ?_⟩
    rw [hsame.2, ← hentry.2]
    funext e'
    exact congrArg (fun envs : ℕ → Env => (envs e').envPgdir) henvs
  rintro ⟨x, hchild⟩
  have hgone : s.dirs x = none := (hfree x hchild.head).2
  have hcurx : ∀ c', s.curenv c' ≠ some x := fun c' hc' => by
    rw [hload c' x hc'] at hgone
    cases hgone
  have hne : x ≠ e := by
    rintro rfl
    exact hcurx c hcur
  obtain ⟨hid, hparent, hstatus⟩ := hchild.record
  obtain ⟨st, runs, cpu, -, henv⟩ := returned_kept hret hne
  refine ⟨x, hchild.pos, hchild.slot, hgone, ?_, by rw [henv]; exact hid, ?_, ?_, fun e' he' => ?_⟩
  · rw [hsame.2]
    exact hchild.live
  · -- the parent keeps its id
    obtain ⟨st', runs', cpu', -, henv'⟩ := trapReturn_kept hret e
    rw [henv, henv']
    have hrec := hchild.others e hne.symm
    simp only [returned, KState.setEnv_envs_self, hrec, hparent]
  · obtain ⟨w, ht, hw⟩ := trapReturn_writes hret
    rw [ht]
    refine Asleep.schedules ⟨?_, fun c' hc' => hcurx c' ?_⟩ hw
    · have hrec : (returned s₂ e r).table.envs x = s₂.envs x := Function.update_of_ne hne _ _
      rw [hrec, hstatus]
    · have hcur₂ : (returned s₂ e r).table.curenv = s.curenv :=
        hchild.curenv.trans (funext trapEntry_runs)
      rwa [← hcur₂]
  · rw [hsame.2, KState.dirs, hchild.others e' he']
    exact (trapEntry_others e').2

/-- The caller keeps its directory. -/
theorem live (h : Answer s c e t r s') (hx : (s.vmState k).Sound) (hfree : FreeHead s)
    (hload : Loaded s) (hcur : s.curenv c = some e)
    (hno : SysNo.ofWord t.args.no ≠ some .ipcTrySend)
    (h0 : SysNo.ofWord t.args.no = some .envDestroy → t.args.a1 = 0) :
    s'.dirs e = s.dirs e := by
  by_cases hfork : SysNo.ofWord t.args.no = some .exofork
  · rcases (h.exofork hx hfree hload hcur hfork).2 with ⟨-, hd⟩ | ⟨x, hborn⟩
    · rw [hd]
    · refine hborn.others e ?_
      rintro rfl
      have hgone := hborn.gone
      rw [hload c e hcur] at hgone
      cases hgone
  · obtain ⟨s₂, hcall, hret⟩ := h
    have hcur₁ : (trapEntry s.reset c e t).curenv c = some e := @trapEntry_curenv s.reset c e hcur t
    rw [(returned_spaces hret).2, call_dirs hcur₁ (by simp [hfork, hno]) h0 hcall]
    exact (trapEntry_others e).2

end Answer

end JOS
