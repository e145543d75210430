import JOS.Spaces.KernelHalf
import JOS.Calls.Failure
import JOS.Ipc.Once

/-!
# Whom a system call can affect

A system call by `A` leaves alone every environment that is neither `A` nor a child of
`A`: its address space (`Affects.translateOf`), and its record but for the fields of the
scheduler (`Env.Kept`). There are two exceptions. The receiver of a message gets the
message (`Received`). And `sys_exofork` overwrites the slot at the head of the list of
free environments, which may be a live one's (`Takes`): an environment that was freed
while it ran can bring itself back to life and be on the list all the same
(`not_confined`).
-/

namespace JOS

open JOS.General

open Function (update)

variable {s s' s₁ s₂ : KState} {ev : Event} {m m' : Mem} {T : ℕ → Prop} {l : List ℕ} {t : Table}
  {w : Write} {a : SysArgs}
  {c cur d e pp A B : ℕ} {va va' perm r : Word} {x y z : Env}

/-! ### Scheduling fields -/

/-- The scheduler only makes running environments runnable, and runnable ones running. -/
def SameStatus (st st' : EnvStatus) : Prop :=
  st = st' ∨ (st = .runnable ∨ st = .running) ∧ (st' = .runnable ∨ st' = .running)

/-- The records differ in what the scheduler writes, at most. -/
def Env.Kept (x y : Env) : Prop :=
  ∃ st runs cpu, SameStatus x.envStatus st ∧
    y = { x with envStatus := st, envRuns := runs, envCpunum := cpu }

theorem SameStatus.trans {st st' st'' : EnvStatus} (h : SameStatus st st')
    (h' : SameStatus st' st'') :
    SameStatus st st'' := by
  rcases h with rfl | ⟨h₁, h₂⟩
  · exact h'
  · rcases h' with rfl | ⟨-, h₄⟩
    · exact .inr ⟨h₁, h₂⟩
    · exact .inr ⟨h₁, h₄⟩

theorem Env.Kept.refl (x : Env) : x.Kept x := ⟨_, _, _, .inl rfl, rfl⟩

theorem Env.Kept.trans (h : x.Kept y) (h' : y.Kept z) : x.Kept z := by
  obtain ⟨st, runs, cpu, hst, rfl⟩ := h
  obtain ⟨st', runs', cpu', hst', rfl⟩ := h'
  exact ⟨st', runs', cpu', hst.trans hst', rfl⟩

/-- How an entry into the kernel ends. -/
theorem Schedules.kept (h : Schedules c t w) (e : ℕ) : (t.envs e).Kept ((t.write w).envs e) := by
  by_cases hwe : w.env = some e
  · cases w with
    | run c' e' =>
      cases hwe
      rw [Table.write_run_self]
      obtain ⟨-, hst | ⟨-, hst⟩⟩ := h
      · exact ⟨_, _, _, .inr ⟨.inl hst, .inr rfl⟩, rfl⟩
      · exact ⟨_, _, _, .inr ⟨.inr hst, .inr rfl⟩, rfl⟩
    | clear c' => cases hwe
    | _ => exact h.elim
  · rcases Table.write_envs_of_ne hwe with heq | ⟨c', e', -, -, hst, heq⟩
    · rw [heq]
      exact .refl _
    · rw [heq]
      exact ⟨.runnable, _, _, .inr ⟨.inr hst, .inl rfl⟩, rfl⟩

theorem trapReturn_kept (h : trapReturn s c = .gone s') (e : ℕ) : (s.envs e).Kept (s'.envs e) := by
  obtain ⟨w, ht, hw⟩ := trapReturn_writes h
  have henv : s'.envs e = (s.table.write w).envs e := congrFun (congrArg Table.envs ht) e
  rw [henv]
  exact hw.kept e

theorem schedYield_kept (h : schedYield s c = .gone s') (e : ℕ) : (s.envs e).Kept (s'.envs e) := by
  obtain ⟨w, ht, hw⟩ := schedYield_writes h
  have henv : s'.envs e = (s.table.write w).envs e := congrFun (congrArg Table.envs ht) e
  rw [henv]
  exact hw.kept e

/-- A CPU that frees its environment leaves others as they are. -/
theorem Leaves.kept {t' : Table} (h : Leaves c cur t t') (he : e ≠ cur) :
    (t.envs e).Kept (t'.envs e) := by
  obtain ⟨w, rfl, hw⟩ := h
  have heq : ((t.write (.free c cur)).write (.clear c)).envs e = t.envs e :=
    Table.setEnv_envs_of_ne he
  rw [← heq]
  exact hw.kept e

/-! ### Records -/

/-- `B` is neither `A` nor a child of `A`. -/
def Foreign (s : KState) (A B : ℕ) : Prop := B ≠ A ∧ (s.envs B).envParentId ≠ (s.envs A).envId

/-- `envid2env` that checks permissions does not let `A` at it. -/
theorem Foreign.ne {envid : Word} (h : Foreign s A B)
    (he : envid2env s A envid true = some e) : B ≠ e := by
  rintro rfl
  simp only [envid2env] at he
  split_ifs at he with h₀ _ hperm
  · exact h.1 (Option.some.inj he).symm
  · cases he
    exact hperm ⟨trivial, h.1, h.2⟩

/-- `sys_exofork` gives the slot of `B` to the child. -/
def Takes (s : KState) (a : SysArgs) (B : ℕ) : Prop :=
  SysNo.ofWord a.no = some .exofork ∧ s.envFreeList = some B ∧ s.mem.pageFreeList ≠ none

/-- The record of a receiver that has got a message. -/
def Env.received (x : Env) (sender value perm : Word) : Env :=
  { x with
    envIpcRecving := false
    envIpcFrom := sender
    envIpcValue := value
    envIpcPerm := perm
    envStatus := .runnable
    envTf := { x.envTf with tfRegs := { x.envTf.tfRegs with regEax := 0 } } }

theorem envSetupVm_page (h : envSetupVm s e = .ok (r, s'))
    (hp : s.mem.pageFreeList ≠ none) : r = 0 := by
  obtain ⟨⟨o, m₁⟩, halloc, h⟩ := bind_eq_ok.mp h
  cases o with
  | none => exact absurd (pageAlloc_none halloc).2 hp
  | some p =>
    obtain ⟨pgdir, -, h⟩ := bind_eq_ok.mp h
    cases h
    rfl

/-- Without a free page there is no child. -/
theorem sysExofork_noPage (h : sysExofork s cur = .ok (r, s')) (hp : s.mem.pageFreeList = none) :
    s'.table = s.table := by
  rcases sysExofork_writes h with ht | ⟨e, x, hfl, -, -, -⟩
  · exact ht
  · have hvm : envSetupVm s e = .ok (-E_NO_MEM, { s with mem := s.mem }) := by
      rw [envSetupVm, pageAlloc, hp]
      rfl
    have hne : (-E_NO_MEM : Word) ≠ 0 := by decide
    rw [sysExofork, envAlloc, hfl] at h
    simp only [hvm, ok_bind, if_pos hne, pure_eq_ok] at h
    cases h
    rfl

/-- Otherwise the first free slot gets a new id. -/
theorem sysExofork_takes (h : sysExofork s cur = .ok (r, s')) (hfl : s.envFreeList = some e)
    (hp : s.mem.pageFreeList ≠ none) :
    (s'.envs e).envId = nextEnvId (s.envs e).envId e := by
  obtain ⟨⟨y, s₁⟩, halloc, h⟩ := bind_eq_ok.mp h
  simp only [envAlloc, hfl] at halloc
  obtain ⟨⟨r₁, s₂⟩, hvm, halloc⟩ := bind_eq_ok.mp halloc
  cases envSetupVm_page hvm hp
  rcases envSetupVm_writes hvm with ⟨hne, -⟩ | ⟨-, pgdir, ht⟩
  · exact absurd rfl hne
  · have henv : s₂.envs e = { s.envs e with envPgdir := some pgdir } := by
      have henvs := congrFun (congrArg Table.envs ht) e
      rwa [Table.setEnv_envs_self] at henvs
    simp only [ne_eq, not_true_eq_false, if_false, pure_eq_ok] at halloc
    cases halloc
    cases h
    simp only [KState.setEnv, KState.setStatus, KState.log, Function.update_self, Env.renew, henv]

theorem shift_mask (x : Word) : (x &&& ~~~BitVec.ofNat 32 (NENV - 1)) >>> 12 = x >>> 12 := by
  rw [BitVec.ushiftRight_and_distrib, show (~~~BitVec.ofNat 32 (NENV - 1) : Word) >>> 12 =
    BitVec.ofNat 32 (2 ^ 20 - 1) by decide]
  apply BitVec.eq_of_toNat_eq
  have hx := x.isLt
  rw [BitVec.toNat_and, BitVec.toNat_ofNat, Nat.mod_eq_of_lt (by decide),
    Nat.and_two_pow_sub_one_eq_mod,
    BitVec.toNat_ushiftRight, Nat.shiftRight_eq_div_pow]
  omega

theorem shift_or_slot (g : Word) (he : e < NENV) : (g ||| BitVec.ofNat 32 e) >>> 12 = g >>> 12 := by
  have he : e < 1024 := he
  have h0 : (BitVec.ofNat 32 e : Word) >>> 12 = 0 := by
    apply BitVec.eq_of_toNat_eq
    rw [BitVec.toNat_ushiftRight, Nat.shiftRight_eq_div_pow, BitVec.toNat_ofNat,
      Nat.mod_eq_of_lt (by omega)]
    exact Nat.div_eq_of_lt (by omega)
  rw [BitVec.ushiftRight_or_distrib, h0]
  exact BitVec.or_zero

/-- The id is a new one. -/
theorem nextEnvId_ne (old : Word) (he : e < NENV) : nextEnvId old e ≠ old := by
  intro h
  have hdiv : ∀ x : Word, (x >>> 12).toNat = x.toNat / 4096 := fun x => by
    rw [BitVec.toNat_ushiftRight, Nat.shiftRight_eq_div_pow]
  have hgen : (1#32 <<< ENVGENSHIFT : Word) = 4096#32 := by decide
  have hnext : ((old + 4096#32).toNat) = (old.toNat + 4096) % 2 ^ 32 := BitVec.toNat_add _ _
  -- the bits above the slot
  have hshift := congrArg (fun w : Word => (w >>> 12).toNat) h
  have hmask := congrArg BitVec.toNat (shift_mask (old + 4096#32))
  rw [nextEnvId, hgen] at hshift
  generalize (old + 4096#32) &&& ~~~BitVec.ofNat 32 (NENV - 1) = g at hshift hmask
  rw [hdiv, hdiv, hnext] at hmask
  have hold := old.isLt
  simp only [shift_or_slot _ he, hdiv] at hshift
  split_ifs at hshift with hle
  · have h1 : old.toNat / 4096 = 1 := by simpa using hshift.symm
    rw [BitVec.toInt_eq_toNat_cond] at hle
    split_ifs at hle <;> omega
  · omega
/-- The record of a foreign environment, not the receiver, after a system call that returns. -/
theorem syscall_envs (hcur : s.curenv c = some A) (hforeign : Foreign s A B)
    (htakes : ¬ Takes s a B)
    (hrecv : ¬ (SysNo.ofWord a.no = some .ipcTrySend ∧ ipcSendArgs s A a.a1 = .ok B))
    (h : syscall s c A a = .ok (r, s')) :
    s'.envs B = s.envs B := by
  have hsame : s'.table = s.table → s'.envs B = s.envs B := fun ht => congrFun
    (congrArg Table.envs ht) B
  have hother : ∀ w : Write, w.env ≠ some B → (∀ c e, w ≠ .run c e) → s'.table = s.table.write w →
      s'.envs B = s.envs B := by
    intro w hw hrun ht
    have henv : s'.envs B = (s.table.write w).envs B := congrFun (congrArg Table.envs ht) B
    rw [henv]
    rcases Table.write_envs_of_ne hw with heq | ⟨c', e', hwr, -⟩
    · exact heq
    · exact absurd hwr (hrun c' e')
  have hne : ∀ {envid e}, envid2env s A envid true = some e → some e ≠ some B := fun he h =>
    hforeign.ne he (Option.some.inj h).symm
  cases syscall_returns hcur h with
  | same => rfl
  | envDestroy _ henv hd =>
    obtain ⟨-, ⟨-, ht⟩ | ht⟩ := envDestroy_writes hd
    · exact hother (.zombie _) (hne henv) (fun _ _ => by simp) ht
    · exact hother (.free c _) (hne henv) (fun _ _ => by simp) ht
  | pageAlloc _ h => exact hsame (sysPageAlloc_memOnly h).table
  | pageMap _ h => exact hsame (sysPageMap_memOnly h).table
  | pageUnmap _ h => exact hsame (sysPageUnmap_memOnly h).table
  | exofork hno h =>
    rcases sysExofork_writes h with ht | ⟨e, x, hfl, -, -, ht⟩
    · exact hsame ht
    · by_cases hp : s.mem.pageFreeList = none
      · exact hsame (sysExofork_noPage h hp)
      · refine hother _ (fun he => htakes ⟨hno, ?_, hp⟩) (fun _ _ => by simp) ht
        rw [hfl]
        exact he
  | @envSetStatus e st _ _ henv => exact hother (.status e st) (hne henv) (fun _ _ => by simp) rfl
  | @envSetPgfaultUpcall e _ henv =>
      exact hother (.upcall e a.a2) (hne henv) (fun _ _ => by simp) rfl
  | ipcTrySend hno h =>
    rcases sysIpcTrySend_writes h with ht | ⟨e, t, hargs, -, ht, ht'⟩
    · exact hsame ht
    have henv : s'.envs B = (t.write (.deliver e (s.envs A).envId a.a2)).envs B :=
      congrFun (congrArg Table.envs ht') B
    have hBe : B ≠ e := by
      rintro rfl
      exact hrecv ⟨hno, hargs⟩
    refine henv.trans ((Table.setEnv_envs_of_ne hBe).trans ?_)
    rcases ht with rfl | rfl
    · rfl
    · exact Table.setEnv_envs_of_ne hBe

/-- The record of any other environment after a system call that does not return. -/
theorem syscall_gone_kept (hcur : s.curenv c = some A) (hB : B ≠ A)
    (h : syscall s c A a = .error (.gone s')) :
    (s.envs B).Kept (s'.envs B) := by
  rcases syscall_gone_cases h with ⟨-, h⟩ | ⟨-, -, h⟩ | ⟨e, -, -, h⟩ | ⟨-, h⟩
  · exact schedYield_kept h B
  · have hkept := schedYield_kept h B
    have heq : (blocked s A a.a1).envs B = s.envs B := Function.update_of_ne hB _ _
    rwa [heq] at hkept
  · obtain ⟨hce, hl⟩ := envDestroy_leaves h
    rw [hcur] at hce
    cases hce
    exact hl.kept hB
  · exact (envDestroy_leaves h).2.kept hB

/-! ### Address spaces -/

/-- In the directory `d` one page-table entry is for both addresses. -/
def SameEntry (phys : ℕ → ℕ → Word) (d : ℕ) (va va' : Word) : Prop :=
  PGNUM va = PGNUM va' ∨
    PTX va = PTX va' ∧ ∃ t, Names (phys d (PDX va)) t ∧ Names (phys d (PDX va')) t

/-- **`page_insert` changes one mapping**: only the addresses of the entry it writes. -/
theorem translate_pageInsert_other (hl : FreeList m l)
    (hused : d ∉ l ∧ ∀ i < NUPDX, ∀ t, Names (m.phys d i) t → t ∉ l)
    (hself : ∀ i < NUPDX, ¬ Names (m.phys d i) d) (hf : IsFlags perm)
    (h : pageInsert m d pp va perm = .ok (r, m'))
    (hva : va < UTOP) (hva' : va' < UTOP) (hne : ¬ SameEntry m.phys d va va') :
    translate m' d va' = translate m d va' := by
  rcases pageInsert_words h with ⟨-, rfl⟩ | ⟨-, t, m₁, hins⟩
  · rfl
  have hi := PDX_lt_of_lt hva
  have hi' := PDX_lt_of_lt hva'
  rcases hins.walked.words with ⟨rfl, hP⟩ | ⟨hP, p, w, hfl, htp, hphys⟩
  · -- the table was there
    have ht : Names (m₁.phys d (PDX va)) t := ⟨hP, hins.walked.pde.2⟩
    have hdt : d ≠ t := fun h => hself _ hi (h ▸ ht)
    refine translate_congr (fun t' => ?_) fun t' ht' => ?_
    · rw [hins.words, setW_of_ne hdt]
      by_cases hiv : PDX va' = PDX va
      · rw [hiv, setW_self, Names, Names, test_or, hP, PGNUM_or hf, Bool.true_or]
      · rw [setW_of_ne_index hiv, setW_of_ne hdt]
    · have hdt' : t' ≠ d := fun h => hself _ hi' (h ▸ ht')
      rw [hins.words, setW_of_ne hdt']
      by_cases htt : t' = t
      · subst htt
        exact setW_of_ne_index fun hx => hne (.inr ⟨hx.symm, t', ht, ht'⟩)
      · rw [setW_of_ne htt]
  · -- the first free page has become the table
    have htl : t ∈ l := by
      have hchain := hl.chain
      rw [hfl] at hchain
      obtain ⟨l', rfl, -⟩ := hchain.of_some
      rw [htp, PGNUM_page2pa (hl.lt p List.mem_cons_self)]
      exact List.mem_cons_self
    have hdt : d ≠ t := fun h => hused.1 (h ▸ htl)
    have hdir : ∀ i, i ≠ PDX va → m'.phys d i = m.phys d i := by
      intro i hiv
      rw [hins.words, setW_of_ne_index hiv, setW_of_ne hdt, hphys, setW_of_ne_index hiv,
        Function.update_of_ne hdt]
    have htable : ∀ t', t' ≠ d → m'.phys t' = setW (update m.phys t fun _ => 0) t (PTX va)
        (mkPte pp perm) t' := by
      intro t' htd
      rw [hins.words, setW_of_ne htd]
      by_cases htt : t' = t
      · funext x
        by_cases hx : x = PTX va
        · rw [htt, hx, setW_self, setW_self]
        · rw [setW_of_ne_index hx, setW_of_ne_index hx, hphys, setW_of_ne htd]
      · rw [setW_of_ne htt, setW_of_ne htt, hphys, setW_of_ne htd]
    by_cases hiv : PDX va' = PDX va
    · -- nothing else is in the new table
      have hpte : PTX va' ≠ PTX va := by
        intro hptx
        refine hne (.inl ?_)
        rw [PDX_eq, PDX_eq] at hiv
        rw [PTX_eq, PTX_eq] at hptx
        omega
      have hnone : translate m d va' = none := by
        rw [translate, hiv]
        simp only [hP, if_false, Bool.false_eq_true]
      have hpde : PGNUM (m'.phys d (PDX va)) = t := by
        rw [hins.words, setW_self, setW_of_ne hdt, PGNUM_or hf, hins.walked.pde.2]
      rw [hnone, translate, hiv]
      dsimp only
      rw [hpde, htable t hdt.symm, setW_of_ne_index hpte, Function.update_self, test_zero]
      simp
    · refine translate_congr (fun t' => by rw [hdir _ hiv]) fun t' ht' => ?_
      have htt : t' ≠ t := fun h => hused.2 _ hi' _ ht' (h ▸ htl)
      have htd : t' ≠ d := fun h => hself _ hi' (h ▸ ht')
      rw [htable t' htd, setW_of_ne htt, Function.update_of_ne htt]

/-! ### Receivers -/

/-- The page transfer of a send: there is none, or `page_insert` maps the page at
`env_ipc_dstva`. -/
theorem ipcSendPage_zero {srcva : Word} (h : ipcSendPage s A B srcva perm = .ok (0, s')) :
    ¬ (s.envs B).envIpcDstva < UTOP ∧ s' = s ∨
    ∃ d pg m, (s.envs B).envIpcDstva < UTOP ∧ s.dirs B = some d ∧ IsFlags perm ∧ perm ≠ 0 ∧
      pageInsert s.mem d pg (s.envs B).envIpcDstva perm = .ok (0, m) ∧
      s' = { s with mem := m }.setEnv B { s.envs B with envIpcPerm := perm } := by
  simp only [ipcSendPage] at h
  obtain ⟨pgdir, -, h⟩ := bind_eq_ok.mp h
  obtain ⟨o, -, h⟩ := bind_eq_ok.mp h
  cases o with
  | none => cases h
  | some y =>
    obtain ⟨pg, pte⟩ := y
    dsimp only at h
    split_ifs at h with hok hva
    · cases h
    · obtain ⟨dst, hd, h⟩ := bind_eq_ok.mp h
      obtain ⟨⟨flag, m⟩, hins, h⟩ := bind_eq_ok.mp h
      dsimp only at h
      split_ifs at h with hflag
      · cases h
        exact absurd rfl hflag
      · cases h
        rw [not_not.mp hflag] at hins
        rw [Bool.not_eq_true', Bool.not_eq_false] at hok
        exact .inr ⟨dst, pg, m, hva, deref_eq_some hd, isFlags_of_ipcPageOk hok,
          ne_zero_of_ipcPageOk hok, hins, rfl⟩
    · cases h
      exact .inl ⟨hva, rfl⟩

/-- `B` has got a message from `A`: its IPC fields, its status and its saved `eax` are new, and one
mapping at most. -/
structure GotMessage (s s' : KState) (A B : ℕ) (a : SysArgs) : Prop where
  record : ∃ perm, (perm = (s.envs B).envIpcPerm ∨ perm = a.a4) ∧
    ((s.envs B).received (s.envs A).envId a.a2 perm).Kept (s'.envs B)
  space : ∀ va < UTOP, ((s.envs B).envIpcDstva < UTOP →
    ∀ d, s.dirs B = some d → ¬ SameEntry s.mem.phys d (s.envs B).envIpcDstva va) →
    translateOf s' B va = translateOf s B va

/-- What a send that returns 0 does to a receiver. -/
theorem sysIpcTrySend_gotMessage {envid value srcva : Word} (hl : Apart s l)
    (hun : Unshared s.mem.phys s.dirs)
    (hA : B ≠ A) (hno : a.a1 = envid ∧ a.a2 = value ∧ a.a3 = srcva ∧ a.a4 = perm)
    (hargs : ipcSendArgs s A envid = .ok B)
    (h : sysIpcTrySend s A envid value srcva perm = .ok (0, s')) : GotMessage s s' A B a := by
  obtain ⟨rfl, rfl, rfl, rfl⟩ := hno
  obtain ⟨s₁, -, hpage, hnone, rfl⟩ := sysIpcTrySend_zero hargs h
  have hcase : s₁ = s ∨ ∃ d pg m, (s.envs B).envIpcDstva < UTOP ∧ s.dirs B = some d ∧ IsFlags a.a4 ∧
      pageInsert s.mem d pg (s.envs B).envIpcDstva a.a4 = .ok (0, m) ∧
      s₁ = { s with mem := m }.setEnv B { s.envs B with envIpcPerm := a.a4 } := by
    by_cases hva : a.a3 < UTOP
    · rcases ipcSendPage_zero (hpage hva) with ⟨-, hsame⟩ | ⟨d, pg, m, hdst, hd, hf, -, hins, hs₁⟩
      · exact .inl hsame
      · exact .inr ⟨d, pg, m, hdst, hd, hf, hins, hs₁⟩
    · exact .inl (hnone hva)
  have hspaces := sameSpaces_deliver s₁ A B a.a2
  rcases hcase with rfl | ⟨d, pg, m, hdst, hd, hf, hins, rfl⟩
  · refine ⟨⟨_, .inl rfl, ?_⟩, fun va _ _ => hspaces.translateOf⟩
    have henv : (ipcDeliver s₁ A B a.a2).envs B =
      (s₁.envs B).received (s₁.envs A).envId a.a2 (s₁.envs B).envIpcPerm :=
        Function.update_self _ _ _
    rw [henv]
    exact .refl _
  · refine ⟨⟨_, .inr rfl, ?_⟩, fun va hva hne => ?_⟩
    · have henv : (ipcDeliver ({ s with mem := m }.setEnv B { s.envs B with envIpcPerm := a.a4 }) A
          B a.a2).envs B =
          (s.envs B).received (s.envs A).envId a.a2 a.a4 := by
        simp [ipcDeliver, KState.setEnv, KState.log, Env.received, Function.update_of_ne hA.symm]
      rw [henv]
      exact .refl _
    · have hdirs : SameSpaces { s with mem := m }
        ({ s with mem := m }.setEnv B { s.envs B with envIpcPerm := a.a4 }) :=
        sameSpaces_setEnv { s with mem := m } B { s.envs B with envIpcPerm := a.a4 } rfl
      rw [(hdirs.trans hspaces).translateOf, translateOf, translateOf,
        show KState.dirs { s with mem := m } B = s.dirs B from rfl, hd]
      refine translate_pageInsert_other hl.list ⟨hl.used d (.inl ⟨B, hd⟩), fun i hi t ht => ?_⟩
        (fun i hi hn => ?_) hf hins
        hdst hva (hne hdst d hd)
      · exact hl.used t (.inr ⟨B, i, d, hd, hi, ht⟩)
      · exact hun.table_dir B B i d ⟨d, hd, hi, hn⟩ hd

/-! ### Other environments, and the one that `sys_exofork` takes -/

/-- Nothing of `B` has changed but fields of the scheduler. -/
structure Untouched (s s' : KState) (B : ℕ) : Prop where
  record : (s.envs B).Kept (s'.envs B)
  space : ∀ va < UTOP, translateOf s' B va = translateOf s B va

/-- The system call `a` by `A` has left `B` alone, or has sent it a message. -/
def Confined (s : KState) (ev : Event) (c A : ℕ) (a : SysArgs) (s' : KState) (B : ℕ) : Prop :=
  Untouched s s' B ∨ (∃ s₁ s₂, SendsZero s ev c A B a s₁ s₂) ∧ GotMessage s s' A B a

theorem Untouched.trans (h : Untouched s s₁ B) (h' : Untouched s₁ s' B) : Untouched s s' B :=
  ⟨h.record.trans h'.record, fun va hva => (h'.space va hva).trans (h.space va hva)⟩

theorem GotMessage.trans (h : GotMessage s s₁ A B a) (h' : Untouched s₁ s' B) :
    GotMessage s s' A B a := by
  obtain ⟨⟨perm, hperm, hrec⟩, hspace⟩ := h
  exact ⟨⟨perm, hperm, hrec.trans h'.record⟩, fun va hva hne =>
    (h'.space va hva).trans (hspace va hva hne)⟩

/-- The call itself, from the state it starts in. -/
theorem syscall_confined (hcur : s.curenv c = some A) (hun : Unshared s.mem.phys s.dirs)
    (hl : Apart s l)
    (hforeign : Foreign s A B) (htakes : ¬ Takes s a B) (h : syscall s c A a = .ok (r, s')) :
    Untouched s s' B ∨
      (SysNo.ofWord a.no = some .ipcTrySend ∧ ipcSendArgs s A a.a1 = .ok B ∧ r = 0) ∧
          GotMessage s s' A B a := by
  by_cases hrecv : SysNo.ofWord a.no = some .ipcTrySend ∧ ipcSendArgs s A a.a1 = .ok B
  · obtain ⟨hno, hargs⟩ := hrecv
    rw [syscall, hno] at h
    have h := liftStop_eq_ok.mp h
    by_cases hr : r = 0
    · subst hr
      exact .inr ⟨⟨hno, hargs, rfl⟩, sysIpcTrySend_gotMessage hl hun hforeign.1
        ⟨rfl, rfl, rfl, rfl⟩ hargs h⟩
    · rw [sysIpcTrySend_fails h hr]
      exact .inl ⟨.refl _, fun _ _ => rfl⟩
  · have henv := syscall_envs hcur hforeign htakes hrecv h
    have hdir : s'.dirs B = s.dirs B := congrArg Env.envPgdir henv
    have htarget : ¬ Target s A a B := by
      rintro (⟨envid, he⟩ | hrecv')
      · exact hforeign.ne he rfl
      · exact hrecv hrecv'
    refine .inl ⟨by rw [henv]; exact .refl _, fun va hva => ?_⟩
    exact (syscall_affects hl h).translateOf hl hun hdir htarget hva

/-- A call that does not return. -/
theorem syscall_gone_untouched (hcur : s.curenv c = some A) (hun : Unshared s.mem.phys s.dirs)
    (hl : Apart s l)
    (hforeign : Foreign s A B) (h : syscall s c A a = .error (.gone s')) : Untouched s s' B := by
  have hkept := syscall_gone_kept hcur hforeign.1 h
  have hdir : s'.dirs B = s.dirs B := by
    obtain ⟨st, runs, cpu, -, henv⟩ := hkept
    rw [KState.dirs, henv]
    rfl
  have htarget : ¬ Target s A a B := by
    rintro (⟨envid, he⟩ | ⟨hno, -⟩)
    · exact hforeign.ne he rfl
    · rw [syscall, hno] at h
      exact liftStop_ne_gone h
  exact ⟨hkept, fun va hva => (syscall_gone_affects h).translateOf hl hun hdir htarget hva⟩

/-- A system call that does not give the slot of `B` away. -/
theorem SysCall.confined (hcall : SysCall s ev c A a s₁) (hs : JOS.step s ev = some s')
    (hun : Unshared s.mem.phys s.dirs)
    (hl : Apart s l) (hforeign : Foreign s A B) (htakes : ¬ Takes s a B) :
    Confined s ev c A a s' B := by
  have hspaces := hcall.spaces
  have hcur : s₁.curenv c = some A := hcall.table_curenv
  have henvB : s₁.envs B = s.envs B := by
    obtain ⟨trap, -, -, -, -, -, rfl⟩ := hcall
    exact Function.update_of_ne hforeign.1 _ _
  have hforeign₁ : Foreign s₁ A B := by
    rw [Foreign, henvB, hcall.envId]
    exact hforeign
  have htakes₁ : ¬ Takes s₁ a B := by
    rw [Takes, hcall.envFreeList, hspaces.1]
    exact htakes
  have hun₁ : Unshared s₁.mem.phys s₁.dirs := by
    rw [hspaces.1, hspaces.2]
    exact hun
  have hstart : Untouched s s₁ B := ⟨by rw [henvB]; exact .refl _, fun _ _ => hspaces.translateOf⟩
  rcases hcall.step_cases hs with hgone | ⟨r, s₂, hr, hret⟩
  · exact .inl (hstart.trans (syscall_gone_untouched hcur hun₁ (hl.same hspaces) hforeign₁ hgone))
  · -- the result goes to `eax` of `A`, and `trap` ends
    have hend : Untouched s₂ s' B := by
      have hkept := trapReturn_kept hret B
      have henv : (returned s₂ A r).envs B = s₂.envs B := Function.update_of_ne hforeign.1 _ _
      rw [henv] at hkept
      exact ⟨hkept, fun va _ =>
        ((sameSpaces_returned s₂ A r).trans (trapReturn_spaces hret)).translateOf⟩
    rcases syscall_confined hcur hun₁ (hl.same hspaces) hforeign₁ htakes₁ hr with hunt |
      ⟨⟨hno, hargs, rfl⟩, hgot⟩
    · exact .inl (hstart.trans (hunt.trans hend))
    · refine .inr ⟨⟨s₁, s₂, hcall, hno, hargs, hr⟩, ?_⟩
      obtain ⟨hrec, hspace⟩ := hgot.trans hend
      rw [henvB, hcall.envId] at hrec
      rw [henvB, hspaces.1, hspaces.2] at hspace
      refine ⟨hrec, fun va hva hne => (hspace va hva hne).trans hspaces.translateOf⟩

/-- `sys_exofork` changes the id of the slot it takes. -/
theorem Takes.not_confined (h : Takes s a B) (hcall : SysCall s ev c A a s₁)
    (hs : step s ev = some s') (hB : B < NENV)
    (hforeign : Foreign s A B) : ¬ Confined s ev c A a s' B := by
  obtain ⟨hno, hfl, hp⟩ := h
  have hfork : ∀ {lv}, syscall s₁ c A a ≠ .error (.gone lv) := by
    intro lv hgone
    rw [syscall, hno] at hgone
    exact liftStop_ne_gone hgone
  rcases hcall.step_cases hs with hgone | ⟨r, s₂, hr, hret⟩
  · exact absurd hgone hfork
  have henvB : s₁.envs B = s.envs B := by
    obtain ⟨trap, -, -, -, -, -, rfl⟩ := hcall
    exact Function.update_of_ne hforeign.1 _ _
  rw [syscall, hno] at hr
  have hid := sysExofork_takes (liftStop_eq_ok.mp hr) (hcall.envFreeList.trans hfl)
    (by rw [hcall.spaces.1]; exact hp)
  have hkept := trapReturn_kept hret B
  have henv : (returned s₂ A r).envs B = s₂.envs B := Function.update_of_ne hforeign.1 _ _
  rw [henv] at hkept
  have hid' : (s'.envs B).envId = nextEnvId (s.envs B).envId B := by
    obtain ⟨st, runs, cpu, -, heq⟩ := hkept
    rw [heq, ← henvB]
    exact hid
  rintro (hunt | ⟨⟨s₃, s₄, -, hsend, -⟩, -⟩)
  · obtain ⟨st, runs, cpu, -, heq⟩ := hunt.record
    refine nextEnvId_ne (s.envs B).envId hB ?_
    rw [← hid', heq]
  · rw [hno] at hsend
    cases hsend

/-- **A system call affects its caller, the caller's children and receivers only**, exactly when it
does not give the slot of another live environment away. -/
theorem confined_iff (hcall : SysCall s ev c A a s₁) (hs : step s ev = some s')
    (hun : Unshared s.mem.phys s.dirs)
    (hl : Apart s l) :
    (∀ B < NENV, s.status B ≠ .free → Foreign s A B → Confined s ev c A a s' B) ↔
      ∀ B < NENV, s.status B ≠ .free → Foreign s A B → ¬ Takes s a B := by
  constructor
  · exact fun h B hB hlive hforeign htakes =>
      htakes.not_confined hcall hs hB hforeign (h B hB hlive hforeign)
  · exact fun h B hB hlive hforeign => hcall.confined hs hun hl hforeign (h B hB hlive hforeign)

/-- The system call of the first of two environments. -/
theorem twoSpaces_sysCall (fl : Option ℕ) (no : Word) :
    SysCall { twoSpaces 0 with envFreeList := fl }
    (.trap 0 (sysTrap no 0 0 0 0 0)) 0 0 (sysTrap no 0 0 0 0 0).args
    (trapEntry (KState.reset { twoSpaces 0 with envFreeList := fl }) 0 0 (sysTrap no 0 0 0 0 0)) :=
  ⟨_, rfl, rfl, by simp [twoSpaces, KState.status], rfl, rfl, rfl⟩

/-- `sys_exofork` by one of two environments, with a slot that is free. -/
theorem confined_iff_twoSpaces : ∃ s',
    step (twoSpaces 0) (.trap 0 (sysTrap 7 0 0 0 0 0)) = some s' ∧
    ∀ B < NENV, (twoSpaces 0).status B ≠ .free → Foreign (twoSpaces 0) 0 B →
      Confined (twoSpaces 0) (.trap 0 (sysTrap 7 0 0 0 0 0)) 0 0
        (sysTrap 7 0 0 0 0 0).args s' B := by
  have hrun : ((step (twoSpaces 0) (.trap 0 (sysTrap 7 0 0 0 0 0))).map fun s' => s'.curenv 0) =
      some (some 0) := by
    decide +kernel
  obtain ⟨s', hs, -⟩ := Option.map_eq_some_iff.mp hrun
  obtain ⟨l, hl, -⟩ := (twoSpaces_freeApart (w := 0) fun t ht => absurd ht (not_names_zero t)).free
  refine ⟨s', hs, (confined_iff (twoSpaces_sysCall (some 2) 7) hs twoSpaces_unshared hl).mpr ?_⟩
  rintro B - hlive - ⟨-, hfl, -⟩
  cases hfl
  exact hlive (by simp [twoSpaces, KState.status, unusedEnv])

/-- Two programs run on two CPUs. The first forks a child, which runs on a third CPU, and destroys
it twice: the child is on the list of free environments while it runs. Then the child makes itself
`ENV_NOT_RUNNABLE`. -/
def liveHeadRun : List Event :=
  [.create 0 emptyElf, .create 0 emptyElf, .start 0, .start 1, .trap 0 (sysTrap 7 0 0 0 0 0),
    .trap 0 (sysTrap 8 0x1002 2 0 0 0), .start 2, .trap 0 (sysTrap 3 0x1002 0 0 0 0),
    .trap 0 (sysTrap 3 0x1002 0 0 0 0),
    .trap 2 (sysTrap 8 0 4 0 0 0)]

/-- **A live environment can be the first of the free ones**, and a `sys_exofork` by a stranger
takes its slot. A run leads to such a state. -/
theorem not_confined : (¬ ∀ s ev c A a s₁ s' l B, SysCall s ev c A a s₁ → step s ev = some s' →
      Unshared s.mem.phys s.dirs → Apart s l → B < NENV → s.status B ≠ .free → Foreign s A B →
      Confined s ev c A a s' B) ∧
    ∃ s s', Reach step (fun _ _ => True) (bootState 3) s ∧ s.status 2 ≠ .free ∧ Foreign s 1 2 ∧
      step s (.trap 1 (sysTrap 7 0 0 0 0 0)) = some s' ∧ (s'.envs 2).envId ≠ (s.envs 2).envId := by
  refine ⟨fun hall => ?_, ?_⟩
  · have hrun : ((step { twoSpaces 0 with envFreeList := some 1 }
        (.trap 0 (sysTrap 7 0 0 0 0 0))).map fun s' =>
        s'.curenv 0) = some (some 0) := by decide +kernel
    obtain ⟨s', hs, -⟩ := Option.map_eq_some_iff.mp hrun
    obtain ⟨l, hl, -⟩ := (twoSpaces_freeApart (w := 0) fun t ht =>
      absurd ht (not_names_zero t)).free
    have hcall := twoSpaces_sysCall (some 1) 7
    have hforeign : Foreign { twoSpaces 0 with envFreeList := some 1 } 0 1 := by
      simp [Foreign, twoSpaces, unusedEnv]
    have htakes : Takes { twoSpaces 0 with envFreeList := some 1 }
        (sysTrap 7 0 0 0 0 0).args 1 := by
      refine ⟨by decide, rfl, by simp [twoSpaces]⟩
    exact htakes.not_confined hcall hs (by decide) hforeign
      (hall _ _ _ _ _ _ s' l 1 hcall hs twoSpaces_unshared
      (hl.same ⟨rfl, rfl⟩) (by decide) (by simp [twoSpaces, KState.status]) hforeign)
  · have hrun : ((liveHeadRun.foldlM step (bootState 3)).bind fun s =>
        (step s (.trap 1 (sysTrap 7 0 0 0 0 0))).map fun s' =>
          (s.status 2, (s.envs 2).envParentId == (s.envs 1).envId,
            (s'.envs 2).envId == (s.envs 2).envId)) =
            some (.notRunnable, false, false) := by decide +kernel
    obtain ⟨s, hs, hrun⟩ := Option.bind_eq_some_iff.mp hrun
    obtain ⟨s', hs', hend⟩ := Option.map_eq_some_iff.mp hrun
    simp only [Prod.mk.injEq, beq_eq_false_iff_ne] at hend
    refine ⟨s, s', Reach.of_foldlM hs fun _ _ _ => trivial, ?_, ⟨by decide, hend.2.1⟩,
      hs', hend.2.2⟩
    rw [hend.1]
    decide

end JOS
