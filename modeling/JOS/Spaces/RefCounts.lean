import JOS.Spaces.Work
import JOS.Spaces.Refs
import JOS.Spaces.Total
import JOS.Spaces.Checked
import JOS.Calls.Failure
import Mathlib.Order.Interval.Finset.Nat

/-!
# Exact reference counts

The calls that map pages and move references, and `sys_ipc_recv`, by any environments in any order,
from the state that `mem_init` leaves (`memStep`). While they look up entries that are present and
no page is mapped more than 65535 times, `pp_ref` of a page that `page_alloc` can hand out is the
number of references to the page, and a free page has none (`exactRefs_of_reach`).

`pp_ref` has sixteen bits, and nothing keeps a program from mapping a page at 65536 addresses. The
last of these mappings makes `pp_ref` zero (`not_exactRefs`).
-/

namespace JOS

open JOS.General

open Function (update)

/-! ### The calls -/

/-- A call that moves references, or lets another one do so; `cur` is the environment that makes
it. -/
inductive MemCall where
  | pageAlloc (cur : ℕ) (envid va perm : Word)
  | pageMap (cur : ℕ) (srcenvid srcva dstenvid dstva perm : Word)
  | pageUnmap (cur : ℕ) (envid va : Word)
  | ipcTrySend (cur : ℕ) (envid value srcva perm : Word)
  | ipcRecv (cur : ℕ) (dstva : Word)
  | exofork (cur : ℕ)
  | envAlloc (parentId : Word)
  | envFree (c e : ℕ)

/-- What a call leaves, unless the kernel stops in it; `sys_ipc_recv` goes on to `sched_yield` from
there. -/
def memStep (s : KState) : MemCall → Option KState
  | .pageAlloc cur envid va perm => (sysPageAlloc s cur envid va perm).toOption.map Prod.snd
  | .pageMap cur srcenvid srcva dstenvid dstva perm =>
    (sysPageMap s cur srcenvid srcva dstenvid dstva perm).toOption.map Prod.snd
  | .pageUnmap cur envid va => (sysPageUnmap s cur envid va).toOption.map Prod.snd
  | .ipcTrySend cur envid value srcva perm =>
    (sysIpcTrySend s cur envid value srcva perm).toOption.map Prod.snd
  | .ipcRecv cur dstva => some (if dstva < UTOP ∧ PGOFF dstva ≠ 0 then s else blocked s cur dstva)
  | .exofork cur => (sysExofork s cur).toOption.map Prod.snd
  | .envAlloc parentId => (envAlloc s parentId).toOption.map Prod.snd
  | .envFree c e => (envFree s c e).toOption

/-- `sys_ipc_recv` returns an error, or goes to `sched_yield`, which moves no references either
(`schedYield_spaces`). -/
theorem sysIpcRecv_memStep {s s' : KState} {c cur : ℕ} {dstva : Word}
    (h : memStep s (.ipcRecv cur dstva) = some s') :
    sysIpcRecv s c cur dstva = .ok (-E_INVAL, s) ∧ s' = s ∨
        sysIpcRecv s c cur dstva = .error (schedYield s' c) := by
  simp only [memStep, Option.some.injEq] at h
  rw [sysIpcRecv]
  split_ifs at h ⊢
  · exact .inl ⟨rfl, h.symm⟩
  · exact .inr (h ▸ rfl)

/-- The addresses that a call hands to `page_lookup` or `page_remove`. `page_insert` and `env_free`
call `page_remove` too, but only for entries that they have found present. -/
def HandsOver (s : KState) : MemCall → ℕ → Word → Prop
  | .pageMap cur srcenvid srcva dstenvid dstva perm, e, va =>
    va = srcva ∧ ∃ e', pageMapArgs s cur srcenvid srcva dstenvid dstva perm = .ok (e, e')
  | .pageUnmap cur envid va', e, va => va = va' ∧ envid2env s cur envid true = some e ∧
      vaOk va = true
  | .ipcTrySend cur envid _ srcva _, e, va =>
    va = srcva ∧ e = cur ∧ va < UTOP ∧ ∃ e', ipcSendArgs s cur envid = .ok e'
  | _, _, _ => False

/-- Every address that is handed to `page_lookup` or `page_remove` has a present entry. -/
def PresentLookups (s : KState) (call : MemCall) : Prop :=
  ∀ e va, HandsOver s call e va → test (s.upte e (PGNUM va)) PTE_P = true

/-- A call maps the page at `va` of `e` at `va'` of `e'`. -/
def MapsAgain (s : KState) : MemCall → ℕ → Word → ℕ → Word → Prop
  | .pageMap cur srcenvid srcva dstenvid dstva perm, e, va, e', va' =>
    va = srcva ∧ va' = dstva ∧ pageMapArgs s cur srcenvid srcva dstenvid dstva perm = .ok (e, e')
  | .ipcTrySend cur envid _ srcva perm, e, va, e', va' =>
    va = srcva ∧ e = cur ∧ va < UTOP ∧ ipcSendArgs s cur envid = .ok e' ∧
      va' = (s.envs e').envIpcDstva ∧
      va' < UTOP ∧ ipcPageOk (s.upte cur (PGNUM srcva)) srcva perm = true
  | _, _, _, _, _ => False

/-- A page that is mapped 65535 times is not mapped at another place. -/
def CountFits (s : KState) (call : MemCall) : Prop :=
  ∀ e va e' va' p, MapsAgain s call e va e' va' →
  Names (s.upte e (PGNUM va)) p → mapCount s.upte p < 65535 ∨ Names (s.upte e' (PGNUM va')) p

/-! ### Exact counts -/

/-- The references to a page: the present entries below `UTOP`, the entries of page directories
there, and `env_pgdir`. -/
noncomputable def references (s : KState) (p : ℕ) : ℕ :=
  mapCount s.upte p + pdeRefs s.mem.phys s.dirs p + dirRefs s.dirs p

/-- Counts are exact, in a run from `s₀` to `s`; what `page_alloc` hands out has been free in
`s₀`. -/
structure ExactRefs (s₀ s : KState) : Prop where
  counted : ∀ p, s₀.mem.OnFreeList p → (s.mem.ref p).toNat = references s p
  free : ∀ p, s.mem.OnFreeList p → references s p = 0

section Counts

variable {s : KState} {k : ℕ → Kind} {e i p : ℕ}

theorem onFreeList_iff (hx : (s.vmState k).Sound) : s.mem.OnFreeList p ↔ k p = .free := by
  obtain ⟨l, hl, hmem⟩ := hx.vm.pool.free
  have hl : Chain s.mem.link s.mem.pageFreeList l := hl
  rw [Mem.OnFreeList, hl.onChain_iff, hmem]
  rfl

theorem mapCount_of_not_data (hx : (s.vmState k).Sound) (hp : k p ≠ .data) :
    mapCount s.upte p = 0 :=
  mapCount_eq_zero fun _ _ hn => hp (hx.vm.tables.data_of_names hn)

theorem pdeRefs_eq_zero (hx : (s.vmState k).Sound) (hp : ∀ e i, k p ≠ .table e i) :
    pdeRefs s.mem.phys s.dirs p = 0 := by
  refine card_filter_eq_zero fun y hy => ?_
  rintro ⟨d, hd, hn⟩
  have htable : k (PGNUM (s.mem.phys d y.2)) = .table y.1 y.2 :=
    hx.vm.tables.pde y.1 d y.2 hd (mem_dirEntries.mp hy).2 hn.1
  rw [hn.2] at htable
  exact hp _ _ htable

theorem dirRefs_eq_zero (hx : (s.vmState k).Sound) (hp : ∀ e, k p ≠ .dir e) :
    dirRefs s.dirs p = 0 :=
  card_filter_eq_zero fun e _ hd => hp e ((hx.vm.tables.dir e p).mp hd)

theorem lt_of_dirs {d : ℕ} (hx : (s.vmState k).Sound) (hd : s.dirs e = some d) : e < NENV :=
  hx.vm.tables.bound e (by rw [show (s.vmState
    k).dirs e = some d from hd]; exact Option.some_ne_none d)

/-- A table is named by its entry in the directory. -/
theorem pdeRefs_eq_one (hx : (s.vmState k).Sound) (hp : k p = .table e i) :
    pdeRefs s.mem.phys s.dirs p = 1 := by
  obtain ⟨hi, d, hd, hn⟩ := hx.vm.tables.table p e i hp
  have he : e < NENV := lt_of_dirs hx hd
  refine card_filter_eq_one (i := (e, i)) (mem_dirEntries.mpr ⟨he, hi⟩) ⟨d, hd, hn⟩ ?_
  rintro ⟨e', i'⟩ hy ⟨d', hd', hn'⟩
  have htable : k (PGNUM (s.mem.phys d' i')) = .table e' i' :=
    hx.vm.tables.pde e' d' i' hd' (mem_dirEntries.mp hy).2 hn'.1
  rw [hn'.2, hp] at htable
  cases htable
  rfl

/-- A directory is that of one environment. -/
theorem dirRefs_eq_one (hx : (s.vmState k).Sound) (hp : k p = .dir e) : dirRefs s.dirs p = 1 := by
  have hd : s.dirs e = some p := (hx.vm.tables.dir e p).mpr hp
  have he : e < NENV := lt_of_dirs hx hd
  refine card_filter_eq_one (Finset.mem_range.mpr he) hd fun e' _ hd' => ?_
  have hdir : k p = .dir e' := (hx.vm.tables.dir e' p).mp hd'
  rw [hp] at hdir
  cases hdir
  rfl

/-- **Counts are exact** when address spaces are sound and no page has been put aside. -/
theorem exactRefs_of_sound {s₀ : KState} (hx : (s.vmState k).Sound)
    (hout : ∀ p, s₀.mem.OnFreeList p → ¬ (k p).Aside) : ExactRefs s₀ s := by
  have hone : ∀ {p}, (k p).Single → (s.mem.ref p).toNat = 1 :=
    fun hp => congrArg BitVec.toNat (hx.vm.pool.one _ hp)
  have hzero : ∀ {p}, k p = .free → references s p = 0 := fun hk => by
    rw [references, mapCount_of_not_data hx (by simp [hk]), pdeRefs_eq_zero hx (by simp [hk]),
      dirRefs_eq_zero hx (by simp [hk])]
  refine ⟨fun p hp => ?_, fun p hp => hzero ((onFreeList_iff hx).mp hp)⟩
  have haside := hout p hp
  cases hk : k p with
  | free =>
    rw [hzero hk]
    exact congrArg BitVec.toNat (hx.vm.pool.zero p hk)
  | reserved | kern | held =>
    rw [hk] at haside
    exact absurd trivial haside
  | data =>
    have hcount : s.mem.ref p = BitVec.ofNat 16 (mapCount s.upte p) := hx.vm.count p hk
    have hsmall : mapCount s.upte p < 65536 := hx.small p
    rw [references, pdeRefs_eq_zero hx (by simp [hk]), dirRefs_eq_zero hx (by simp [hk]), hcount,
      BitVec.toNat_ofNat]
    generalize mapCount s.upte p = n at hsmall
    omega
  | table e i =>
    rw [references, mapCount_of_not_data hx (by simp [hk]), pdeRefs_eq_one hx hk,
      dirRefs_eq_zero hx (by simp [hk])]
    exact hone (by rw [hk]; trivial)
  | dir e =>
    rw [references, mapCount_of_not_data hx (by simp [hk]), pdeRefs_eq_zero hx (by simp [hk]),
      dirRefs_eq_one hx hk]
    exact hone (by rw [hk]; trivial)

end Counts

/-! ### Runs -/

/-- What holds in every state of a run from `s₀`. -/
structure CountState (s₀ s : KState) : Prop where
  /-- The address spaces are sound, and no page that was free has been put aside. -/
  sound : ∃ k, (s.vmState k).Sound ∧ ∀ p, s₀.mem.OnFreeList p → ¬ (k p).Aside
  free : FreeOk s.procs
  table : InTable s.procs

variable {s₀ s s' : KState} {k k' : ℕ → Kind} {call : MemCall} {d e : ℕ} {va r : Word}

theorem CountState.freeHead (h : CountState s₀ s) : FreeHead s := by
  intro e he
  refine ⟨h.table.head e he, ?_⟩
  have hlive : (s.dirs e).isSome = false := h.free.head he
  exact Option.not_isSome_iff_eq_none.mp (by rw [hlive]; simp)

theorem Booted.countState (h : Booted s₀) : CountState s₀ s₀ := by
  have hdirs : s₀.dirs = fun _ => none := funext fun e => (h.envs e).2
  have hx : (s₀.vmState (bootKind s₀.mem)).Sound := by
    rw [KState.vmState, hdirs]
    exact h.mem.sound
  refine ⟨⟨_, hx, fun p hp => ?_⟩, h.freeOk, h.inTable⟩
  rw [(onFreeList_iff hx).mp hp]
  exact fun h => h

theorem toOption_eq_some {α : Type} {x : Except Stop α} {y : α} : x.toOption = some y ↔
    x = .ok y := by
  cases x <;> simp [Except.toOption]

theorem toOption_map_snd {α β : Type} {x : Except Stop (α × β)} {y : β} :
    x.toOption.map Prod.snd = some y ↔ ∃ r, x = .ok (r, y) := by
  cases x <;> simp [Except.toOption, Prod.ext_iff]

/-- **A call does one operation**, when it looks up present entries and counts fit. -/
theorem memStep_does (hx : (s.vmState k).Sound) (hfree : FreeHead s) (hlook : PresentLookups s call)
    (hfits : CountFits s call) (h : memStep s call = some s') : ∃ op k',
    Does (s.vmState k) op (s'.vmState k') := by
  have hkeep : (∃ k', Does (s.vmState k) .keep (s'.vmState k')) → ∃ op k',
    Does (s.vmState k) op (s'.vmState k') :=
    fun ⟨k', hdoes⟩ => ⟨_, k', hdoes⟩
  cases call with
  | pageAlloc cur envid va perm =>
    obtain ⟨r, h⟩ := toOption_map_snd.mp h
    rcases sysPageAlloc_does hx h with hsame | ⟨e, k', -, -, -, hdoes⟩
    · exact hkeep hsame
    · exact ⟨_, k', hdoes⟩
  | pageMap cur srcenvid srcva dstenvid dstva perm =>
    obtain ⟨r, h⟩ := toOption_map_snd.mp h
    have hne : ∀ e₁ e₂ d, pageMapArgs s cur srcenvid srcva dstenvid dstva perm = .ok (e₁, e₂) →
        s.dirs e₁ = some d →
        ¬ EmptyEntry s.mem d srcva := fun e₁ e₂ d hargs hd =>
      not_emptyEntry hd (vaOk_lt (pageMapArgs_ok hargs).1) (hlook e₁ srcva ⟨rfl, e₂, hargs⟩)
    have hroom : ∀ e₁ e₂ p, pageMapArgs s cur srcenvid srcva dstenvid dstva perm = .ok (e₁, e₂) →
        Names (s.upte e₁ (PGNUM srcva)) p → mapCount s.upte p < 65535 ∨
        Names (s.upte e₂ (PGNUM dstva)) p :=
      fun e₁ e₂ p hargs => hfits e₁ srcva e₂ dstva p ⟨rfl, rfl, hargs⟩
    rcases sysPageMap_does hx hne hroom h with hsame | ⟨e₁, e₂, k', -, hdoes⟩
    · exact hkeep hsame
    · exact ⟨_, k', hdoes⟩
  | pageUnmap cur envid va =>
    obtain ⟨r, h⟩ := toOption_map_snd.mp h
    have hne : ∀ e d, envid2env s cur envid true = some e → vaOk va = true → s.dirs e = some d →
        ¬ EmptyEntry s.mem d va := fun e d henv hva hd =>
      not_emptyEntry hd (vaOk_lt hva) (hlook e va ⟨rfl, henv, hva⟩)
    rcases sysPageUnmap_does hx hne h with hsame | ⟨e, k', -, -, hdoes⟩
    · exact hkeep hsame
    · exact ⟨_, k', hdoes⟩
  | ipcTrySend cur envid value srcva perm =>
    obtain ⟨r, h⟩ := toOption_map_snd.mp h
    have hne : ∀ e d, ipcSendArgs s cur envid = .ok e → srcva < UTOP → s.dirs cur = some d →
        ¬ EmptyEntry s.mem d srcva := fun e d hargs hva hd =>
      not_emptyEntry hd hva (hlook cur srcva ⟨rfl, rfl, hva, e, hargs⟩)
    have hroom : ∀ e p, ipcSendArgs s cur envid = .ok e → srcva < UTOP →
        (s.envs e).envIpcDstva < UTOP →
        ipcPageOk (s.upte cur (PGNUM srcva)) srcva perm = true →
        Names (s.upte cur (PGNUM srcva)) p →
        mapCount s.upte p < 65535 ∨ Names (s.upte e (PGNUM (s.envs e).envIpcDstva)) p :=
      fun e p hargs hva hdst hok => hfits cur srcva e _ p ⟨rfl, rfl, hva, hargs, rfl, hdst, hok⟩
    rcases sysIpcTrySend_does hx hne hroom h with hsame | ⟨e, k', -, -, -, -, hdoes⟩
    · exact hkeep hsame
    · exact ⟨_, k', hdoes⟩
  | ipcRecv cur dstva =>
    simp only [memStep, Option.some.injEq] at h
    split_ifs at h
    · exact hkeep ⟨k, h ▸ Does.refl hx⟩
    · exact hkeep ⟨k, h ▸ (Does.refl hx).same (sameSpaces_blocked s cur dstva)⟩
  | exofork cur =>
    obtain ⟨r, h⟩ := toOption_map_snd.mp h
    rcases sysExofork_does hx hfree h with hsame | ⟨e, k', -, hdoes⟩
    · exact hkeep hsame
    · exact ⟨_, k', hdoes⟩
  | envAlloc parentId =>
    obtain ⟨r, h⟩ := toOption_map_snd.mp h
    rcases envAlloc_does hx hfree h with ⟨-, hsame⟩ | ⟨e, k', -, -, hdoes⟩
    · exact hkeep hsame
    · exact ⟨_, k', hdoes⟩
  | envFree c e =>
    obtain ⟨k', hdoes⟩ := envFree_does hx (toOption_eq_some.mp h)
    exact ⟨_, k', hdoes⟩

/-- **A call changes the list of free environments** as one act does, if it does. -/
theorem memStep_procs (h : memStep s call = some s') : s'.procs = s.procs ∨
    (∃ e st, s.envFreeList = some e ∧ s'.procs = s.procs.act (.alloc e st)) ∨
    (∃ c e, s.procs.live e = true ∧ s'.procs = s.procs.act (.free c e)) ∨
    ∃ e, s'.procs = s.procs.act (.ipc e) ∨ s'.procs = s.procs.act (.block e) := by
  cases call with
  | pageAlloc cur envid va perm =>
    obtain ⟨r, h⟩ := toOption_map_snd.mp h
    exact .inl (sysPageAlloc_memOnly h).quiet.1
  | pageMap cur srcenvid srcva dstenvid dstva perm =>
    obtain ⟨r, h⟩ := toOption_map_snd.mp h
    exact .inl (sysPageMap_memOnly h).quiet.1
  | pageUnmap cur envid va =>
    obtain ⟨r, h⟩ := toOption_map_snd.mp h
    exact .inl (sysPageUnmap_memOnly h).quiet.1
  | ipcTrySend cur envid value srcva perm =>
    obtain ⟨r, h⟩ := toOption_map_snd.mp h
    rcases sysIpcTrySend_acts h with hquiet | ⟨e, -, -, hacts⟩
    · exact .inl hquiet.1
    · exact .inr (.inr (.inr ⟨e, .inl hacts.1⟩))
  | ipcRecv cur dstva =>
    simp only [memStep, Option.some.injEq] at h
    split_ifs at h
    · exact .inl (congrArg KState.procs h.symm)
    · exact .inr (.inr (.inr ⟨cur, .inr (h ▸ (blocked_acts s cur dstva).1)⟩))
  | exofork cur =>
    obtain ⟨r, h⟩ := toOption_map_snd.mp h
    rcases sysExofork_acts h with hquiet | ⟨e, hfl, hacts⟩
    · exact .inl hquiet.1
    · exact .inr (.inl ⟨e, _, hfl, hacts.1⟩)
  | envAlloc parentId =>
    obtain ⟨r, h⟩ := toOption_map_snd.mp h
    rcases envAlloc_procs h with ⟨-, hquiet⟩ | ⟨e, -, hfl, hprocs, -⟩
    · exact .inl hquiet.1
    · exact .inr (.inl ⟨e, _, hfl, hprocs⟩)
  | envFree c e =>
    obtain ⟨hacts, hlive⟩ := envFree_acts (toOption_eq_some.mp h)
    exact .inr (.inr (.inl ⟨c, e, hlive, hacts.1⟩))

/-- **A call keeps the invariant.** -/
theorem CountState.step (h : CountState s₀ s) (hlook : PresentLookups s call)
    (hfits : CountFits s call)
    (hs : memStep s call = some s') : CountState s₀ s' := by
  obtain ⟨k, hx, hout⟩ := h.sound
  obtain ⟨op, k', hdoes⟩ := memStep_does hx h.freeHead hlook hfits hs
  have hsound : ∃ k, (s'.vmState k).Sound ∧ ∀ p, s₀.mem.OnFreeList p → ¬ (k p).Aside :=
    ⟨k', hdoes.sound hx, fun p hp haside => hout p hp (hdoes.aside haside)⟩
  rcases memStep_procs hs with hprocs | ⟨e, st, hfl, hprocs⟩ | ⟨c, e, hlive, hprocs⟩ |
    ⟨e, hprocs | hprocs⟩
  · exact ⟨hsound, by rw [hprocs]; exact h.free, by rw [hprocs]; exact h.table⟩
  · exact ⟨hsound, by rw [hprocs]; exact h.free.alloc hfl, by rw [hprocs]; exact h.table.alloc hfl⟩
  · obtain ⟨d, hd⟩ := Option.isSome_iff_exists.mp hlive
    have he : e < NENV := lt_of_dirs hx hd
    exact ⟨hsound, by rw [hprocs]; exact h.free.free hlive, by rw [hprocs]; exact h.table.free he⟩
  -- `sys_ipc_try_send` and `sys_ipc_recv` set a status
  · exact ⟨hsound, by rw [hprocs]; exact h.free, by rw [hprocs]; exact ⟨h.table.head, h.table.link⟩⟩
  · exact ⟨hsound, by rw [hprocs]; exact h.free, by rw [hprocs]; exact ⟨h.table.head, h.table.link⟩⟩

/-- **Counts are exact in every state of a run** in which no page is mapped again that is mapped
65535 times. -/
theorem exactRefs_of_reach (h₀ : Booted s₀)
    (h : Reach memStep (fun s call => PresentLookups s call ∧ CountFits s call) s₀ s) :
    ExactRefs s₀ s := by
  have hstate : CountState s₀ s :=
    h.invariant h₀.countState fun s s' call hinv hok hs => hinv.step hok.1 hok.2 hs
  obtain ⟨k, hx, hout⟩ := hstate.sound
  exact exactRefs_of_sound hx hout

/-- Whether a call looks up what it can map. -/
def memCheck (s : KState) : MemCall → Bool
  | .pageMap cur srcenvid srcva dstenvid dstva perm =>
      mapCheck s cur srcenvid srcva dstenvid dstva perm
  | .pageUnmap cur envid va => unmapCheck s cur envid va
  | .ipcTrySend cur envid _ srcva _ => sendCheck s cur envid srcva
  | _ => true

theorem presentLookups_of_check (h : memCheck s call = true) : PresentLookups s call := by
  intro e va hands
  cases call with
  | pageMap cur srcenvid srcva dstenvid dstva perm =>
    obtain ⟨rfl, e', hargs⟩ := hands
    exact spare_present (spare_of_mapCheck h hargs)
  | pageUnmap cur envid va' =>
    obtain ⟨rfl, henv, hva⟩ := hands
    exact present_of_unmapCheck h henv hva
  | ipcTrySend cur envid value srcva perm =>
    obtain ⟨rfl, rfl, hva, e', hargs⟩ := hands
    exact spare_present (spare_of_sendCheck h hargs hva)
  | _ => exact hands.elim

theorem CountState.countFits_of_check (hstate : CountState s₀ s) (h : memCheck s call = true) :
    CountFits s call := by
  obtain ⟨k, hx, -⟩ := hstate.sound
  intro e va e' va' p hmaps hn
  cases call with
  | pageMap cur srcenvid srcva dstenvid dstva perm =>
    obtain ⟨rfl, rfl, hargs⟩ := hmaps
    exact .inl (spare_mapCount hx (spare_of_mapCheck h hargs) hn)
  | ipcTrySend cur envid value srcva perm =>
    obtain ⟨rfl, rfl, hva, hargs, -⟩ := hmaps
    exact .inl (spare_mapCount hx (spare_of_sendCheck h hargs hva) hn)
  | _ => exact hmaps.elim

/-- **Calls that pass** are a run in which counts are exact. -/
theorem Booted.reach_of_memCheck {calls : List MemCall} (h₀ : Booted s₀)
    (h : calls.foldlM (fun t call => if memCheck t call then memStep t call else none)
    s₀ = some s) :
    Reach memStep (fun s call => PresentLookups s call ∧ CountFits s call) s₀ s := by
  have hok : ∀ t call, CountState s₀ t → memCheck t call = true → PresentLookups t call ∧
    CountFits t call :=
    fun t call ht hcheck => ⟨presentLookups_of_check hcheck, ht.countFits_of_check hcheck⟩
  have hchecked : Reach memStep (fun t call => memCheck t call = true) s₀ s :=
    Reach.of_guarded h fun _ _ => id
  refine (hchecked.mono_of_invariant h₀.countState (fun t t' call ht hcheck hs => ?_) hok).2
  exact ht.step (hok t call ht hcheck).1 (hok t call ht hcheck).2 hs

/-- The flags of a page that a program may write. -/
def rwPerm : Word := PTE_U ||| PTE_W ||| PTE_P

/-- Environment 1 waits for a page at `0x2000`; environment 0 gets one at `0`, maps it at `0x1000`,
too, and sends it. Then it unmaps `0x1000`, and is freed. -/
def sentCalls : List MemCall :=
  [.envAlloc 0, .envAlloc 0, .ipcRecv 1 0x2000, .pageAlloc 0 0 0 rwPerm,
    .pageMap 0 0 0 0 0x1000 rwPerm,
    .ipcTrySend 0 0x1001 5 0 rwPerm, .pageUnmap 0 0 0x1000, .envFree 0 0]

/-- The page that environment 1 has got has one reference left. -/
theorem exactRefs_sent : ∃ s, Reach memStep (fun s call => PresentLookups s call ∧ CountFits s call)
    (bootState 1) s ∧
    s.upte 1 2 = mkPte 16381 rwPerm ∧ s.mem.ref 16381 = 1 ∧ ExactRefs (bootState 1) s := by
  have hrun : (sentCalls.foldlM (fun t call => if memCheck t call then memStep t call else none)
    (bootState 1)).map
      (fun s => (s.upte 1 2, s.mem.ref 16381)) = some (mkPte 16381 rwPerm, 1) := by decide +kernel
  obtain ⟨s, hs, heq⟩ := Option.map_eq_some_iff.mp hrun
  have hreach := (bootState_booted 1).reach_of_memCheck hs
  exact ⟨s, hreach, congrArg Prod.fst heq, congrArg Prod.snd heq,
    exactRefs_of_reach (bootState_booted 1) hreach⟩

/-! ### A page that is mapped 65536 times -/

/-- An environment with one page. -/
def onePage : List MemCall := [.envAlloc 0, .pageAlloc 0 0 0 rwPerm]

/-- Its calls look up no entry and map no page again. -/
theorem onePage_ok {t : KState} (hcall : call ∈ onePage) : PresentLookups t call ∧
    CountFits t call := by
  rcases List.mem_cons.mp hcall with rfl | hcall
  · exact ⟨fun _ _ h => h.elim, fun _ _ _ _ _ h => h.elim⟩
  · rw [List.mem_singleton.mp hcall]
    exact ⟨fun _ _ h => h.elim, fun _ _ _ _ _ h => h.elim⟩

theorem onePage_run : ∃ s, onePage.foldlM memStep (bootState 1) = some s ∧ s.dirs 0 = some 16383 ∧
    s.upte 0 0 = mkPte 16382 rwPerm := by
  have hrun : (onePage.foldlM memStep (bootState 1)).map (fun s => (s.dirs 0, s.upte 0 0)) =
      some (some 16383, mkPte 16382 rwPerm) := by decide +kernel
  obtain ⟨s, hs, heq⟩ := Option.map_eq_some_iff.mp hrun
  exact ⟨s, hs, congrArg Prod.fst heq, congrArg Prod.snd heq⟩

/-- The address of user page `v`. -/
def userVa (v : ℕ) : Word := PGADDR (v / 1024) (v % 1024) 0

/-- Environment 0 maps its page 0 at page `v`, too. -/
def mapFirstAt (v : ℕ) : MemCall := .pageMap 0 0 (userVa 0) 0 (userVa v) rwPerm

theorem PGNUM_userVa {v : ℕ} (hv : v < NUPAGES) : PGNUM (userVa v) = v := by
  unfold NUPAGES at hv
  rw [userVa, PGNUM_PGADDR (by omega) (by omega)]
  omega

theorem vaOk_userVa {v : ℕ} (hv : v < NUPAGES) : vaOk (userVa v) = true := by
  have hlt : userVa v < UTOP := (PGNUM_lt_iff _).mp (by rw [PGNUM_userVa hv]; exact hv)
  have haddr : (userVa v).toNat = (v / 1024 * 1024 + v % 1024) * 4096 := by
    unfold NUPAGES at hv
    exact PGADDR_eq (by omega) (by omega)
  have hoff : PGOFF (userVa v) = 0 := by
    refine BitVec.eq_of_toNat_eq ?_
    rw [PGOFF, BitVec.toNat_and, haddr, show (0xFFF : Word).toNat = 2 ^ 12 - 1 from rfl,
      Nat.and_two_pow_sub_one_eq_mod]
    exact Nat.mul_mod_left _ _
  rw [vaOk, hoff]
  simpa using hlt

/-- **`sys_page_map` maps a page again**, when nothing is mapped there and a page is free. -/
theorem sysPageMap_again {cur p : ℕ} {va' : Word} (hx : (s.vmState k).Sound)
    (hd : s.dirs cur = some d)
    (hva : vaOk va = true) (hva' : vaOk va' = true) (hn : Names (s.upte cur (PGNUM va)) p)
    (hno : ∀ q, ¬ Names (s.upte cur (PGNUM va')) q) (hfl : s.mem.pageFreeList ≠ none) :
    ∃ m k', sysPageMap s cur 0 va 0 va' rwPerm = .ok (0, { s with mem := m }) ∧
      Mapped s.mem s.dirs k cur va' (mkPte p rwPerm) m k' := by
  have hperm : permOk rwPerm = true := by decide
  have hcur : envid2env s cur 0 true = some cur := if_pos rfl
  have hargs : pageMapArgs s cur 0 va 0 va' rwPerm = .ok (cur, cur) := by
    rw [pageMapArgs, hcur]
    simp [hva, hva', hperm]
  have hpgdir : (s.envs cur).envPgdir = some d := hd
  obtain ⟨t, hlook, -⟩ := hx.vm.pageLookup_some hd (vaOk_lt hva) hn
  have hlook : pageLookup s.mem d va = .ok (some (p, ⟨t, PTX va⟩)) := hlook
  obtain ⟨⟨r, m⟩, hins⟩ : ∃ y, pageInsert s.mem d p va' rwPerm = .ok y :=
    hx.vm.pageInsert_ok hd (vaOk_lt hva')
  have hdata : k p = .data := hx.vm.tables.data_of_names hn
  rcases pageInsert_spec hx.vm hd (vaOk_lt hva') hdata (permOk_isFlags hperm)
    (fun q hq => absurd hq (hno q)) hins with
    ⟨rfl, -⟩ | ⟨rfl, k', hm⟩
  · exact absurd (pageInsert_fails hins (by decide)).2 hfl
  · refine ⟨m, k', ?_, hm⟩
    have hro : ¬ (s.mem.word ⟨t, PTX va⟩ &&& PTE_W = 0 ∧ rwPerm &&& PTE_W = 1) :=
      fun h => absurd h.2 (by decide)
    simp only [sysPageMap, hargs, hpgdir, deref, ok_bind, hlook, hins, if_neg hro]
    rfl

/-- A machine with twelve megabytes that programs can have. -/
def LotsFree (s : KState) : Prop := ∀ q, 1024 ≤ q → q < 4096 → s.mem.OnFreeList q

/-- Environment 0 is alone, and its first `n` pages are page `p`. -/
structure Filled (s₀ : KState) (p n : ℕ) (s : KState) : Prop where
  /-- There is no other page of user data. -/
  sound : ∃ k, (s.vmState k).Sound ∧ (∀ q, k q = .data → q = p) ∧ ∀ q, s₀.mem.OnFreeList q →
    ¬ (k q).Aside
  dirs : ∃ d, s.dirs = Function.update (fun _ => none) 0 (some d)
  entries : ∀ v q, Names (s.upte 0 v) q ↔ v < n ∧ q = p

section Filled

variable {n p : ℕ}

theorem Filled.mapCount_eq (h : Filled s₀ p n s) (hn : n ≤ NUPAGES) : mapCount s.upte p = n := by
  obtain ⟨d, hd⟩ := h.dirs
  have hfilter : (Finset.range NENV ×ˢ Finset.range NUPAGES).filter
      (fun y => Names (s.upte y.1 y.2) p) =
      (Finset.range n).image fun v => (0, v) := by
    ext ⟨e, v⟩
    simp only [Finset.mem_filter, Finset.mem_product, Finset.mem_range, Finset.mem_image,
      Prod.mk.injEq]
    constructor
    · rintro ⟨-, hnames⟩
      have he : e = 0 := by
        by_contra he
        rw [KState.upte, upte_of_none (by rw [hd, Function.update_of_ne he])] at hnames
        exact not_names_zero p hnames
      rw [he] at hnames
      exact ⟨v, ((h.entries v p).mp hnames).1, he.symm, rfl⟩
    · rintro ⟨v', hv', rfl, rfl⟩
      exact ⟨⟨by decide, lt_of_lt_of_le hv' hn⟩, (h.entries v' p).mpr ⟨hv', rfl⟩⟩
  rw [mapCount, hfilter, Finset.card_image_of_injective _ fun v v' hv => congrArg Prod.snd hv,
    Finset.card_range]

/-- One environment with one page of data does not use up the memory. -/
theorem Filled.freeList (h : Filled s₀ p n s) (hmany : LotsFree s₀) :
    s.mem.pageFreeList ≠ none := by
  intro hnone
  obtain ⟨k, hx, hdata, hout⟩ := h.sound
  obtain ⟨d, hd⟩ := h.dirs
  have hdirs : ∀ {e q}, s.dirs e = some q → q = d := by
    intro e q he
    by_cases h0 : e = 0
    · rw [h0, hd, Function.update_self] at he
      exact (Option.some.inj he).symm
    · rw [hd, Function.update_of_ne h0] at he
      cases he
  -- every page is `p`, the directory, or a table of it
  have hsub : Finset.Ico 1024 4096 ⊆
      insert p (insert d ((Finset.range NUPDX).image fun i => PGNUM (s.mem.phys d i))) := by
    intro q hq
    rw [Finset.mem_insert, Finset.mem_insert, Finset.mem_image]
    obtain ⟨hlo, hhi⟩ := Finset.mem_Ico.mp hq
    have haside := hout q (hmany q hlo hhi)
    cases hk : k q with
    | free => exact absurd hnone (hx.vm.pool.freeList_ne_none hk)
    | reserved | kern | held =>
      rw [hk] at haside
      exact absurd trivial haside
    | data => exact .inl (hdata q hk)
    | dir e => exact .inr (.inl (hdirs ((hx.vm.tables.dir e q).mpr hk)))
    | table e i =>
      obtain ⟨hi, d', hd', hn⟩ := hx.vm.tables.table q e i hk
      rw [hdirs hd'] at hn
      exact .inr (.inr ⟨i, Finset.mem_range.mpr hi, hn.2⟩)
  have hcard := calc 3072 = (Finset.Ico 1024 4096).card := by rw [Nat.card_Ico]
    _ ≤ _ := Finset.card_le_card hsub
    _ ≤ _ := Finset.card_insert_le _ _
    _ ≤ _ := Nat.add_le_add_right (Finset.card_insert_le _ _) 1
    _ ≤ _ := Nat.add_le_add_right (Nat.add_le_add_right Finset.card_image_le 1) 1
  rw [Finset.card_range] at hcard
  exact absurd hcard (by decide)

/-- One more mapping. -/
theorem Filled.maps (h : Filled s₀ p n s) (hmany : LotsFree s₀) (h0 : 0 < n) (hn : n < NUPAGES) :
    ∃ k m k', (s.vmState k).Sound ∧ (∀ q, k q = .data → q = p) ∧
      (∀ q, s₀.mem.OnFreeList q → ¬ (k q).Aside) ∧
      memStep s (mapFirstAt n) = some { s with mem := m } ∧ PresentLookups s (mapFirstAt n) ∧
      Mapped s.mem s.dirs k 0 (userVa n) (mkPte p rwPerm) m k' := by
  obtain ⟨k, hx, hdata, hout⟩ := h.sound
  obtain ⟨d, hd⟩ := h.dirs
  have hd0 : s.dirs 0 = some d := by rw [hd, Function.update_self]
  have hfirst : Names (s.upte 0 (PGNUM (userVa 0))) p := by
    rw [PGNUM_userVa (by decide)]
    exact (h.entries 0 p).mpr ⟨h0, rfl⟩
  have hno : ∀ q, ¬ Names (s.upte 0 (PGNUM (userVa n))) q := by
    intro q hq
    rw [PGNUM_userVa hn] at hq
    exact absurd ((h.entries n q).mp hq).1 (lt_irrefl n)
  obtain ⟨m, k', hmap, hm⟩ :=
    sysPageMap_again hx hd0 (vaOk_userVa (by decide)) (vaOk_userVa hn) hfirst hno (h.freeList hmany)
  refine ⟨k, m, k', hx, hdata, hout, by rw [mapFirstAt, memStep, hmap]; rfl, ?_, hm⟩
  rintro e va ⟨rfl, e', hargs⟩
  have he : e = 0 := by
    have hcur : envid2env s 0 0 true = some 0 := if_pos rfl
    rw [pageMapArgs, hcur] at hargs
    dsimp only at hargs
    split_ifs at hargs
    cases hargs
    rfl
  rw [he]
  exact hfirst.1

/-- The page stays the only one, and its count fits, until it is mapped 65535 times. -/
theorem Filled.succ (h : Filled s₀ p n s) (hmany : LotsFree s₀) (h0 : 0 < n) (hn : n < 65535) :
    ∃ s', memStep s (mapFirstAt n) = some s' ∧ PresentLookups s (mapFirstAt n) ∧
        Filled s₀ p (n + 1) s' := by
  have hpages : n < NUPAGES := lt_trans hn (by decide)
  obtain ⟨k, m, k', hx, hdata, hout, hstep, hlook, hm⟩ := h.maps hmany h0 hpages
  obtain ⟨d, hd⟩ := h.dirs
  have hd0 : (s.vmState k).dirs 0 = some d := by
    rw [show (s.vmState k).dirs = s.dirs from rfl, hd, Function.update_self]
  have hfirst : Names ((s.vmState k).upte 0 (PGNUM (userVa 0))) p := by
    rw [PGNUM_userVa (by decide)]
    exact (h.entries 0 p).mpr ⟨h0, rfl⟩
  have hroom : mapCount (s.vmState k).upte p < 65535 := lt_of_eq_of_lt (h.mapCount_eq hpages.le) hn
  have hp20 : p < 2 ^ 20 := hx.vm.lt_of_data (hx.vm.tables.data_of_names hfirst)
  have hdoes : Does (s.vmState k) (.share 0 (userVa 0) 0 (userVa n) rwPerm)
    (({ s with mem := m } : KState).vmState k') :=
    .share hd0 (vaOk_lt (vaOk_userVa hpages)) (by decide) hfirst (.inl hroom) hm
  refine ⟨{ s with mem := m }, hstep, hlook,
    ⟨k', hdoes.sound hx, fun q hq => hdata q (hm.frame.data q hq),
    fun q hq haside => hout q hq (hdoes.aside haside)⟩, ⟨d, hd⟩, fun v q => ?_⟩
  have hentries : ({ s with mem := m } : KState).upte 0 v = setAt s.upte 0 n
      (mkPte p rwPerm) 0 v := by
    rw [← PGNUM_userVa hpages]
    exact congrFun (congrFun hm.entries 0) v
  rw [hentries]
  by_cases hv : v = n
  · rw [hv, setAt_self]
    have hnew := names_mkPte hp20 (show IsFlags rwPerm by decide)
    exact ⟨fun hq => ⟨Nat.lt_succ_self n, hq.2.symm.trans hnew.2⟩, fun hq => hq.2 ▸ hnew⟩
  · rw [setAt_of_ne fun hv' => hv hv'.2, h.entries]
    exact and_congr_left fun _ => by omega

/-- **Mapping by mapping**, without a look at an entry that is not present. -/
theorem Filled.reach (h : Filled s₀ p 1 s) (hmany : LotsFree s₀) (hn : n < 65535) :
    ∃ s', Reach memStep PresentLookups s s' ∧ Filled s₀ p (n + 1) s' := by
  induction n with
  | zero => exact ⟨s, .refl s, h⟩
  | succ n ih =>
    obtain ⟨s₁, hreach, h₁⟩ := ih (Nat.lt_of_succ_lt hn)
    obtain ⟨s', hstep, hlook, h'⟩ := h₁.succ hmany (Nat.succ_pos n) hn
    exact ⟨s', hreach.tail hlook hstep, h'⟩

/-- **The 65536th mapping** makes the count zero. -/
theorem Filled.wraps (h : Filled s₀ p 65535 s) (hmany : LotsFree s₀) :
    ∃ s', memStep s (mapFirstAt 65535) = some s' ∧ PresentLookups s (mapFirstAt 65535) ∧
      s'.mem.ref p = 0 ∧
      mapCount s'.upte p = 65536 := by
  obtain ⟨k, m, k', hx, -, -, hstep, hlook, hm⟩ := h.maps hmany (by decide) (by decide)
  have hfirst : Names (s.upte 0 0) p := (h.entries 0 p).mpr ⟨by decide, rfl⟩
  have hdata : k p = .data := hx.vm.tables.data_of_names hfirst
  have hno : ∀ q, ¬ Names (s.upte 0 65535) q :=
    fun q hq => absurd ((h.entries 65535 q).mp hq).1 (lt_irrefl _)
  have hnew : Names (mkPte p rwPerm) p := names_mkPte (hx.vm.lt_of_data hdata) (by decide)
  have hentries : JOS.upte m.phys s.dirs = setAt s.upte 0 65535 (mkPte p rwPerm) := by
    rw [hm.entries, PGNUM_userVa (by decide)]
    rfl
  have hcount : mapCount (JOS.upte m.phys s.dirs) p = 65536 := by
    rw [hentries, mapCount_gain (by decide) (by decide) (hno p) hnew, h.mapCount_eq (by decide)]
  have hdata' : k' p = .data := hm.vm.tables.data_of_names (e := 0) (v := 65535) (by
    rw [hentries, setAt_self]
    exact hnew)
  refine ⟨{ s with mem := m }, hstep, hlook, ?_, hcount⟩
  rw [hm.vm.count p hdata', hcount]
  rfl

/-- The first environment has an empty address space, if it has one. -/
structure FirstEnv (s₀ s : KState) (k : ℕ → Kind) : Prop where
  sound : (s.vmState k).Sound
  data : ∀ q, k q ≠ .data
  aside : ∀ q, s₀.mem.OnFreeList q → ¬ (k q).Aside
  dirs : ∀ e, e ≠ 0 → s.dirs e = none
  entries : ∀ v, s.upte 0 v = 0

theorem Booted.firstEnv {parentId : Word} {y : Except Word ℕ} (h₀ : Booted s₀)
    (hfl : s₀.envFreeList = some 0)
    (h : envAlloc s₀ parentId = .ok (y, s)) : ∃ k, FirstEnv s₀ s k := by
  obtain ⟨k₀, hx₀, hout⟩ := h₀.countState.sound
  obtain ⟨op, k, hop, hdoes⟩ : ∃ op k, (op = .keep ∨ op = .create 0) ∧
      Does (s₀.vmState k₀) op (s.vmState k) := by
    rcases envAlloc_does hx₀ h₀.countState.freeHead h with ⟨-, k, hdoes⟩ | ⟨e, k, -, hfl', hdoes⟩
    · exact ⟨_, k, .inl rfl, hdoes⟩
    · rw [hfl] at hfl'
      cases hfl'
      exact ⟨_, k, .inr rfl, hdoes⟩
  have hnone : ∀ e, s₀.dirs e = none := fun e => (h₀.envs e).2
  refine ⟨k, hdoes.sound hx₀, fun q hq => ?_, fun q hq haside => hout q hq (hdoes.aside haside),
    fun e he => ?_, fun v => ?_⟩
  · rcases hdoes.data hx₀ hq with hq | ⟨e, va, perm, hop', -⟩
    · have huser : s₀.mem.userData q = true := (hx₀.vm.pool.user q).mpr hq
      rw [h₀.mem.userData] at huser
      cases huser
    · rcases hop with rfl | rfl <;> cases hop'
  · refine (hdoes.dirs_of_ne ?_).trans (hnone e)
    rcases hop with rfl | rfl
    · exact fun h => nomatch h
    · exact fun h => he (Option.some.inj h).symm
  · have hzero : s₀.upte 0 v = 0 := upte_of_none (hnone 0)
    rw [← hzero]
    by_contra hne
    rcases hdoes.changes (e := 0) (v := v) hne with
      ⟨_, _, _, hop', -⟩ | ⟨_, _, _, _, _, hop', -⟩ | ⟨_, hop', -⟩ | hop' <;> rcases hop with rfl |
        rfl <;> cases hop'

/-- `sys_page_alloc` fills its page 0. -/
theorem FirstEnv.filled (h : FirstEnv s₀ s k) (hpage : sysPageAlloc s 0 0 0 rwPerm = .ok (r, s'))
    (hd : s'.dirs 0 = some d)
    (hn : Names (s'.upte 0 0) p) : Filled s₀ p 1 s' := by
  obtain ⟨op, k', hop, hdoes⟩ : ∃ op k', (op = .keep ∨ op = .alloc 0 0 rwPerm) ∧
      Does (s.vmState k) op (s'.vmState k') := by
    rcases sysPageAlloc_does h.sound hpage with ⟨k', hdoes⟩ | ⟨e, k', henv, -, -, hdoes⟩
    · exact ⟨_, k', .inl rfl, hdoes⟩
    · cases henv
      exact ⟨_, k', .inr rfl, hdoes⟩
  refine ⟨⟨k', hdoes.sound h.sound, fun q hq => ?_, fun q hq haside =>
    h.aside q hq (hdoes.aside haside)⟩,
    ⟨d, funext fun e => ?_⟩, fun v q => ?_⟩
  · rcases hdoes.data h.sound hq with hq | ⟨e, va, perm, hop', hq⟩
    · exact absurd hq (h.data q)
    · rcases hop with rfl | rfl <;> cases hop'
      exact hq.2.symm.trans hn.2
  · by_cases he : e = 0
    · rw [he, hd, Function.update_self]
    · rw [Function.update_of_ne he, ← h.dirs e he]
      refine hdoes.dirs_of_ne ?_
      rcases hop with rfl | rfl <;> exact fun h => nomatch h
  · by_cases hv : v = 0
    · rw [hv]
      exact ⟨fun hq => ⟨by decide, hq.2.symm.trans hn.2⟩, fun hq => hq.2 ▸ hn⟩
    · have hsame : s'.upte 0 v = 0 := by
        rw [← h.entries v]
        by_contra hne
        rcases hdoes.changes (e := 0) (v := v) hne with
          ⟨_, _, _, hop', hva, -⟩ | ⟨_, _, _, _, _, hop', -⟩ | ⟨_, hop', -⟩ | hop' <;>
          rcases hop with rfl | rfl <;> cases hop'
        exact hv (hva.trans (by decide))
      rw [hsame]
      exact ⟨fun hq => absurd hq (not_names_zero q), fun hq => absurd hq.1 (by omega)⟩

theorem filled_onePage : ∃ s, Reach memStep PresentLookups (bootState 1) s ∧
    Filled (bootState 1) 16382 1 s := by
  obtain ⟨s, hrun, hd, hentry⟩ := onePage_run
  have hreach : Reach memStep PresentLookups (bootState 1) s :=
    Reach.of_foldlM hrun fun t call hcall => (onePage_ok hcall).1
  simp only [onePage, List.foldlM_cons, List.foldlM_nil, Option.bind_eq_bind,
    Option.bind_eq_some_iff, Option.pure_def,
    Option.some.injEq] at hrun
  obtain ⟨s₁, h₁, s₂, h₂, rfl⟩ := hrun
  have h₁ : (envAlloc (bootState 1) 0).toOption.map Prod.snd = some s₁ := h₁
  have h₂ : (sysPageAlloc s₁ 0 0 0 rwPerm).toOption.map Prod.snd = some s₂ := h₂
  obtain ⟨y, h₁⟩ := toOption_map_snd.mp h₁
  obtain ⟨r, h₂⟩ := toOption_map_snd.mp h₂
  obtain ⟨k, hfirst⟩ := (bootState_booted 1).firstEnv rfl h₁
  have hn : Names (s₂.upte 0 0) 16382 := by
    rw [hentry]
    exact names_mkPte (by decide) (by decide)
  exact ⟨s₂, hreach, hfirst.filled h₂ hd hn⟩

end Filled

/-- Memory above four megabytes is free after boot. -/
theorem onFreeList_bootState {q : ℕ} (hlo : 1024 ≤ q) (hhi : q < 16384) :
    (bootState 1).mem.OnFreeList q := by
  obtain ⟨l, hl, hmem⟩ := bootMem_booted.free
  refine ⟨l, hl, (hmem q).mpr (free_bootMem.mpr ⟨hhi, ?_⟩)⟩
  exact (managed_bootMem.mpr ⟨by omega, by omega, by omega, .inr hlo⟩).2

/-- A count need not be exact: a page is mapped at 65536 addresses. -/
theorem not_exactRefs : ¬ ∀ s₀ s, Booted s₀ → Reach memStep PresentLookups s₀ s →
    ExactRefs s₀ s := by
  intro hall
  have hmany : LotsFree (bootState 1) := fun q hlo hhi =>
    onFreeList_bootState hlo (lt_trans hhi (by decide))
  obtain ⟨s₁, hreach₁, h₁⟩ := filled_onePage
  obtain ⟨s₂, hreach₂, h₂⟩ := h₁.reach hmany (n := 65534) (by decide)
  obtain ⟨s, hstep, hlook, hzero, hcount⟩ := h₂.wraps hmany
  have hexact := (hall _ s (bootState_booted 1) ((hreach₁.trans hreach₂).tail hlook hstep)).counted
    16382
    (onFreeList_bootState (by decide) (by decide))
  rw [hzero, references, hcount] at hexact
  exact absurd hexact (by simp; omega)

end JOS
