import JOS.Memory.Ops
import JOS.Memory.Total
import JOS.Spaces.Load
import JOS.Sched.Dispatch

/-!
# What the kernel's functions do to the address spaces

Each function of the kernel that works on address spaces does one of the operations of
`VmOp`, or none; loading a program does several. `Works` is a sequence of operations, of
which each is asked for. Beyond a sound state a function needs two promises: that
`page_lookup` is not called for an empty entry, which it would take for page 0, and that
the page to map has a reference left.
-/

namespace JOS

open JOS.General

open Function (update)

variable {s s' s₁ s₂ : KState} {ev : Event} {k : ℕ → Kind} {x x₀ x' : VmState}
  {ask ask' : VmOp → Prop} {op : VmOp}
  {m m' : Mem} {c cur d e e' p : ℕ} {va r perm : Word}

/-- The address spaces of a kernel state, when `k` are the uses of pages. -/
def KState.vmState (s : KState) (k : ℕ → Kind) : VmState := ⟨s.mem, s.dirs, k⟩

/-- The entry for user page `v` of environment `e`. -/
def KState.upte (s : KState) (e v : ℕ) : Word := JOS.upte s.mem.phys s.dirs e v

/-- A sequence of operations that are asked for. -/
def Works (ask : VmOp → Prop) : VmState → VmState → Prop :=
  Relation.ReflTransGen fun x x' => ∃ op, ask op ∧ Does x op x'

theorem Works.refl (x : VmState) : Works ask x x := Relation.ReflTransGen.refl

theorem Works.trans (h : Works ask x₀ x) (h' : Works ask x x') : Works ask x₀ x' :=
  Relation.ReflTransGen.trans h h'

theorem Works.single (h : Does x op x') (ha : ask op) : Works ask x x' :=
  Relation.ReflTransGen.single ⟨op, ha, h⟩

theorem Works.tail (h : Works ask x₀ x) (h' : Does x op x') (ha : ask op) : Works ask x₀ x' :=
  Relation.ReflTransGen.tail h ⟨op, ha, h'⟩

/-- **The invariant rule**: what each operation that is asked for keeps holds after all of them. -/
theorem Works.invariant {I : VmState → Prop} (h : Works ask x₀ x) (h₀ : I x₀)
    (hstep : ∀ x op x', I x → ask op → Does x op x' → I x') : I x := by
  induction h with
  | refl => exact h₀
  | tail _ hd ih =>
    obtain ⟨op, ha, hd⟩ := hd
    exact hstep _ op _ ih ha hd

theorem Works.sound (h : Works ask x₀ x) (hx : x₀.Sound) : x.Sound :=
  h.invariant hx fun _ _ _ hx _ hd => hd.sound hx

theorem Works.base (h : Works ask x₀ x) : SameBase x₀.mem x.mem :=
  h.invariant (I := fun x => SameBase x₀.mem x.mem) (SameBase.refl _) fun _ _ _ hx _ hdoes =>
    hx.trans hdoes.base

theorem SameSpaces.vmState (h : SameSpaces s s') : s'.vmState k = s.vmState k := by
  rw [KState.vmState, KState.vmState, h.1, h.2]

/-- What follows does not matter. -/
theorem Does.same {k' : ℕ → Kind} (h : Does x op (s₁.vmState k')) (hs : SameSpaces s₁ s') :
    Does x op (s'.vmState k') := by
  rw [hs.vmState]
  exact h

/-! ### Mapping pages -/

theorem vaOk_lt (h : vaOk va = true) : va < UTOP := by
  rw [vaOk] at h
  simp at h
  exact h.1

theorem permOk_isFlags (h : permOk perm = true) : IsFlags perm := by
  rw [permOk, Bool.and_eq_true, beq_iff_eq, beq_iff_eq] at h
  exact isFlags_of_mask h.2

/-- Memory after an operation of which nothing is seen. -/
theorem Stored.does (h : Stored s.mem s.dirs k m) :
    Does (s.vmState k) .keep (({ s with mem := m } : KState).vmState k) := .keep h

/-- `sys_page_alloc`, past its checks, finds no memory, or maps a page. -/
theorem sysPageAlloc_mapped {envid : Word} (hx : (s.vmState k).Sound)
    (henv : envid2env s cur envid true = some e)
    (hva : vaOk va = true) (hperm : permOk perm = true)
    (h : sysPageAlloc s cur envid va perm = .ok (r, s')) :
    r ≠ 0 ∧ (∃ k', Does (s.vmState k) .keep (s'.vmState k')) ∨
      r = 0 ∧ ∃ k', Does (s.vmState k) (.alloc e va perm) (s'.vmState k') := by
  simp only [sysPageAlloc, henv, hva, hperm, Bool.not_true, Bool.false_eq_true, if_false] at h
  obtain ⟨⟨o, m₁⟩, halloc, h⟩ := bind_eq_ok.mp h
  rcases pageAlloc_spec hx.vm.pool halloc with ⟨rfl, rfl, -⟩ | ⟨p, rfl, ha⟩
  · cases h
    exact .inl ⟨by decide, k, Does.refl hx⟩
  obtain ⟨pgdir, hd, h⟩ := bind_eq_ok.mp h
  obtain ⟨⟨flag, m₂⟩, hins, h⟩ := bind_eq_ok.mp h
  have hd : s.dirs e = some pgdir := deref_eq_some hd
  have hlt := vaOk_lt hva
  have ho : Obtained s.mem s.dirs k p (m₁.markUser p true) := ha.obtained hx.vm
  have hspare : Spare (JOS.upte s.mem.phys s.dirs) e (PGNUM va) := hx.small.spare e (PGNUM va)
  dsimp only at h
  rcases ho.insert hd hlt (permOk_isFlags hperm) hspare hins with ⟨rfl, rfl⟩ | ⟨rfl, k', hmap, -⟩
  · rw [if_pos (by decide)] at h
    obtain ⟨m₃, hfree, h⟩ := bind_eq_ok.mp h
    cases h
    obtain ⟨hvm, hupte, hbase, -⟩ := ho.pageFree hx.vm hfree
    exact .inl ⟨by decide, k, .keep ⟨hvm, hupte, hbase⟩⟩
  · rw [if_neg (by decide)] at h
    cases h
    exact .inr ⟨rfl, k', .alloc hd hlt (permOk_isFlags hperm) hmap⟩

/-- `sys_page_alloc` fails, or maps a page. -/
theorem sysPageAlloc_does {envid : Word} (hx : (s.vmState k).Sound)
    (h : sysPageAlloc s cur envid va perm = .ok (r, s')) :
    (∃ k', Does (s.vmState k) .keep (s'.vmState k')) ∨
      ∃ e k', envid2env s cur envid true = some e ∧ vaOk va = true ∧ permOk perm = true ∧
        Does (s.vmState k) (.alloc e va perm) (s'.vmState k') := by
  have hsame : ∃ k', Does (s.vmState k) .keep (s.vmState k') := ⟨k, Does.refl hx⟩
  have hcall := h
  simp only [sysPageAlloc] at h
  cases henv : envid2env s cur envid true with
  | none =>
    simp only [henv] at h
    cases h
    exact .inl hsame
  | some e =>
    simp only [henv] at h
    split_ifs at h with hva hperm
    · cases h
      exact .inl hsame
    · cases h
      exact .inl hsame
    rw [Bool.not_eq_true, Bool.not_eq_false'] at hva hperm
    rcases sysPageAlloc_mapped hx henv hva hperm hcall with ⟨-, hkeep⟩ | ⟨-, k', hdoes⟩
    · exact .inl hkeep
    · exact .inr ⟨e, k', rfl, hva, hperm, hdoes⟩

/-- `page_lookup` that is not called for an empty entry finds the page that is mapped. -/
theorem pageLookup_names {y : ℕ × PtePtr} (hx : x.Sound) (hd : x.dirs e = some d) (hva : va < UTOP)
    (hne : ¬ EmptyEntry x.mem d va) (h : pageLookup x.mem d va = .ok (some y)) :
    Names (x.upte e (PGNUM va)) y.1 ∧ x.mem.word y.2 = x.upte e (PGNUM va) := by
  rcases pageLookup_spec hx.vm hd hva h with ⟨hnone, -⟩ | ⟨t, ht, hy⟩
  · cases hnone
  cases hy
  have hentry : JOS.upte x.mem.phys x.dirs e (PGNUM va) = x.mem.phys t (PTX va) :=
    hx.vm.upte_walk ht
  have hv : PGNUM va < NUPAGES := (PGNUM_lt_iff va).mpr hva
  refine ⟨⟨?_, rfl⟩, hentry.symm⟩
  by_contra hP
  obtain ⟨-, d', hd', hn⟩ := hx.vm.tables.table t e _ ht
  rw [hd] at hd'
  cases hd'
  refine hne ⟨hn.1, ?_⟩
  rwa [← upte_of_dir hd hv]

/-- `page_insert` of a page that is mapped already. -/
theorem pageInsert_does {va' : Word} (hx : x.Sound) (hd : x.dirs e' = some d) (hva : va' < UTOP)
    (hf : IsFlags perm)
    (hn : Names (x.upte e (PGNUM va)) p)
    (hroom : mapCount x.upte p < 65535 ∨ Names (x.upte e' (PGNUM va')) p)
    (h : pageInsert x.mem d p va' perm = .ok (r, m')) :
    r = -E_NO_MEM ∧ m' = x.mem ∨ r = 0 ∧ ∃ k',
        Does x (.share e va e' va' perm) ⟨m', x.dirs, k'⟩ := by
  have hdata := hx.vm.tables.data_of_names hn
  rcases pageInsert_spec hx.vm hd hva hdata hf
    (fun q hq _ => hx.small.spare _ _ q hq) h with hfail | ⟨hr, k', hm⟩
  · exact .inl hfail
  · exact .inr ⟨hr, k', .share hd hva hf hn hroom hm⟩

/-- The checks of `sys_page_map`. -/
theorem pageMapArgs_ok {srcenvid srcva dstenvid dstva : Word} {e₁ e₂ : ℕ}
    (h : pageMapArgs s cur srcenvid srcva dstenvid dstva perm = .ok (e₁, e₂)) :
    vaOk srcva = true ∧ vaOk dstva = true ∧ permOk perm = true := by
  rw [pageMapArgs] at h
  split at h
  · split_ifs at h with hs hd hp
    rw [Bool.not_eq_true, Bool.not_eq_false'] at hs hd hp
    exact ⟨hs, hd, hp⟩
  · cases h

/-- `sys_page_map`, past its checks, changes nothing, or maps the page. -/
theorem sysPageMap_mapped {srcenvid srcva dstenvid dstva : Word} {e₁ e₂ : ℕ}
    (hx : (s.vmState k).Sound)
    (hargs : pageMapArgs s cur srcenvid srcva dstenvid dstva perm = .ok (e₁, e₂))
    (hlook : ∀ d, s.dirs e₁ = some d → ¬ EmptyEntry s.mem d srcva)
    (hroom : ∀ p, Names (s.upte e₁ (PGNUM srcva)) p → mapCount s.upte p < 65535 ∨
    Names (s.upte e₂ (PGNUM dstva)) p)
    (h : sysPageMap s cur srcenvid srcva dstenvid dstva perm = .ok (r, s')) :
    r ≠ 0 ∧ s' = s ∨ r = 0 ∧ ∃ k', Does (s.vmState k) (.share e₁ srcva e₂ dstva perm)
        (s'.vmState k') := by
  simp only [sysPageMap, hargs] at h
  obtain ⟨pgdir₁, hd₁, h⟩ := bind_eq_ok.mp h
  obtain ⟨o, ho, h⟩ := bind_eq_ok.mp h
  obtain ⟨⟨page, pte⟩, hpage, h⟩ := bind_eq_ok.mp h
  dsimp only at h
  split_ifs at h
  · cases h
    exact .inl ⟨by decide, rfl⟩
  obtain ⟨pgdir₂, hd₂, h⟩ := bind_eq_ok.mp h
  obtain ⟨⟨flag, m⟩, hins, h⟩ := bind_eq_ok.mp h
  obtain ⟨hsrc, hdst, hperm⟩ := pageMapArgs_ok hargs
  have hd₁ : s.dirs e₁ = some pgdir₁ := deref_eq_some hd₁
  have ho : pageLookup s.mem pgdir₁ srcva = .ok (some (page, pte)) := by
    rw [ho, deref_eq_some hpage]
  obtain ⟨hn, -⟩ := pageLookup_names (x := s.vmState k) hx hd₁ (vaOk_lt hsrc) (hlook pgdir₁ hd₁) ho
  dsimp only at h
  rcases pageInsert_does hx (deref_eq_some hd₂) (vaOk_lt hdst) (permOk_isFlags hperm) hn
    (hroom page hn) hins with
    ⟨rfl, rfl⟩ | ⟨rfl, k', hdoes⟩
  · rw [if_pos (by decide)] at h
    cases h
    exact .inl ⟨by decide, rfl⟩
  · rw [if_neg (by decide)] at h
    cases h
    exact .inr ⟨rfl, k', hdoes⟩

/-- `sys_page_map` fails, or maps the page. -/
theorem sysPageMap_does {srcenvid srcva dstenvid dstva : Word} (hx : (s.vmState k).Sound)
    (hlook : ∀ e₁ e₂ d, pageMapArgs s cur srcenvid srcva dstenvid dstva perm = .ok (e₁, e₂) →
    s.dirs e₁ = some d →
      ¬ EmptyEntry s.mem d srcva)
    (hroom : ∀ e₁ e₂ p, pageMapArgs s cur srcenvid srcva dstenvid dstva perm = .ok (e₁, e₂) →
      Names (s.upte e₁ (PGNUM srcva)) p → mapCount s.upte p < 65535 ∨
      Names (s.upte e₂ (PGNUM dstva)) p)
    (h : sysPageMap s cur srcenvid srcva dstenvid dstva perm = .ok (r, s')) :
    (∃ k', Does (s.vmState k) .keep (s'.vmState k')) ∨
      ∃ e₁ e₂ k', pageMapArgs s cur srcenvid srcva dstenvid dstva perm = .ok (e₁, e₂) ∧
        Does (s.vmState k) (.share e₁ srcva e₂ dstva perm) (s'.vmState k') := by
  have hsame : ∃ k', Does (s.vmState k) .keep (s.vmState k') := ⟨k, Does.refl hx⟩
  cases hargs : pageMapArgs s cur srcenvid srcva dstenvid dstva perm with
  | error w =>
    simp only [sysPageMap, hargs] at h
    cases h
    exact .inl hsame
  | ok es =>
    obtain ⟨e₁, e₂⟩ := es
    rcases sysPageMap_mapped hx hargs (fun d => hlook e₁ e₂ d hargs)
      (fun p => hroom e₁ e₂ p hargs) h with ⟨-, rfl⟩ | ⟨-, k', hdoes⟩
    · exact .inl hsame
    · exact .inr ⟨e₁, e₂, k', rfl, hdoes⟩

/-- `page_remove`. -/
theorem pageRemove_does (hx : x.Sound) (hd : x.dirs e = some d) (hva : va < UTOP)
    (hne : ¬ EmptyEntry x.mem d va)
    (h : pageRemove x.mem d va = .ok m') :
    m' = x.mem ∨ ∃ k', Does x (.unmap e va) ⟨m', x.dirs, k'⟩ := by
  obtain ⟨o, hlook, hrest⟩ := bind_eq_ok.mp h
  cases o with
  | none =>
    cases hrest
    exact .inl rfl
  | some y =>
    obtain ⟨hn, -⟩ := pageLookup_names hx hd hva hne hlook
    obtain ⟨k', hm, -⟩ := pageRemove_spec hx.vm hd hva hn (hx.small.spare _ _ _ hn) h
    exact .inr ⟨k', .unmap hd hva hm⟩

/-- `sys_page_unmap` does nothing, or unmaps the page. -/
theorem sysPageUnmap_does {envid : Word} (hx : (s.vmState k).Sound)
    (hlook : ∀ e d, envid2env s cur envid true = some e → vaOk va = true → s.dirs e = some d →
    ¬ EmptyEntry s.mem d va)
    (h : sysPageUnmap s cur envid va = .ok (r, s')) :
    (∃ k', Does (s.vmState k) .keep (s'.vmState k')) ∨
      ∃ e k', envid2env s cur envid true = some e ∧ vaOk va = true ∧
          Does (s.vmState k) (.unmap e va) (s'.vmState k') := by
  have hsame : ∃ k', Does (s.vmState k) .keep (s.vmState k') := ⟨k, Does.refl hx⟩
  simp only [sysPageUnmap] at h
  cases henv : envid2env s cur envid true with
  | none =>
    simp only [henv] at h
    cases h
    exact .inl hsame
  | some e =>
    simp only [henv] at h
    split_ifs at h with hva
    · cases h
      exact .inl hsame
    rw [Bool.not_eq_true, Bool.not_eq_false'] at hva
    obtain ⟨pgdir, hd, h⟩ := bind_eq_ok.mp h
    obtain ⟨m, hrem, h⟩ := bind_eq_ok.mp h
    cases h
    have hd : s.dirs e = some pgdir := deref_eq_some hd
    rcases pageRemove_does (x := s.vmState k) hx hd (vaOk_lt hva)
      (hlook e pgdir henv hva hd) hrem with rfl | ⟨k', hdoes⟩
    · exact .inl hsame
    · exact .inr ⟨e, k', rfl, hva, hdoes⟩

/-! ### IPC -/

/-- The page transfer of `sys_ipc_try_send` maps no page, or the page that was sent. -/
theorem ipcSendPage_does {srcva : Word} (hx : (s.vmState k).Sound) (hva : srcva < UTOP)
    (hlook : ∀ d, s.dirs cur = some d → ¬ EmptyEntry s.mem d srcva)
    (hroom : ∀ p, (s.envs e).envIpcDstva < UTOP →
    ipcPageOk (s.upte cur (PGNUM srcva)) srcva perm = true →
      Names (s.upte cur (PGNUM srcva)) p → mapCount s.upte p < 65535 ∨
      Names (s.upte e (PGNUM (s.envs e).envIpcDstva)) p)
    (h : ipcSendPage s cur e srcva perm = .ok (r, s')) :
    (∃ k', Does (s.vmState k) .keep (s'.vmState k')) ∨
      ∃ k', (s.envs e).envIpcDstva < UTOP ∧ ipcPageOk (s.upte cur (PGNUM srcva)) srcva perm = true ∧
        Does (s.vmState k) (.share cur srcva e (s.envs e).envIpcDstva perm) (s'.vmState k') := by
  have hsame : ∃ k', Does (s.vmState k) .keep (s.vmState k') := ⟨k, Does.refl hx⟩
  simp only [ipcSendPage] at h
  obtain ⟨pgdir, hd, h⟩ := bind_eq_ok.mp h
  obtain ⟨o, ho, h⟩ := bind_eq_ok.mp h
  cases o with
  | none =>
    cases h
    exact .inl hsame
  | some y =>
    obtain ⟨page, pte⟩ := y
    dsimp only at h
    have hd : s.dirs cur = some pgdir := deref_eq_some hd
    obtain ⟨hn, hword⟩ := pageLookup_names (x := s.vmState k) hx hd hva (hlook pgdir hd) ho
    have hword : s.mem.word pte = s.upte cur (PGNUM srcva) := hword
    rw [hword] at h
    split_ifs at h with hok hdst
    · cases h
      exact .inl hsame
    · rw [Bool.not_eq_true, Bool.not_eq_false'] at hok
      obtain ⟨dst, hd', h⟩ := bind_eq_ok.mp h
      obtain ⟨⟨flag, m⟩, hins, h⟩ := bind_eq_ok.mp h
      dsimp only at h
      rcases pageInsert_does (x := s.vmState k) hx (deref_eq_some hd') hdst
        (isFlags_of_ipcPageOk hok) hn (hroom page hdst hok hn) hins with
        ⟨rfl, rfl⟩ | ⟨rfl, k', hdoes⟩
      · rw [if_pos (by decide)] at h
        cases h
        exact .inl hsame
      · rw [if_neg (by decide)] at h
        cases h
        refine .inr ⟨k', hdst, hok, ?_⟩
        have hmapped : Does (s.vmState k) (.share cur srcva e (s.envs e).envIpcDstva perm)
            (({ s with mem := m } : KState).vmState k') := hdoes
        exact hmapped.same (sameSpaces_setEnv _ e _ rfl)
    · cases h
      exact .inl hsame

/-- `sys_ipc_try_send` maps no page, or the page that was sent. -/
theorem sysIpcTrySend_does {envid value srcva : Word} (hx : (s.vmState k).Sound)
    (hlook : ∀ e d, ipcSendArgs s cur envid = .ok e → srcva < UTOP → s.dirs cur = some d →
    ¬ EmptyEntry s.mem d srcva)
    (hroom : ∀ e p, ipcSendArgs s cur envid = .ok e → srcva < UTOP → (s.envs e).envIpcDstva < UTOP →
      ipcPageOk (s.upte cur (PGNUM srcva)) srcva perm = true → Names (s.upte cur (PGNUM srcva)) p →
      mapCount s.upte p < 65535 ∨ Names (s.upte e (PGNUM (s.envs e).envIpcDstva)) p)
    (h : sysIpcTrySend s cur envid value srcva perm = .ok (r, s')) :
    (∃ k', Does (s.vmState k) .keep (s'.vmState k')) ∨
      ∃ e k', ipcSendArgs s cur envid = .ok e ∧ srcva < UTOP ∧ (s.envs e).envIpcDstva < UTOP ∧
        ipcPageOk (s.upte cur (PGNUM srcva)) srcva perm = true ∧
        Does (s.vmState k) (.share cur srcva e (s.envs e).envIpcDstva perm) (s'.vmState k') := by
  simp only [sysIpcTrySend] at h
  cases hargs : ipcSendArgs s cur envid with
  | error w =>
    simp only [hargs] at h
    cases h
    exact .inl ⟨k, Does.refl hx⟩
  | ok e =>
    simp only [hargs] at h
    split_ifs at h with hva
    · obtain ⟨⟨r₁, s₁⟩, hpage, h⟩ := bind_eq_ok.mp h
      have hdeliver : ∀ k', (ipcDeliver s₁ cur e value).vmState k' = s₁.vmState k' := fun k' =>
        (sameSpaces_deliver s₁ cur e value).vmState
      have hs' : ∀ k', s'.vmState k' = s₁.vmState k' := by
        intro k'
        dsimp only at h
        split_ifs at h
        · cases h
          rfl
        · cases h
          exact hdeliver k'
      rcases ipcSendPage_does hx hva (fun d hd => hlook e d hargs hva hd)
        (fun p => hroom e p hargs hva) hpage with
        ⟨k', hdoes⟩ | ⟨k', hdst, hok, hdoes⟩
      · exact .inl ⟨k', by rw [hs']; exact hdoes⟩
      · exact .inr ⟨e, k', rfl, hva, hdst, hok, by rw [hs']; exact hdoes⟩
    · cases h
      exact .inl ⟨k, (Does.refl hx).same (sameSpaces_deliver s cur e value)⟩

/-! ### New address spaces, and old ones -/

/-- `env_alloc` fails, or makes an address space for the first free environment. -/
theorem envAlloc_does {parentId : Word} {y : Except Word ℕ} (hx : (s.vmState k).Sound)
    (hfree : ∀ e, s.envFreeList = some e → e < NENV ∧ s.dirs e = none)
    (h : envAlloc s parentId = .ok (y, s')) :
    (∃ w, y = .error w) ∧ (∃ k', Does (s.vmState k) .keep (s'.vmState k')) ∨
      ∃ e k', y = .ok e ∧ s.envFreeList = some e ∧
          Does (s.vmState k) (.create e) (s'.vmState k') := by
  rw [envAlloc] at h
  cases hfl : s.envFreeList with
  | none =>
    simp only [hfl] at h
    cases h
    exact .inl ⟨⟨_, rfl⟩, k, Does.refl hx⟩
  | some e =>
    simp only [hfl] at h
    obtain ⟨⟨r₁, s₁⟩, hvm, h₁⟩ := bind_eq_ok.mp h
    obtain ⟨he, hnone⟩ := hfree e hfl
    dsimp only at h₁
    rcases envSetupVm_vm hx.vm he hnone hvm with ⟨hr, rfl⟩ | ⟨rfl, k', hnew⟩
    · rw [if_pos hr] at h₁
      cases h₁
      exact .inl ⟨⟨_, rfl⟩, k, Does.refl hx⟩
    · rw [if_neg (by decide)] at h₁
      cases h₁
      refine .inr ⟨e, k', rfl, rfl, ?_⟩
      have hsame : SameSpaces s₁ (s₁.setEnv e ((s₁.envs e).renew e parentId)) :=
        sameSpaces_setEnv s₁ e _ rfl
      obtain ⟨p, hdirs⟩ := hnew.dirs
      have hs₁ : s₁.vmState k' = ⟨s₁.mem, update s.dirs e (some p), k'⟩ := by
        rw [KState.vmState, hdirs]
      have hvm := hnew.vm
      have hentries := hnew.entries
      rw [hdirs] at hvm hentries
      have hdoes : Does (s.vmState k) (.create e) (s₁.vmState k') := by
        rw [hs₁]
        exact .create hnone hvm hentries hnew.frame
      exact hdoes.same hsame

/-- `sys_exofork`. -/
theorem sysExofork_does (hx : (s.vmState k).Sound)
    (hfree : ∀ e, s.envFreeList = some e → e < NENV ∧ s.dirs e = none)
    (h : sysExofork s cur = .ok (r, s')) :
    (∃ k', Does (s.vmState k) .keep (s'.vmState k')) ∨
      ∃ e k', s.envFreeList = some e ∧ Does (s.vmState k) (.create e) (s'.vmState k') := by
  obtain ⟨⟨y, s₁⟩, halloc, h⟩ := bind_eq_ok.mp h
  rcases envAlloc_does hx hfree halloc with ⟨⟨w, rfl⟩, hkeep⟩ | ⟨e, k', rfl, hfl, hdoes⟩
  · cases h
    exact .inl hkeep
  · cases h
    refine .inr ⟨e, k', hfl, ?_⟩
    have hlog : SameSpaces s₁ ((s₁.setStatus e .notRunnable).log (.alloc e .notRunnable)) :=
      (sameSpaces_setStatus s₁ e .notRunnable).trans (sameSpaces_log _ _)
    exact (hdoes.same hlog).same (sameSpaces_setEnv _ e _ rfl)

/-- `env_free`. -/
theorem envFree_does (hx : (s.vmState k).Sound) (h : envFree s c e = .ok s') :
    ∃ k', Does (s.vmState k) (.destroy e) (s'.vmState k') := by
  simp only [envFree, bind_eq_ok, pure_eq_ok, Except.ok.injEq] at h
  obtain ⟨pgdir, hd, m, hm, rfl⟩ := h
  have hlcr3 : SameSpaces s (if (s.log (.free c e)).curenv c = some e then
      (s.log (.free c e)).lcr3 c (s.log (.free c e)).mem.kernPgdir else s.log (.free c e)) := by
    split_ifs <;> exact ⟨rfl, rfl⟩
  generalize (if (s.log (.free c e)).curenv c = some e then
    (s.log (.free c e)).lcr3 c (s.log (.free c e)).mem.kernPgdir else s.log (.free c e)) =
      s₁ at hlcr3 hd hm ⊢
  have hd : s.dirs e = some pgdir := by
    rw [← hlcr3.2]
    exact deref_eq_some hd
  rw [hlcr3.1] at hm
  obtain ⟨k', hemptied⟩ := envFreeVm_vm hx.vm hx.small hd hm
  refine ⟨k', ?_⟩
  have hdirs : (({ s₁ with mem := m }.setEnv e
      { s₁.envs e with envPgdir := none, envStatus := .free, envLink := s₁.envFreeList } :
        KState).dirs) =
      update s.dirs e none := by
    rw [setEnv_dirs, ← hlcr3.2]
    rfl
  have hstate : (({ ({ s₁ with mem := m }.setEnv e
      { s₁.envs e with envPgdir := none, envStatus := .free, envLink := s₁.envFreeList } :
        KState) with
      envFreeList := some e } : KState).vmState k') = ⟨m, update s.dirs e none, k'⟩ := by
    rw [← hdirs]
    rfl
  rw [hstate]
  exact .destroy hd hemptied

/-! ### Loading a program -/

/-- A loop of `region_alloc` below `UTOP` maps pages. -/
theorem regionAllocLoop_works {fin i : Word} {n : ℕ} (hx : x.Sound) (hd : x.dirs e = some d)
    (hfin : fin ≤ UTOP)
    (hask : ∀ va, PGNUM i ≤ PGNUM va → va < fin → ask (.alloc e va (PTE_W ||| PTE_U)))
    (h : regionAllocLoop d fin n i x.mem = .ok m') :
    ∃ k', Works ask x ⟨m', x.dirs, k'⟩ := by
  induction n generalizing x i with
  | zero =>
    cases h
    exact ⟨x.kind, .refl x⟩
  | succ n ih =>
    rw [regionAllocLoop] at h
    by_cases hi : i < fin
    · rw [if_pos hi] at h
      obtain ⟨⟨o, m₁⟩, halloc, h⟩ := bind_eq_ok.mp h
      rcases pageAlloc_spec hx.vm.pool halloc with ⟨rfl, -, -⟩ | ⟨p, rfl, ha⟩
      · cases h
      dsimp only at h
      obtain ⟨⟨flag, m₂⟩, hins, h⟩ := bind_eq_ok.mp h
      dsimp only at h
      split_ifs at h with hflag
      have hlt : i < UTOP := BitVec.lt_def.mpr
        (lt_of_lt_of_le (BitVec.lt_def.mp hi) (BitVec.le_def.mp hfin))
      have hflags : IsFlags (PTE_W ||| PTE_U) := by decide
      rcases (ha.obtained hx.vm).insert hd hlt hflags
        (hx.small.spare e (PGNUM i)) hins with ⟨rfl, -⟩ | ⟨-, k₁, hmap, -⟩
      · exact absurd (by decide) hflag
      have hdoes : Does x (.alloc e i (PTE_W ||| PTE_U)) ⟨m₂, x.dirs, k₁⟩ :=
        .alloc hd hlt hflags hmap
      have hnext : PGNUM i ≤ PGNUM (i + PGSIZE) := by
        have hlt : i.toNat < 0xeec00000 := hlt
        have hsize : PGSIZE.toNat = 4096 := by decide
        rw [PGNUM_eq, PGNUM_eq, BitVec.toNat_add, hsize]
        omega
      obtain ⟨k', hrest⟩ := ih (x := ⟨m₂, x.dirs, k₁⟩) (hdoes.sound hx) hd
        (fun va hle => hask va (hnext.trans hle)) h
      exact ⟨k', (Works.single hdoes (hask _ le_rfl hi)).trans hrest⟩
    · rw [if_neg hi] at h
      cases h
      exact ⟨x.kind, .refl x⟩

/-- The addresses `va'` of the pages that `region_alloc(va, len)` maps. -/
def InRegion (va len va' : Word) : Prop := PGNUM va ≤ PGNUM va' ∧ va' < ROUNDUP (va + len) PGSIZE

/-- The addresses that `load_icode` maps: the segments of the program, and its stack. -/
def Elf.MapsAt (elf : Elf) (va : Word) : Prop :=
  (∃ ph ∈ elf.ph, ph.pType = ELF_PROG_LOAD ∧ InRegion ph.pVa ph.pMemsz va) ∨
    InRegion (USTACKTOP - PGSIZE) PGSIZE va

theorem regionAlloc_works {len : Word} (hx : (s.vmState k).Sound) (hd : s.dirs e = some d)
    (hva : va.toNat + len.toNat ≤ UTOP.toNat)
    (hask : ∀ va', InRegion va len va' → ask (.alloc e va' (PTE_W ||| PTE_U)))
    (h : regionAlloc s e va len = .ok s') : s'.dirs = s.dirs ∧ ∃ k',
    Works ask (s.vmState k) (s'.vmState k') := by
  obtain ⟨pgdir, hpgdir, h⟩ := bind_eq_ok.mp h
  obtain ⟨m, hloop, h⟩ := bind_eq_ok.mp h
  cases h
  have hpgdir : s.dirs e = some pgdir := deref_eq_some hpgdir
  rw [hd] at hpgdir
  cases hpgdir
  have hfirst : PGNUM (ROUNDDOWN va PGSIZE) = PGNUM va := by
    rw [PGNUM_eq, PGNUM_eq, ROUNDDOWN_toNat]
    omega
  refine ⟨rfl, regionAllocLoop_works (x := s.vmState k) hx hd (ROUNDUP_le_UTOP hva)
    (fun va' hle hlt => hask va' ⟨?_, hlt⟩) hloop⟩
  rwa [← hfirst]

theorem loadSegment_works {elf : Elf} {ph : Proghdr} (hx : (s.vmState k).Sound)
    (hd : s.dirs e = some d)
    (hva : ph.pVa.toNat + ph.pMemsz.toNat ≤ UTOP.toNat) (hsz : ph.pFilesz ≤ ph.pMemsz)
    (hask : ∀ va, InRegion ph.pVa ph.pMemsz va → ask (.alloc e va (PTE_W ||| PTE_U)))
    (hkeep : ask .keep) (h : loadSegment s e d elf ph = .ok s') :
    s'.dirs = s.dirs ∧ ∃ k', Works ask (s.vmState k) (s'.vmState k') := by
  obtain ⟨s₁, hregion, h⟩ := bind_eq_ok.mp h
  obtain ⟨m₁, hfile, h⟩ := bind_eq_ok.mp h
  obtain ⟨m₂, hbss, h⟩ := bind_eq_ok.mp h
  cases h
  obtain ⟨hdirs, k₁, hwork⟩ := regionAlloc_works hx hd hva hask hregion
  have hd₁ : s₁.dirs e = some d := by rw [hdirs, hd]
  have hle : ph.pFilesz.toNat ≤ ph.pMemsz.toNat := BitVec.le_def.mp hsz
  have hU : UTOP.toNat < 2 ^ 32 := UTOP.isLt
  have hx₁ := hwork.sound hx
  have hst₁ : Stored s₁.mem s₁.dirs k₁ m₁ := hx₁.vm.storeBytes hd₁ (by omega) hfile
  have hst₂ : Stored m₁ s₁.dirs k₁ m₂ := by
    refine hst₁.vm.storeBytes hd₁ ?_ hbss
    rw [BitVec.toNat_sub_of_le hsz, BitVec.toNat_add]
    omega
  exact ⟨hdirs, k₁, hwork.tail (hst₁.trans hst₂).does hkeep⟩

/-- `load_icode`, which leaves `kern_pgdir` loaded. -/
theorem loadIcode_works {elf : Elf} (hx : (s.vmState k).Sound) (hd : s.dirs e = some d)
    (helf : elf.BelowUTOP)
    (hask : ∀ va, elf.MapsAt va → ask (.alloc e va (PTE_W ||| PTE_U))) (hkeep : ask .keep)
    (h : loadIcode s c e elf = .ok s') :
    (∃ k', Works ask (s.vmState k) (s'.vmState k')) ∧ (s'.cpus c).cr3 = s'.mem.kernPgdir := by
  rw [loadIcode] at h
  split_ifs at h
  obtain ⟨pgdir, hpgdir, h⟩ := bind_eq_ok.mp h
  have hpgdir : s.dirs e = some pgdir := deref_eq_some hpgdir
  rw [hd] at hpgdir
  cases hpgdir
  obtain ⟨s₁, hloop, h⟩ := bind_eq_ok.mp h
  have hsegs : s₁.dirs = s.dirs ∧ ∃ k₁, Works ask (s.vmState k) (s₁.vmState k₁) := by
    refine foldlM_invariant (I := fun t : KState => t.dirs = s.dirs ∧ ∃ k₁,
      Works ask (s.vmState k) (t.vmState k₁)) hloop
      ⟨rfl, k, .refl _⟩ fun t t' ph hph ht hseg => ?_
    obtain ⟨hdirs, k₁, hwork⟩ := ht
    obtain ⟨hmem, hload⟩ := List.mem_filter.mp hph
    obtain ⟨hva, hsz⟩ := helf ph hmem (by simpa using hload)
    have hask' := fun va hin => hask va (.inl ⟨ph, hmem, by simpa using hload, hin⟩)
    obtain ⟨hdirs', k', hwork'⟩ :=
      loadSegment_works (hwork.sound hx) (by rw [hdirs, hd]) hva hsz hask' hkeep hseg
    exact ⟨hdirs'.trans hdirs, k', hwork.trans hwork'⟩
  obtain ⟨hdirs, k₁, hwork⟩ := hsegs
  let s₂ := s₁.setEnv e { s₁.envs e with envTf := { (s₁.envs e).envTf with tfEip := elf.eEntry } }
  have hs₂ : SameSpaces s₁ (s₂.lcr3 c s₂.mem.kernPgdir) := sameSpaces_setEnv s₁ e _ rfl
  have hstack : (USTACKTOP - PGSIZE).toNat + PGSIZE.toNat ≤ UTOP.toNat := by decide
  have hx₂ : ((s₂.lcr3 c s₂.mem.kernPgdir).vmState k₁).Sound := by
    rw [hs₂.vmState]
    exact hwork.sound hx
  have hd₂ : (s₂.lcr3 c s₂.mem.kernPgdir).dirs e = some d := by rw [hs₂.2, hdirs, hd]
  obtain ⟨-, k', hwork'⟩ := regionAlloc_works hx₂ hd₂ hstack (fun va hin => hask va (.inr hin)) h
  have hkern : s'.mem.kernPgdir = s₂.mem.kernPgdir := hwork'.base.kernPgdir
  rw [hs₂.vmState] at hwork'
  refine ⟨⟨k', hwork.trans hwork'⟩, ?_⟩
  have hcr3 : ((s₂.lcr3 c s₂.mem.kernPgdir).cpus c).cr3 = s₂.mem.kernPgdir := by
    simp [KState.lcr3, KState.setCpu]
  rw [hkern, (regionAlloc_memOnly h).cpus]
  exact hcr3

end JOS
