import JOS.Memory.Allocator
import JOS.Sched.Entry

/-!
# Failed system calls change nothing

A system call that returns an error code leaves the kernel as it found it, whichever
of its exits it took: the checks of the arguments come before the first change, and a
call that runs out of memory gives back what it has taken. Only the contents of pages
on the free list may differ, since `page_alloc` clears a page before the call that
wants it fails.
-/

namespace JOS

open JOS.General

open Function (update)

variable {s s' : KState} {m m' : Mem} {c cur d e p : ℕ} {r va perm : Word}

/-- The same kernel, up to the contents of pages on the free list. -/
structure SameKernel (s s' : KState) : Prop where
  base : SameBase s.mem s'.mem
  pages : s'.mem.pages = s.mem.pages
  pageFreeList : s'.mem.pageFreeList = s.mem.pageFreeList
  phys : ∀ p, ¬ s.mem.OnFreeList p → s'.mem.phys p = s.mem.phys p
  envs : s'.envs = s.envs
  envFreeList : s'.envFreeList = s.envFreeList
  cpus : s'.cpus = s.cpus

theorem SameKernel.refl (s : KState) : SameKernel s s :=
  ⟨SameBase.refl _, rfl, rfl, fun _ _ => rfl, rfl, rfl, rfl⟩

/-- The heads of the kernel's lists are elements of its arrays. -/
structure KState.InArrays (s : KState) : Prop where
  npages_le : s.mem.npages ≤ 2 ^ 20
  page : ∀ p, s.mem.pageFreeList = some p → p < s.mem.npages
  env : ∀ e, s.envFreeList = some e → e < NENV

/-! ### Running out of memory -/

/-- `page_alloc` returns null only when there is no page. -/
theorem pageAlloc_none {z : Bool} (h : pageAlloc m z = .ok (none, m')) : m' = m ∧
    m.pageFreeList = none := by
  cases hfl : m.pageFreeList with
  | none =>
    rw [pageAlloc, hfl] at h
    cases h
    exact ⟨rfl, rfl⟩
  | some p =>
    rw [pageAlloc_of_some hfl] at h
    split_ifs at h
    · obtain ⟨kva, -, h⟩ := bind_eq_ok.mp h
      cases h
    · cases h

/-- `pgdir_walk` that may create a table returns null only when there is no page for it. -/
theorem pgdirWalk_none (h : pgdirWalk m d va true = .ok (none, m')) : m' = m ∧
    m.pageFreeList = none := by
  by_cases hP : test (m.phys d (PDX va)) PTE_P = true
  · simp only [pgdirWalk, hP, if_true] at h
    obtain ⟨pt, -, h⟩ := bind_eq_ok.mp h
    cases h
  · simp only [pgdirWalk, hP, if_true, Bool.false_eq_true, if_false] at h
    obtain ⟨⟨o, m₁⟩, halloc, h⟩ := bind_eq_ok.mp h
    cases o with
    | none =>
      cases h
      exact pageAlloc_none halloc
    | some newPt =>
      obtain ⟨pt, -, h⟩ := bind_eq_ok.mp h
      cases h

/-- `page_insert` fails only for want of a page table, and before it has changed anything. -/
theorem pageInsert_fails (h : pageInsert m d p va perm = .ok (r, m')) (hr : r ≠ 0) :
    m' = m ∧ m.pageFreeList = none := by
  obtain ⟨⟨o, m₁⟩, hwalk, h⟩ := bind_eq_ok.mp h
  cases o with
  | none =>
    cases h
    exact pgdirWalk_none hwalk
  | some pte =>
    dsimp only at h
    split_ifs at h
    · cases h
      exact absurd rfl hr
    · obtain ⟨m₂, -, h⟩ := bind_eq_ok.mp h
      cases h
      exact absurd rfl hr
    · cases h
      exact absurd rfl hr

/-- Taking the last page of the free list, clearing it and giving it back. -/
theorem sameKernel_pageFree {m₁ m₂ : Mem} (hs : s.InArrays)
    (halloc : pageAlloc s.mem true = .ok (some p, m₁))
    (hnone : m₁.pageFreeList = none) (hfree : pageFree (m₁.markUser p true) p = .ok m₂) :
    SameKernel s { s with mem := m₂ } := by
  cases hfl : s.mem.pageFreeList with
  | none =>
    rw [pageAlloc, hfl] at halloc
    cases halloc
  | some q =>
    rw [pageAlloc_of_some hfl, if_pos rfl] at halloc
    obtain ⟨kva, hkva, halloc⟩ := bind_eq_ok.mp halloc
    cases halloc
    have hp : p < 2 ^ 20 := lt_of_lt_of_le (hs.page p hfl) hs.npages_le
    rw [kaddr, PGNUM_page2pa hp] at hkva
    split_ifs at hkva
    cases hkva
    have hlink : (s.mem.pages p).ppLink = none := hnone
    have hinfo : update (s.mem.pages) p { s.mem.pages p with ppLink := none } = s.mem.pages := by
      rw [← hlink]
      exact Function.update_eq_self p s.mem.pages
    rw [pageFree] at hfree
    split_ifs at hfree
    cases hfree
    refine ⟨⟨rfl, rfl, rfl, rfl⟩, ?_, hfl.symm, fun q hq => ?_, rfl, rfl, rfl⟩
    · simp only [Mem.markUser, Mem.setInfo, Mem.setPage, Mem.popFree, Mem.link, hlink,
        Function.update_self,
        Function.update_idem]
      exact hinfo
    · refine Function.update_of_ne ?_ _ _
      rintro rfl
      refine hq ⟨[q], ?_, List.mem_singleton_self q⟩
      rw [hfl]
      refine .cons ?_
      rw [Mem.link, hlink]
      exact .nil

/-! ### The calls -/

theorem sysPageAlloc_fails {envid : Word} (hs : s.InArrays)
    (h : sysPageAlloc s cur envid va perm = .ok (r, s'))
    (hr : r ≠ 0) : SameKernel s s' := by
  simp only [sysPageAlloc] at h
  split at h
  · cases h; exact .refl s
  split_ifs at h
  · cases h; exact .refl s
  · cases h; exact .refl s
  obtain ⟨⟨o, m₁⟩, halloc, h⟩ := bind_eq_ok.mp h
  cases o with
  | none =>
    cases h
    rw [(pageAlloc_none halloc).1]
    exact .refl s
  | some page =>
    obtain ⟨pgdir, -, h⟩ := bind_eq_ok.mp h
    obtain ⟨⟨flag, m₂⟩, hins, h⟩ := bind_eq_ok.mp h
    dsimp only at h
    split_ifs at h with hflag
    · obtain ⟨m₃, hfree, h⟩ := bind_eq_ok.mp h
      cases h
      obtain ⟨rfl, hnone⟩ := pageInsert_fails hins hflag
      exact sameKernel_pageFree hs halloc hnone hfree
    · cases h
      exact absurd rfl hr

theorem sysPageMap_fails {srcenvid srcva dstenvid dstva : Word}
    (h : sysPageMap s cur srcenvid srcva dstenvid dstva perm = .ok (r, s')) (hr : r ≠ 0) :
    s' = s := by
  simp only [sysPageMap] at h
  split at h
  · cases h; rfl
  obtain ⟨pgdir₁, -, h⟩ := bind_eq_ok.mp h
  obtain ⟨o, -, h⟩ := bind_eq_ok.mp h
  obtain ⟨⟨page, pte⟩, -, h⟩ := bind_eq_ok.mp h
  dsimp only at h
  split_ifs at h
  · cases h; rfl
  obtain ⟨pgdir₂, -, h⟩ := bind_eq_ok.mp h
  obtain ⟨⟨flag, m⟩, hins, h⟩ := bind_eq_ok.mp h
  dsimp only at h
  split_ifs at h with hflag
  · cases h
    rw [(pageInsert_fails hins hflag).1]
  · cases h
    exact absurd rfl hr

theorem sysPageUnmap_fails {envid : Word} (h : sysPageUnmap s cur envid va = .ok (r, s'))
    (hr : r ≠ 0) : s' = s := by
  simp only [sysPageUnmap] at h
  split at h
  · cases h; rfl
  split_ifs at h
  · cases h; rfl
  obtain ⟨pgdir, -, h⟩ := bind_eq_ok.mp h
  obtain ⟨m, -, h⟩ := bind_eq_ok.mp h
  cases h
  exact absurd rfl hr

theorem sysIpcTrySend_fails {envid value srcva : Word}
    (h : sysIpcTrySend s cur envid value srcva perm = .ok (r, s'))
    (hr : r ≠ 0) : s' = s := by
  simp only [sysIpcTrySend] at h
  split at h
  · cases h; rfl
  split_ifs at h
  · obtain ⟨⟨r₁, s₁⟩, hpage, h⟩ := bind_eq_ok.mp h
    dsimp only at h
    split_ifs at h with hr₁
    · cases h
      obtain ⟨pgdir, -, hpage⟩ := bind_eq_ok.mp hpage
      obtain ⟨o, -, hpage⟩ := bind_eq_ok.mp hpage
      cases o with
      | none => cases hpage; rfl
      | some x =>
        obtain ⟨pg, pte⟩ := x
        dsimp only at hpage
        split_ifs at hpage
        · cases hpage; rfl
        · obtain ⟨dst, -, hpage⟩ := bind_eq_ok.mp hpage
          obtain ⟨⟨flag, m⟩, hins, hpage⟩ := bind_eq_ok.mp hpage
          dsimp only at hpage
          split_ifs at hpage with hflag
          · cases hpage
            rw [(pageInsert_fails hins hflag).1]
          · cases hpage
            exact absurd rfl hr₁
        · cases hpage
          rfl
    · cases h
      exact absurd rfl hr
  · cases h
    exact absurd rfl hr

theorem envSetupVm_fails (h : envSetupVm s e = .ok (r, s')) (hr : r ≠ 0) : s' = s := by
  obtain ⟨⟨o, m₁⟩, halloc, h⟩ := bind_eq_ok.mp h
  cases o with
  | none =>
    cases h
    rw [(pageAlloc_none halloc).1]
  | some q =>
    obtain ⟨pgdir, -, h⟩ := bind_eq_ok.mp h
    cases h
    exact absurd rfl hr

/-- An environment's id is positive. -/
theorem nextEnvId_pos (old : Word) (he : e < NENV) : 0 < (nextEnvId old e).toInt := by
  have he' : e < 2 ^ 31 := lt_trans he (by decide)
  have hpos : ∀ g : Word, 0 < g.toInt → 0 < (g ||| BitVec.ofNat 32 e).toInt := by
    intro g hg
    have hg' : g.toNat < 2 ^ 31 := by
      rw [BitVec.toInt_eq_toNat_cond] at hg
      split_ifs at hg <;> omega
    have hor : (g ||| BitVec.ofNat 32 e).toNat = g.toNat ||| e := by
      rw [BitVec.toNat_or, BitVec.toNat_ofNat, Nat.mod_eq_of_lt (by omega)]
    have hlt : g.toNat ||| e < 2 ^ 31 := Nat.or_lt_two_pow hg' he'
    have hle : g.toNat ≤ g.toNat ||| e := Nat.left_le_or
    have hne : 0 < g.toNat := by
      rw [BitVec.toInt_eq_toNat_cond] at hg
      split_ifs at hg <;> omega
    rw [BitVec.toInt_eq_toNat_cond, hor]
    split_ifs <;> omega
  unfold nextEnvId
  refine hpos _ ?_
  split_ifs with h
  · decide
  · omega

/-- `sys_exofork` returns an error and changes nothing, or returns an id. -/
theorem sysExofork_fails (hs : s.InArrays) (h : sysExofork s cur = .ok (r, s')) (hr : r.toInt < 0) :
    s' = s := by
  obtain ⟨⟨x, s₁⟩, halloc, h⟩ := bind_eq_ok.mp h
  rw [envAlloc] at halloc
  cases hfl : s.envFreeList with
  | none =>
    simp only [hfl] at halloc
    cases halloc
    cases h
    rfl
  | some e =>
    simp only [hfl] at halloc
    obtain ⟨⟨r₂, s₂⟩, hvm, halloc⟩ := bind_eq_ok.mp halloc
    dsimp only at halloc
    split_ifs at halloc with hr₂
    · cases halloc
      cases h
      exact envSetupVm_fails hvm hr₂
    · cases halloc
      cases h
      have := nextEnvId_pos (s₂.envs e).envId (hs.env e hfl)
      simp only [KState.setEnv_envs_self, KState.setStatus, KState.log, Env.renew] at hr
      omega

/-- **Failed system calls change nothing**: a call that returns a negative error code leaves the
kernel as it was, up to the contents of pages on the free list. -/
theorem syscall_fails {a : SysArgs} (hs : s.InArrays) (h : syscall s c cur a = .ok (r, s'))
    (hr : r.toInt < 0) :
    SameKernel s s' := by
  have hne : r ≠ 0 := by
    rintro rfl
    exact absurd hr (by decide)
  rw [syscall] at h
  cases hno : SysNo.ofWord a.no with
  | none =>
    simp only [hno] at h
    cases h
    exact .refl s
  | some no =>
    simp only [hno] at h
    cases no with
    | cputs =>
      obtain ⟨s₁, -, h⟩ := bind_eq_ok.mp h
      cases h
      exact absurd rfl hne
    | cgetc => cases h; exact .refl s
    | getenvid => cases h; exact .refl s
    | envDestroy =>
      rw [sysEnvDestroy] at h
      cases henv : envid2env s cur a.a1 true with
      | none => simp only [henv] at h; cases h; exact .refl s
      | some e =>
        simp only [henv] at h
        obtain ⟨s₁, -, h⟩ := bind_eq_ok.mp h
        cases h
        exact absurd rfl hne
    | pageAlloc => exact sysPageAlloc_fails hs (liftStop_eq_ok.mp h) hne
    | pageMap =>
      rw [sysPageMap_fails (liftStop_eq_ok.mp h) hne]
      exact .refl s
    | pageUnmap =>
      rw [sysPageUnmap_fails (liftStop_eq_ok.mp h) hne]
      exact .refl s
    | exofork =>
      rw [sysExofork_fails hs (liftStop_eq_ok.mp h) hr]
      exact .refl s
    | envSetStatus =>
      have h := Except.ok.inj h
      rw [sysEnvSetStatus] at h
      cases hst : statusArg a.a2 with
      | none => simp only [hst] at h; cases h; exact .refl s
      | some st =>
        cases henv : envid2env s cur a.a1 true with
        | none => simp only [hst, henv] at h; cases h; exact .refl s
        | some e =>
          simp only [hst, henv] at h
          cases h
          exact absurd rfl hne
    | envSetPgfaultUpcall =>
      have h := Except.ok.inj h
      rw [sysEnvSetPgfaultUpcall] at h
      cases henv : envid2env s cur a.a1 true with
      | none => simp only [henv] at h; cases h; exact .refl s
      | some e =>
        simp only [henv] at h
        cases h
        exact absurd rfl hne
    | yield => cases h
    | ipcTrySend =>
      rw [sysIpcTrySend_fails (liftStop_eq_ok.mp h) hne]
      exact .refl s
    | ipcRecv =>
      rw [sysIpcRecv] at h
      split_ifs at h
      cases h
      exact .refl s

/-- One page is free, and environment 0 has an empty directory. -/
def lastPageState : KState :=
  { bootState 1 with mem := { bootMem with pageFreeList := some 1 } }.setEnv 0
    { unusedEnv 0 with envPgdir := some 2 }

/-- `sys_page_alloc` takes the page, finds none for the table, and gives the page back. -/
theorem syscall_fails_lastPage : ∃ s', syscall lastPageState 0 0 ⟨4, 0, 0x1000, 7, 0, 0, 0⟩ =
    .ok (-E_NO_MEM, s') ∧
    SameKernel lastPageState s' := by
  have hrun : ((syscall lastPageState 0 0 ⟨4, 0, 0x1000, 7, 0, 0, 0⟩).toOption.map Prod.fst) =
      some (-E_NO_MEM) := by
    decide +kernel
  cases h : syscall lastPageState 0 0 ⟨4, 0, 0x1000, 7, 0, 0, 0⟩ with
  | error l =>
    rw [h] at hrun
    cases hrun
  | ok x =>
    obtain ⟨r, s'⟩ := x
    rw [h] at hrun
    cases hrun
    refine ⟨s', rfl, syscall_fails ⟨by decide, ?_, ?_⟩ h (by decide)⟩
    · rintro p hp
      cases hp
      decide
    · rintro e he
      cases he
      decide

end JOS
