import JOS.Memory.Space

/-!
# The memory code does not stop

In a state that satisfies `Vm` no assertion of the memory code fails, and the addresses
it converts are those of pages that exist. The one thing `page_lookup` and `page_remove`
need to be told is that they are not called for an empty entry of a table that exists
(`EmptyEntry`): they take its frame number, 0, for a page.
-/

namespace JOS

open JOS.General

open Function (update)

variable {m m₁ m' : Mem} {D : ℕ → Option ℕ} {k : ℕ → Kind} {d e i j p q t : ℕ}
  {va perm r w : Word} {z : Bool}

/-- There is a table for `va` in the directory `d`, and its entry is empty. -/
def EmptyEntry (m : Mem) (d : ℕ) (va : Word) : Prop :=
  test (m.phys d (PDX va)) PTE_P = true ∧ test (dirPte m.phys d (PGNUM va)) PTE_P ≠ true

/-! ### The allocator -/

theorem Pool.lt_npages (h : Pool m k) (hp : k p ≠ .reserved) : p < m.npages := (h.managed p hp).1

/-- The conversion of the address of a page in use. -/
theorem Pool.kaddr_ok (h : Pool m k) (hp : k p ≠ .reserved) (hw : PGNUM w = p) :
    kaddr m w = .ok p := by
  rw [kaddr, hw, if_neg (not_le.mpr (h.lt_npages hp))]

theorem Pool.pa2page_ok (h : Pool m k) (hp : k p ≠ .reserved) (hw : PGNUM w = p) :
    pa2page m w = .ok p := by
  rw [pa2page, hw, if_neg (not_le.mpr (h.lt_npages hp))]

theorem Pool.pageAlloc_ok (h : Pool m k) (z : Bool) : ∃ r, pageAlloc m z = .ok r := by
  cases hfl : m.pageFreeList with
  | none => exact ⟨_, by rw [pageAlloc, hfl]⟩
  | some p =>
    obtain ⟨hp, hpool⟩ := h.popFree hfl
    rw [pageAlloc_of_some hfl]
    split_ifs
    · have hheld : update k p .held p ≠ .reserved := by
        rw [Function.update_self]
        simp
      have hp20 : p < 2 ^ 20 := h.lt (by rw [hp]; simp)
      rw [hpool.kaddr_ok hheld (PGNUM_page2pa hp20)]
      exact ⟨_, rfl⟩
    · exact ⟨_, rfl⟩

/-- `page_free` of a page in use that has no references. -/
theorem Pool.pageFree_ok (h : Pool m k) (hp : k p ≠ .reserved) (hpf : k p ≠ .free)
    (hz : m.ref p = 0) :
    ∃ m', pageFree m p = .ok m' := by
  have hzero : (m.pages p).ppRef = 0 := hz
  have hlink : (m.pages p).ppLink = none := h.unlinked p hp hpf
  rw [pageFree, if_neg (not_not.mpr hzero), if_neg (not_not.mpr hlink)]
  exact ⟨_, rfl⟩

/-- `page_decref` of a page in use. -/
theorem Pool.pageDecref_ok (h : Pool m k) (hp : k p ≠ .reserved) (hpf : k p ≠ .free) : ∃ m',
    pageDecref m p = .ok m' := by
  rw [pageDecref]
  split_ifs with hz
  · have hlink : ((m.setRef p ((m.pages p).ppRef - 1)).pages p).ppLink = none :=
      (congrFun (setRef_link m p _) p).trans (h.unlinked p hp hpf)
    rw [pageFree, if_neg (not_not.mpr hz), if_neg (not_not.mpr hlink)]
    exact ⟨_, rfl⟩
  · exact ⟨_, rfl⟩

/-! ### Tables -/

/-- A present entry of a user directory names a table. -/
theorem Vm.pde_kind (h : Vm m D k) (hd : D e = some d) (hva : va < UTOP)
    (hP : test (m.phys d (PDX va)) PTE_P = true) :
    k (PGNUM (m.phys d (PDX va))) = .table e (PDX va) :=
  h.tables.pde e d _ hd (PDX_lt_of_PGNUM ((PGNUM_lt_iff va).mpr hva)) hP

theorem Vm.pgdirWalk_ok (h : Vm m D k) (hd : D e = some d) (hva : va < UTOP) (create : Bool) :
    ∃ r, pgdirWalk m d va create = .ok r := by
  rw [pgdirWalk]
  by_cases hP : test (m.phys d (PDX va)) PTE_P = true
  · have hk := h.pde_kind hd hva hP
    rw [if_pos hP, h.pool.kaddr_ok (by rw [hk]; simp) (PGNUM_PTE_ADDR _)]
    exact ⟨_, rfl⟩
  rw [if_neg hP]
  cases create with
  | false => exact ⟨_, rfl⟩
  | true =>
    obtain ⟨⟨o, m₁⟩, halloc⟩ := h.pool.pageAlloc_ok true
    simp only [if_true, halloc, ok_bind]
    rcases pageAlloc_spec h.pool halloc with ⟨rfl, rfl, -⟩ | ⟨p, rfl, ha⟩
    · exact ⟨_, rfl⟩
    · have hp20 : p < 2 ^ 20 := h.pool.lt (by rw [ha.free]; simp)
      have hheld : update k p .held p ≠ .reserved := by
        rw [Function.update_self]
        simp
      have hpde : page2pa p ||| PTE_U ||| PTE_W ||| PTE_P = mkPte p (PTE_U ||| PTE_W) := by
        rw [mkPte, BitVec.or_assoc (page2pa p)]
      have hpool : Pool ((m₁.setRef p ((m₁.pages p).ppRef + 1)).setWord d (PDX va)
        (mkPte p (PTE_U ||| PTE_W))) _ :=
        (ha.pool.retag (x := .held) (r := (m₁.pages p).ppRef + 1) hheld (by simp) (by simp)
          (by simp) (by simp) fun h => h.elim).setWord
          d (PDX va) (mkPte p (PTE_U ||| PTE_W))
      have hpde' : PGNUM (PTE_ADDR (mkPte p (PTE_U ||| PTE_W))) = p := by
        rw [PGNUM_PTE_ADDR, PGNUM_mkPte hp20 (by decide)]
      simp only [setWord_phys, setW_self, hpde]
      rw [hpool.kaddr_ok (by rw [Function.update_self]; simp) hpde']
      exact ⟨_, rfl⟩

/-- `page_lookup`, when it is not called for an empty entry. -/
theorem Vm.pageLookup_ok (h : Vm m D k) (hd : D e = some d) (hva : va < UTOP)
    (hne : ¬ EmptyEntry m d va) :
    ∃ o, pageLookup m d va = .ok o := by
  obtain ⟨⟨o, m₁⟩, hwalk⟩ := h.pgdirWalk_ok hd hva false
  obtain ⟨rfl, ⟨rfl, -⟩ | ⟨t, rfl, ht⟩⟩ := pgdirWalk_false h hd hva hwalk
  · exact ⟨none, by rw [pageLookup, hwalk]; rfl⟩
  · have hP : test (m₁.phys d (PDX va)) PTE_P = true := by
      by_contra hP
      simp only [pgdirWalk, hP, if_false, Bool.false_eq_true] at hwalk
      cases hwalk
    have hv : PGNUM va < NUPAGES := (PGNUM_lt_iff va).mpr hva
    have hentry : upte m₁.phys D e (PGNUM va) = m₁.phys t (PTX va) := h.upte_walk ht
    have hpresent : test (m₁.phys t (PTX va)) PTE_P = true := by
      by_contra habsent
      refine hne ⟨hP, ?_⟩
      rw [← upte_of_dir hd hv, hentry]
      exact habsent
    have hk : k (PGNUM (m₁.phys t (PTX va))) = .data := h.tables.pte t e _ _ ht (PTX_lt va) hpresent
    have hpa : pa2page m₁ (PTE_ADDR (m₁.word ⟨t, PTX va⟩)) = .ok (PGNUM (m₁.phys t (PTX va))) :=
      h.pool.pa2page_ok (by rw [hk]; simp) (PGNUM_PTE_ADDR _)
    refine ⟨some (PGNUM (m₁.phys t (PTX va)), ⟨t, PTX va⟩), ?_⟩
    rw [pageLookup, hwalk]
    simp only [ok_bind, hpa, pure_eq_ok]

/-- Where a page is mapped there is a table. -/
theorem pde_of_names (hd : D e = some d) (hva : va < UTOP)
    (hn : Names (upte m.phys D e (PGNUM va)) p) :
    test (m.phys d (PDX va)) PTE_P = true := by
  by_contra hP
  rw [upte_of_dir hd ((PGNUM_lt_iff va).mpr hva), dirPte, ← PDX_eq, if_neg hP] at hn
  exact not_names_zero p hn

/-- `page_lookup` finds a page that is mapped. -/
theorem Vm.pageLookup_some (h : Vm m D k) (hd : D e = some d) (hva : va < UTOP)
    (hn : Names (upte m.phys D e (PGNUM va)) p) :
    ∃ t, pageLookup m d va = .ok (some (p, ⟨t, PTX va⟩)) ∧
        m.word ⟨t, PTX va⟩ = upte m.phys D e (PGNUM va) := by
  have hne : ¬ EmptyEntry m d va := by
    rintro ⟨-, hnot⟩
    rw [← upte_of_dir hd ((PGNUM_lt_iff va).mpr hva)] at hnot
    exact hnot hn.1
  obtain ⟨o, hlook⟩ := h.pageLookup_ok hd hva hne
  rcases pageLookup_spec h hd hva hlook with ⟨-, hno⟩ | ⟨t, ht, rfl⟩
  · exact absurd (pde_of_names hd hva hn) hno
  · exact ⟨t, by rw [hlook, hn.2], (h.upte_walk ht).symm⟩

/-- `page_remove`, when it is not called for an empty entry. -/
theorem Vm.pageRemove_ok (h : Vm m D k) (hd : D e = some d) (hva : va < UTOP)
    (hne : ¬ EmptyEntry m d va) :
    ∃ m', pageRemove m d va = .ok m' := by
  obtain ⟨o, hlook⟩ := h.pageLookup_ok hd hva hne
  rw [pageRemove, hlook]
  rcases pageLookup_spec h hd hva hlook with ⟨rfl, -⟩ | ⟨t, ht, rfl⟩
  · exact ⟨m, rfl⟩
  · have hk : k (PGNUM (upte m.phys D e (PGNUM va))) = .data := by
      refine h.tables.data_of_names (e := e) (v := PGNUM va) ⟨?_, rfl⟩
      by_contra hP
      have hpde : test (m.phys d (PDX va)) PTE_P = true := by
        obtain ⟨-, d', hd', hn⟩ := h.tables.table t e _ ht
        rw [hd] at hd'
        cases hd'
        exact hn.1
      refine hne ⟨hpde, ?_⟩
      rwa [← upte_of_dir hd ((PGNUM_lt_iff va).mpr hva)]
    obtain ⟨m₁, hdec⟩ := h.pool.pageDecref_ok (p := PGNUM (upte m.phys D e (PGNUM va)))
      (by rw [hk]; simp) (by rw [hk]; simp)
    simp only [ok_bind, hdec, pure_eq_ok]
    exact ⟨_, rfl⟩

/-- `page_insert`. -/
theorem Vm.pageInsert_ok (h : Vm m D k) (hd : D e = some d) (hva : va < UTOP) : ∃ r,
    pageInsert m d p va perm = .ok r := by
  obtain ⟨⟨o, m₁⟩, hwalk⟩ := h.pgdirWalk_ok hd hva true
  rw [pageInsert, hwalk]
  rcases pgdirWalk_true h hd hva hwalk with ⟨rfl, rfl⟩ | ⟨t, k₁, rfl, hw⟩
  · exact ⟨_, rfl⟩
  · simp only [ok_bind]
    split_ifs with hP hsame
    · exact ⟨_, rfl⟩
    · have hne : ¬ EmptyEntry m₁ d va := by
        rintro ⟨-, hnot⟩
        rw [← upte_of_dir hd ((PGNUM_lt_iff va).mpr hva), hw.vm.upte_walk hw.table] at hnot
        exact hnot hP
      obtain ⟨m₂, hrem⟩ := hw.vm.pageRemove_ok hd hva hne
      simp only [hrem, ok_bind, pure_eq_ok]
      exact ⟨_, rfl⟩
    · exact ⟨_, rfl⟩

/-! ### `env_free` -/

theorem envFreePtes_ok {k' : ℕ → Kind} (h : Emptying m D k e m₁ k') (hd : D e = some d)
    (ht : k' t = .table e i) :
    ∃ m', envFreePtes d t i m₁ = .ok m' := by
  obtain ⟨hi, -⟩ := h.vm.tables.table t e i ht
  let I : Mem → Prop := fun b => ∃ k'', Emptying m D k e b k'' ∧ k'' t = .table e i
  have hstep : ∀ b, ∀ j ∈ List.range NPTENTRIES, I b → ∃ b',
      (if test (b.phys t j) PTE_P then pageRemove b d (PGADDR i j 0) else .ok b) =
        .ok b' ∧ I b' := by
    rintro b j hj ⟨kb, hb, htb⟩
    have hj := List.mem_range.mp hj
    split_ifs with hP
    · obtain ⟨hva, hv⟩ := PGADDR_user hi hj
      have hentry : dirPte b.phys d (PGNUM (PGADDR i j 0)) = b.phys t j := by
        rw [← upte_of_dir hd ((PGNUM_lt_iff _).mpr hva), hv, hb.vm.tables.upte_table htb hj]
      obtain ⟨b', hrem⟩ := hb.vm.pageRemove_ok hd hva fun hempty =>
        hempty.2 (by rw [hentry]; exact hP)
      obtain ⟨kb', hb', htb', -⟩ := hb.pageRemove hd htb hi hj hP hrem
      exact ⟨b', hrem, kb', hb', htb'⟩
    · exact ⟨b, rfl, kb, hb, htb⟩
  obtain ⟨m', hloop, -⟩ := foldlM_ok (I := I) ⟨k', h, ht⟩ hstep
  exact ⟨m', hloop⟩

theorem envFreePde_ok {k' : ℕ → Kind} (h : Emptying m D k e m₁ k') (hd : D e = some d)
    (hi : i < NUPDX) :
    ∃ m', envFreePde d m₁ i = .ok m' := by
  rw [envFreePde]
  split_ifs with hP
  · have ht := h.vm.tables.pde e d i hd hi hP
    have hpt := h.vm.pool.kaddr_ok (w := PTE_ADDR (m₁.phys d i)) (by rw [ht]; simp)
      (PGNUM_PTE_ADDR _)
    obtain ⟨m₂, hptes⟩ := envFreePtes_ok h hd ht
    obtain ⟨k₂, h₂, ht₂, -⟩ := h.ptes hd ht hptes
    have hpp := h₂.vm.pool.pa2page_ok (w := PTE_ADDR (m₁.phys d i)) (by rw [ht₂]; simp)
      (PGNUM_PTE_ADDR _)
    obtain ⟨m₃, hdec⟩ := (h₂.vm.pool.setWord d i 0).pageDecref_ok (p := PGNUM (m₁.phys d i))
      (by rw [ht₂]; simp) (by rw [ht₂]; simp)
    refine ⟨m₃, ?_⟩
    simp only [hpt, ok_bind, hptes, hpp]
    exact hdec
  · exact ⟨m₁, rfl⟩

/-- The memory half of `env_free`. -/
theorem Vm.envFreeVm_ok (h : Vm m D k) (hsmall : Small (upte m.phys D)) (hd : D e = some d) : ∃ m',
    envFreeVm m d = .ok m' := by
  have hinit : Emptying m D k e m k :=
    ⟨h, hsmall, SameBase.refl m, fun q hq => ⟨hq, rfl⟩, fun _ h => h, fun _ h => h,
    fun _ _ _ => rfl⟩
  have hstep : ∀ b, ∀ i ∈ List.range NUPDX, (∃ kb, Emptying m D k e b kb) → ∃ b',
      envFreePde d b i = .ok b' ∧
      ∃ kb, Emptying m D k e b' kb := by
    rintro b i hi ⟨kb, hb⟩
    have hi := List.mem_range.mp hi
    obtain ⟨b', hpass⟩ := envFreePde_ok hb hd hi
    obtain ⟨kb', hb', -⟩ := hb.pde hd hi hpass
    exact ⟨b', hpass, kb', hb'⟩
  obtain ⟨m₁, hloop, k₁, h₁⟩ :=
    foldlM_ok (I := fun b => ∃ kb, Emptying m D k e b kb) ⟨k, hinit⟩ hstep
  have hkd : k₁ d = .dir e := (h₁.vm.tables.dir e d).mp hd
  have hd20 : d < 2 ^ 20 := h₁.vm.pool.lt (by rw [hkd]; simp)
  have hpp := h₁.vm.pool.pa2page_ok (w := page2pa d) (by rw [hkd]; simp) (PGNUM_page2pa hd20)
  obtain ⟨m', hdec⟩ := h₁.vm.pool.pageDecref_ok (p := d) (by rw [hkd]; simp) (by rw [hkd]; simp)
  refine ⟨m', ?_⟩
  simp only [envFreeVm, hloop, ok_bind, hpp]
  exact hdec

end JOS
