import JOS.Spaces.KernelHalf
import JOS.Spaces.Refs

/-!
# Freeing an environment

`env_free` drops the references of one environment, one by one, in three nested places.
When the counts are exact before, each of them lowers the count of one page that is not
zero, so no assertion fails, and the page goes to the free list when that was its last
reference (`Freeing.drop`). In the end the counts are exact again, without the environment
(`envFree_reclaims`).

The kernel may itself hold references that are in no address space, as those of
`kern_pgdir` to its tables (`kept`).
-/

namespace JOS

open JOS.General

open Function (update)

variable {s : KState} {m m' m₀ m₁ : Mem} {phys' : ℕ → ℕ → Word} {D D' : ℕ → Option ℕ} {kept : ℕ → ℕ}
  {l l₀ : List ℕ}
  {c d e i p q t x : ℕ} {va : Word}

/-! ### The allocator -/

/-- The free list is `l`: pages on it have no references, and other pages have no link. -/
structure FreePages (m : Mem) (l : List ℕ) : Prop where
  list : FreeList m l
  zero : ∀ p ∈ l, m.ref p = 0
  unlinked : ∀ p, p ∉ l → m.link p = none

theorem FreePages.setPhys (h : FreePages m l) (phys' : ℕ → ℕ → Word) :
    FreePages { m with phys := phys' } l :=
  ⟨⟨h.list.chain, h.list.lt⟩, h.zero, h.unlinked⟩

theorem FreePages.setRef (h : FreePages m l) (hq : q ∉ l) (r : BitVec 16) :
    FreePages (m.setRef q r) l := by
  refine ⟨h.list.congr (setRef_link _ _ _) rfl, fun p hp => ?_, fun p hp => ?_⟩
  · have hpq : p ≠ q := fun hpq => hq (hpq ▸ hp)
    rw [setRef_of_ne hpq]
    exact h.zero p hp
  · rw [setRef_link]
    exact h.unlinked p hp

/-- `page_free` of a page that has no references does not fail. -/
theorem pageFree_total (h : FreePages m l) (hq : q ∉ l) (hzero : m.ref q = 0) (hq20 : q < 2 ^ 20) :
    ∃ m', pageFree m q = .ok m' ∧ m'.phys = m.phys ∧ SameBase m m' ∧ m'.ref = m.ref ∧
        FreePages m' (q :: l) := by
  have hzero' : (m.pages q).ppRef = 0 := hzero
  have hlink' : (m.pages q).ppLink = none := h.unlinked q hq
  have hfree : pageFree m q = .ok { (m.setInfo q ⟨m.pageFreeList, 0⟩).markUser q false with
      pageFreeList := some q } := by
    rw [pageFree]
    simp only [hzero', hlink', ne_eq, not_true_eq_false, if_false]
  refine ⟨_, hfree, rfl, ⟨rfl, rfl, rfl, rfl⟩, ?_,
    ⟨h.list.pageFree hq hq20 hfree, fun p hp => ?_, fun p hp => ?_⟩⟩
  · funext p
    by_cases hpq : p = q <;> simp [Mem.ref, Mem.setInfo, Mem.markUser, hpq, hzero']
  · by_cases hpq : p = q
    · simp [Mem.ref, Mem.setInfo, Mem.markUser, hpq]
    · simpa [Mem.ref, Mem.setInfo, Mem.markUser, hpq] using h.zero p
        ((List.mem_cons.mp hp).resolve_left hpq)
  · obtain ⟨hpq, hpl⟩ := not_or.mp (mt List.mem_cons.mpr hp)
    simpa [Mem.link, Mem.setInfo, Mem.markUser, hpq] using h.unlinked p hpl

/-- **`page_decref` of a page that has references** does not fail. -/
theorem pageDecref_total (h : FreePages m l) (hq : m.ref q ≠ 0) (hq20 : q < 2 ^ 20) : ∃ m' l',
    pageDecref m q = .ok m' ∧
    m'.phys = m.phys ∧ SameBase m m' ∧ (∀ p, p ≠ q → m'.ref p = m.ref p) ∧ m'.ref q = m.ref q - 1 ∧
    FreePages m' l' ∧
    ∀ p, p ∈ l' ↔ p ∈ l ∨ p = q ∧ m'.ref q = 0 := by
  have hql : q ∉ l := fun hql => hq (h.zero q hql)
  have hset := h.setRef hql ((m.pages q).ppRef - 1)
  have hself : (m.setRef q ((m.pages q).ppRef - 1)).ref q = m.ref q - 1 := setRef_self _ _ _
  have hother : ∀ p, p ≠ q → (m.setRef q ((m.pages q).ppRef - 1)).ref p = m.ref p :=
    fun p hp => setRef_of_ne hp
  have hphys : (m.setRef q ((m.pages q).ppRef - 1)).phys = m.phys := rfl
  have hbase : SameBase m (m.setRef q ((m.pages q).ppRef - 1)) := ⟨rfl, rfl, rfl, rfl⟩
  have hdec : pageDecref m q = if (m.setRef q ((m.pages q).ppRef - 1)).ref q = 0 then
      pageFree (m.setRef q ((m.pages q).ppRef - 1)) q
        else .ok (m.setRef q ((m.pages q).ppRef - 1)) := rfl
  generalize m.setRef q ((m.pages q).ppRef - 1) = m₁ at hset hself hother hphys hbase hdec
  by_cases hzero : m₁.ref q = 0
  · obtain ⟨m', hfree, hphys', hbase', href, hpages⟩ := pageFree_total hset hql hzero hq20
    rw [if_pos hzero, hfree] at hdec
    refine ⟨m', q :: l, hdec, hphys'.trans hphys, hbase.trans hbase', fun p hp => ?_, ?_, hpages,
      fun p => ?_⟩
    · rw [href, hother p hp]
    · rw [href, hself]
    · rw [href, List.mem_cons]
      exact ⟨fun h => h.symm.imp_right fun h => ⟨h, hzero⟩, fun h => h.symm.imp_left And.left⟩
  · rw [if_neg hzero] at hdec
    refine ⟨m₁, l, hdec, hphys, hbase, hother, hself, hset, fun p => ?_⟩
    exact ⟨.inl, fun h => h.resolve_right fun h => hzero h.2⟩

/-! ### States with exact counts -/

/-- Directories, tables and all they name are pages of physical memory, and tables are not
shared. -/
structure Spaces (m : Mem) (D : ℕ → Option ℕ) : Prop where
  npages_le : m.npages ≤ 2 ^ 20
  unshared : Unshared m.phys D
  dir : ∀ e d, D e = some d → e < NENV ∧ d < m.npages
  table : ∀ t, IsTable m.phys D t → t < m.npages
  entry : ∀ t x q, IsTable m.phys D t → x < NPTENTRIES → Names (m.phys t x) q → q < m.npages

/-- **Reference counts are exact**: `pp_ref` of a page is the number of its references, as a natural
number, `kept` of them held by the kernel itself. -/
def Exact (m : Mem) (D : ℕ → Option ℕ) (kept : ℕ → ℕ) : Prop :=
  ∀ p < m.npages, (m.ref p).toNat = kept p + refs m.phys D p

theorem Cleared.table (h : Cleared m₀ d m) (ht : TableOf m.phys D e i t) :
    TableOf m₀.phys D e i t := by
  obtain ⟨d', hD, hi, hn⟩ := ht
  exact ⟨d', hD, hi, h.names hn⟩

theorem Cleared.isTable (h : Cleared m₀ d m) (ht : IsTable m.phys D t) : IsTable m₀.phys D t := by
  obtain ⟨e, i, ht⟩ := ht
  exact ⟨e, i, h.table ht⟩

/-- Clearing words leaves such a state. -/
theorem Spaces.cleared (hs : Spaces m₀ D) (h : Cleared m₀ d m) (hn : m.npages = m₀.npages) :
    Spaces m D := by
  refine ⟨hn ▸ hs.npages_le, ⟨hs.unshared.dir, fun e e' i i' t ht ht' => ?_, fun e e' i t ht => ?_⟩,
    fun e d hD => ?_,
    fun t ht => ?_, fun t x q ht hx hq => ?_⟩
  · exact hs.unshared.table e e' i i' t (h.table ht) (h.table ht')
  · exact hs.unshared.table_dir e e' i t (h.table ht)
  · rw [hn]
    exact hs.dir e d hD
  · rw [hn]
    exact hs.table t (h.isTable ht)
  · rw [hn]
    exact hs.entry t x q (h.isTable ht) hx (h.names hq)

/-- So does giving up a directory. -/
theorem Spaces.of_subset (h : Spaces m D) (hsub : ∀ e d, D' e = some d → D e = some d) :
    Spaces m D' := by
  have htable : ∀ {e i t}, TableOf m.phys D' e i t → TableOf m.phys D e i t :=
    fun ⟨d, hD, hn⟩ => ⟨d, hsub _ d hD, hn⟩
  have his : ∀ t, IsTable m.phys D' t → IsTable m.phys D t := fun t ⟨e, i, ht⟩ => ⟨e, i, htable ht⟩
  refine ⟨h.npages_le, ⟨fun e e' d hD hD' => ?_, fun e e' i i' t ht ht' => ?_,
    fun e e' i t ht hD => ?_⟩,
    fun e d hD => h.dir e d (hsub e d hD), fun t ht => h.table t (his t ht), fun t x q ht =>
      h.entry t x q (his t ht)⟩
  · exact h.unshared.dir e e' d (hsub e d hD) (hsub e' d hD')
  · exact h.unshared.table e e' i i' t (htable ht) (htable ht')
  · exact h.unshared.table_dir e e' i t (htable ht) (hsub e' t hD)

/-! ### Dropping references -/

/-- `env_free` has come from `m₀` to `m`: the counts are exact, and the pages that have lost their
last reference are on the free list. -/
structure Freeing (m₀ : Mem) (l₀ : List ℕ) (D : ℕ → Option ℕ) (kept : ℕ → ℕ) (d : ℕ) (m : Mem)
    (l : List ℕ) : Prop where
  pages : FreePages m l
  base : SameBase m₀ m
  exact : Exact m D kept
  le : ∀ p, (m.ref p).toNat ≤ (m₀.ref p).toNat
  freed : ∀ p, p ∈ l ↔ p ∈ l₀ ∨ m₀.ref p ≠ 0 ∧ m.ref p = 0
  cleared : Cleared m₀ d m

theorem ne_zero_of_toNat {r : BitVec 16} {a n : ℕ} (h : r.toNat = a + (n + 1)) : r ≠ 0 := by
  rintro rfl
  simp at h

/-- **One reference is dropped**, of page `q`, and `page_decref` does not fail. -/
theorem Freeing.drop (h : Freeing m₀ l₀ D kept d m l) (hn : m₀.npages ≤ 2 ^ 20) (hq : q < m₀.npages)
    (hrefs : ∀ p, refs m.phys D p = refs phys' D' p + if p = q then 1 else 0)
    (hcleared : Cleared m₀ d { m with phys := phys' }) :
    ∃ m₁ l', pageDecref m q = .ok m₁ ∧ m₁.phys = m.phys ∧
        Freeing m₀ l₀ D' kept d { m₁ with phys := phys' } l' := by
  have hcount := h.exact q (h.base.npages ▸ hq)
  rw [hrefs q, if_pos rfl] at hcount
  have hpos : m.ref q ≠ 0 := ne_zero_of_toNat hcount
  obtain ⟨m₁, l', hdec, hphys, hbase, hother, hself, hpages, hmem⟩ :=
    pageDecref_total h.pages hpos (lt_of_lt_of_le hq hn)
  have hsub : (m₁.ref q).toNat + 1 = (m.ref q).toNat := by
    rw [hself]
    bv_omega
  have hexact : ∀ p < m.npages, (m₁.ref p).toNat = kept p + refs phys' D' p := by
    intro p hp
    have hcp := h.exact p hp
    rw [hrefs p] at hcp
    by_cases hpq : p = q
    · subst hpq
      rw [if_pos rfl] at hcp
      omega
    · rw [if_neg hpq] at hcp
      rw [hother p hpq, hcp, Nat.add_zero]
  have hle : ∀ p, (m₁.ref p).toNat ≤ (m₀.ref p).toNat := by
    intro p
    have := h.le p
    by_cases hpq : p = q
    · subst hpq
      omega
    · rwa [hother p hpq]
  have hfreed : ∀ p, p ∈ l' ↔ p ∈ l₀ ∨ m₀.ref p ≠ 0 ∧ m₁.ref p = 0 := by
    intro p
    rw [hmem, h.freed]
    by_cases hpq : p = q
    · -- it had a reference up to now
      subst hpq
      have h₀ : m₀.ref p ≠ 0 := by
        intro h0
        have hle := h.le p
        rw [h0] at hle
        have hlt : 0 < (m.ref p).toNat := by omega
        simp at hle
        omega
      constructor
      · rintro ((hl | ⟨-, h0⟩) | ⟨-, h0⟩)
        · exact .inl hl
        · exact absurd h0 hpos
        · exact .inr ⟨h₀, h0⟩
      · rintro (hl | ⟨-, h0⟩)
        · exact .inl (.inl hl)
        · exact .inr ⟨rfl, h0⟩
    · rw [hother p hpq]
      exact ⟨fun h => h.resolve_right fun h => hpq h.1, .inl⟩
  refine ⟨m₁, l', hdec, hphys, hpages.setPhys phys',
    (h.base.trans hbase).trans ⟨rfl, rfl, rfl, rfl⟩, ?_, hle, hfreed,
    hbase.kernPgdir.trans hcleared.kernPgdir, hcleared.words⟩
  rw [← hbase.npages] at hexact
  exact hexact

/-! ### The loops -/

/-- `page_remove` when there is a table. -/
theorem pageRemove_of_decref (ht : Names (m.phys d (PDX va)) t) (htn : t < m.npages)
    (hqn : PGNUM (m.phys t (PTX va)) < m.npages)
    (hdec : pageDecref m (PGNUM (m.phys t (PTX va))) = .ok m₁) :
    pageRemove m d va = .ok (m₁.setWord t (PTX va) 0) := by
  have hwalk : pgdirWalk m d va false = .ok (some ⟨t, PTX va⟩, m) := by
    simp only [pgdirWalk, ht.1, if_true, kaddr, PGNUM_PTE_ADDR, ht.2]
    rw [if_neg (not_le.mpr htn)]
    rfl
  have hpage : pa2page m (PTE_ADDR (m.phys t (PTX va))) = .ok (PGNUM (m.phys t (PTX va))) := by
    rw [pa2page, PGNUM_PTE_ADDR, if_neg (not_le.mpr hqn)]
  simp only [pageRemove, pageLookup, hwalk, ok_bind, Mem.word, hpage, pure_eq_ok, hdec]

/-- The inner loop: it empties the table. -/
theorem Freeing.ptes (h : Freeing m₀ l₀ D kept d m l) (hs : Spaces m₀ D) (hD : D e = some d)
    (hi : i < NUPDX)
    (hn : Names (m.phys d i) t) : ∃ m' l', envFreePtes d t i m = .ok m' ∧
    Freeing m₀ l₀ D kept d m' l' ∧
      m'.phys d = m.phys d ∧ ∀ x < NPTENTRIES, test (m'.phys t x) PTE_P ≠ true := by
  let I : Mem → Prop := fun b => (∃ l', Freeing m₀ l₀ D kept d b l') ∧ b.phys d = m.phys d
  let P : ℕ → Mem → Prop := fun x b => test (b.phys t x) PTE_P ≠ true
  have hstep : ∀ b, ∀ x ∈ List.range NPTENTRIES, I b → ∃ b',
      (if test (b.phys t x) PTE_P then pageRemove b d (PGADDR i x 0) else .ok b) = .ok b' ∧
        I b' ∧ P x b' ∧
        ∀ y, P y b → P y b' := by
    rintro b x hx ⟨⟨l₁, hb⟩, hdir⟩
    have hx := List.mem_range.mp hx
    by_cases hP : test (b.phys t x) PTE_P = true
    · rw [if_pos hP]
      have hsb := hs.cleared hb.cleared hb.base.npages
      have hnb : Names (b.phys d i) t := by rwa [hdir]
      have htable : TableOf b.phys D e i t := ⟨d, hD, hi, hnb⟩
      have htd : d ≠ t := by
        rintro rfl
        exact hsb.unshared.table_dir e e i d htable hD
      have hq : PGNUM (b.phys t x) < b.npages := hsb.entry t x _ ⟨e, i, htable⟩ hx ⟨hP, rfl⟩
      have hpdx : PDX (PGADDR i x 0) = i := PDX_PGADDR (lt_trans hi (by decide)) hx
      have hptx : PTX (PGADDR i x 0) = x := by
        have hx' : x < 1024 := hx
        rw [PTX_eq, PGNUM_PGADDR (lt_trans hi (by decide)) hx]
        omega
      have hcl : Cleared m₀ d { b with phys := setW b.phys t x 0 } :=
        hb.cleared.clear rfl rfl (.inr ⟨i, hi, hnb⟩)
      obtain ⟨m₁, l', hdec, hphys, hm₁⟩ := hb.drop hs.npages_le (hb.base.npages ▸ hq)
        (refs_clearPte hsb.unshared ⟨e, i, htable⟩ hx ⟨hP, rfl⟩) hcl
      have hrem : pageRemove b d (PGADDR i x 0) = .ok (m₁.setWord t x 0) := by
        have hrem' : pageRemove b d (PGADDR i x 0) = .ok (m₁.setWord t (PTX (PGADDR i x 0)) 0) :=
          pageRemove_of_decref (by rw [hpdx]; exact hnb) (hsb.table t ⟨e, i, htable⟩)
            (by rw [hptx]; exact hq) (by rw [hptx]; exact hdec)
        rwa [hptx] at hrem'
      have hset : m₁.setWord t x 0 = { m₁ with phys := setW b.phys t x 0 } := by
        rw [← hphys]
        rfl
      rw [hset] at hrem
      refine ⟨_, hrem, ⟨⟨l', hm₁⟩, ?_⟩, ?_, fun y hy => ?_⟩
      · exact (setW_of_ne htd).trans hdir
      · show test (setW b.phys t x 0 t x) PTE_P ≠ true
        rw [setW_self, test_zero]
        simp
      · show test (setW b.phys t x 0 t y) PTE_P ≠ true
        by_cases hyx : y = x
        · rw [hyx, setW_self, test_zero]
          simp
        · rwa [setW_of_ne_index hyx]
    · rw [if_neg hP]
      exact ⟨b, rfl, ⟨⟨l₁, hb⟩, hdir⟩, hP, fun _ h => h⟩
  obtain ⟨m', hloop, ⟨⟨l', hm'⟩, hdir⟩, -, hall⟩ :=
    foldlM_total (I := I) (P := P) ⟨⟨l, h⟩, rfl⟩ hstep
  exact ⟨m', l', hloop, hm', hdir, fun x hx => hall x (List.mem_range.mpr hx)⟩

theorem PGNUM_lt_of_names {w : Word} (hn : Names w t) (ht : t < m.npages) :
    ¬ PGNUM (PTE_ADDR w) ≥ m.npages := by
  rw [PGNUM_PTE_ADDR, hn.2]
  exact not_le.mpr ht

/-- One pass of the outer loop: it gives up the table. -/
theorem Freeing.pde (h : Freeing m₀ l₀ D kept d m l) (hs : Spaces m₀ D) (hD : D e = some d)
    (hi : i < NUPDX) :
    ∃ m' l', envFreePde d m i = .ok m' ∧ Freeing m₀ l₀ D kept d m' l' ∧
      test (m'.phys d i) PTE_P ≠ true ∧
      ∀ j, test (m.phys d j) PTE_P ≠ true → test (m'.phys d j) PTE_P ≠ true := by
  by_cases hP : test (m.phys d i) PTE_P = true
  · obtain ⟨t, hn⟩ : ∃ t, Names (m.phys d i) t := ⟨_, hP, rfl⟩
    have hsm := hs.cleared h.cleared h.base.npages
    have ht : t < m.npages := hsm.table t ⟨e, i, d, hD, hi, hn⟩
    obtain ⟨m₁, l₁, hptes, h₁, hdir, hempty⟩ := h.ptes hs hD hi hn
    have hs₁ := hs.cleared h₁.cleared h₁.base.npages
    have hn₁ : Names (m₁.phys d i) t := by rwa [hdir]
    have ht₁ : t < m₁.npages := hs₁.table t ⟨e, i, d, hD, hi, hn₁⟩
    have hcl : Cleared m₀ d { m₁ with phys := setW m₁.phys d i 0 } :=
      h₁.cleared.clear rfl rfl (.inl ⟨rfl, hi⟩)
    obtain ⟨m₂, l₂, hdec, hphys, h₂⟩ := h₁.drop hs.npages_le (h₁.base.npages ▸ ht₁)
      (refs_clearPde hs₁.unshared (hs.dir e d hD).1 hD hi hn₁ hempty) hcl
    have hset : m₂.setWord d i 0 = { m₂ with phys := setW m₁.phys d i 0 } := by
      rw [← hphys]
      rfl
    have hrun : envFreePde d m i = .ok (m₂.setWord d i 0) := by
      have hpt : kaddr m (PTE_ADDR (m.phys d i)) = .ok t := by
        rw [kaddr, if_neg (PGNUM_lt_of_names hn ht), PGNUM_PTE_ADDR, hn.2]
      have hpp : pa2page m₁ (PTE_ADDR (m.phys d i)) = .ok t := by
        rw [pa2page, if_neg (PGNUM_lt_of_names hn ht₁), PGNUM_PTE_ADDR, hn.2]
      rw [envFreePde, if_pos hP]
      simp only [hpt, ok_bind, hptes, hpp]
      exact pageDecref_setWord d i 0 hdec
    rw [hset] at hrun
    refine ⟨_, l₂, hrun, h₂, ?_, fun j hj => ?_⟩
    · show test (setW m₁.phys d i 0 d i) PTE_P ≠ true
      rw [setW_self, test_zero]
      simp
    · show test (setW m₁.phys d i 0 d j) PTE_P ≠ true
      by_cases hji : j = i
      · rw [hji, setW_self, test_zero]
        simp
      · rwa [setW_of_ne_index hji, hdir]
  · exact ⟨m, l, by rw [envFreePde, if_neg hP], h, hP, fun _ h => h⟩

/-- **The memory half of `env_free`**: it does not fail, and afterwards the counts are exact without
the environment. -/
theorem envFreeVm_total (hs : Spaces m D) (hexact : Exact m D kept) (hpages : FreePages m l)
    (hD : D e = some d) :
    ∃ m' l', envFreeVm m d = .ok m' ∧ Freeing m l (update D e none) kept d m' l' := by
  have hstart : Freeing m l D kept d m l := by
    refine ⟨hpages, .refl m, hexact, fun _ => le_rfl, fun p => ?_, rfl, fun _ _ => .inl rfl⟩
    exact ⟨.inl, fun h => h.elim id fun h => absurd h.2 h.1⟩
  have hstep : ∀ b, ∀ i ∈ List.range NUPDX, (∃ l', Freeing m l D kept d b l') → ∃ b',
      envFreePde d b i = .ok b' ∧
      (∃ l', Freeing m l D kept d b' l') ∧ test (b'.phys d i) PTE_P ≠ true ∧
        ∀ j, test (b.phys d j) PTE_P ≠ true → test (b'.phys d j) PTE_P ≠ true := by
    rintro b i hi ⟨l', hb⟩
    obtain ⟨b', l'', hrun, hb', hP, hkeep⟩ := hb.pde hs hD (List.mem_range.mp hi)
    exact ⟨b', hrun, ⟨l'', hb'⟩, hP, hkeep⟩
  obtain ⟨m₁, hloop, ⟨l₁, h₁⟩, -, hempty⟩ :=
    foldlM_total (I := fun b => ∃ l', Freeing m l D kept d b l')
    (P := fun j b => test (b.phys d j) PTE_P ≠ true) ⟨l, hstart⟩ hstep
  have hempty : ∀ i < NUPDX, test (m₁.phys d i) PTE_P ≠ true :=
    fun i hi => hempty i (List.mem_range.mpr hi)
  obtain ⟨he, hd⟩ := hs.dir e d hD
  obtain ⟨m₂, l₂, hdec, hphys, h₂⟩ := h₁.drop hs.npages_le hd (refs_dropDir he hD hempty) h₁.cleared
  have hm₂ : { m₂ with phys := m₁.phys } = m₂ := by
    rw [← hphys]
  rw [hm₂] at h₂
  refine ⟨m₂, l₂, ?_, h₂⟩
  have hpp : pa2page m₁ (page2pa d) = .ok d := by
    rw [pa2page, PGNUM_page2pa (lt_of_lt_of_le hd hs.npages_le), h₁.base.npages,
      if_neg (not_le.mpr hd)]
  simp only [envFreeVm, hloop, ok_bind, hpp]
  exact hdec

/-! ### What an environment alone refers to -/

/-- All references to page `p` are those of environment `e`. -/
def OnlyFrom (s : KState) (kept : ℕ → ℕ) (e p : ℕ) : Prop :=
  0 < refs s.mem.phys s.dirs p ∧ kept p = 0 ∧ refs s.mem.phys (update s.dirs e none) p = 0

/-- An address space from which nothing is cleared. -/
theorem Cleared.translate {e' d' : ℕ} (h : Cleared m d m') (hun : Unshared m.phys D)
    (hd : D e = some d) (hd' : D e' = some d')
    (hne : e' ≠ e) (hva : va < UTOP) : JOS.translate m' d' va = JOS.translate m d' va := by
  obtain ⟨hdir, htable⟩ := hun.not_below hd hd' hne
  have hword : ∀ q x, ¬ Below m.phys d q x → m'.phys q x = m.phys q x := fun q x hb =>
    (h.words q x).resolve_right fun hw => hb hw.2
  refine translate_congr (fun t => by rw [hword _ _ (hdir _)]) fun t ht =>
    hword _ _ (htable (PDX va) t ?_ _)
  exact ⟨d', hd', PDX_lt_of_lt hva, ht⟩

theorem of_update_none {e' d' : ℕ} (h : update D e none e' = some d') : e' ≠ e ∧
    D e' = some d' := by
  by_cases hee : e' = e
  · rw [hee, Function.update_self] at h
    cases h
  · rw [Function.update_of_ne hee] at h
    exact ⟨hee, h⟩

/-- The references of the other environments are still there. -/
theorem Cleared.refs (h : Cleared m d m') (hun : Unshared m.phys D) (hd : D e = some d) (p : ℕ) :
    JOS.refs m'.phys (update D e none) p = JOS.refs m.phys (update D e none) p := by
  have hword : ∀ q x, ¬ Below m.phys d q x → m'.phys q x = m.phys q x := fun q x hb =>
    (h.words q x).resolve_right fun hw => hb hw.2
  refine refs_congr (fun e' d' hd' i _ => ?_) (fun t ht x => ?_) p
  · obtain ⟨hne, hd'⟩ := of_update_none hd'
    exact hword _ _ ((hun.not_below hd hd' hne).1 i)
  · obtain ⟨e', i, d', hd', hi, hn⟩ := ht
    obtain ⟨hne, hd'⟩ := of_update_none hd'
    exact hword _ _ ((hun.not_below hd hd' hne).2 i t ⟨d', hd', hi, hn⟩ x)

/-- `env_free` is its memory half, and then the slot is free. -/
theorem envFree_of_envFreeVm (hD : s.dirs e = some d) (h : envFreeVm s.mem d = .ok m') :
    ∃ s', envFree s c e = .ok s' ∧ s'.mem = m' ∧ s'.dirs = update s.dirs e none := by
  have hlcr3 : SameSpaces s (if (s.log (.free c e)).curenv c = some e then
      (s.log (.free c e)).lcr3 c (s.log (.free c e)).mem.kernPgdir else s.log (.free c e)) := by
    split_ifs <;> exact ⟨rfl, rfl⟩
  simp only [envFree]
  generalize (if (s.log (.free c e)).curenv c = some e then
    (s.log (.free c e)).lcr3 c (s.log (.free c e)).mem.kernPgdir else s.log (.free c e)) =
      s₁ at hlcr3 ⊢
  have hd₁ : (s₁.envs e).envPgdir = some d := (congrFun hlcr3.2 e).trans hD
  have hm₁ : envFreeVm s₁.mem d = .ok m' := by rw [hlcr3.1, h]
  simp only [hd₁, deref, ok_bind, hm₁, pure_eq_ok]
  refine ⟨_, rfl, rfl, ?_⟩
  rw [← hlcr3.2]
  funext e'
  by_cases hee : e' = e
  · subst hee
    simp [KState.dirs, KState.setEnv]
  · simp [KState.dirs, KState.setEnv, Function.update_of_ne hee]

/-- Which pages lose their last reference. -/
theorem lastRef_iff {r r' : BitVec 16} {k a b : ℕ} (h : r.toNat = k + a) (h' : r'.toNat = k + b) :
    r ≠ 0 ∧ r' = 0 ↔ 0 < a ∧ k = 0 ∧ b = 0 := by
  have hr : r = 0 ↔ r.toNat = 0 := by simp [← BitVec.toNat_inj]
  have hr' : r' = 0 ↔ r'.toNat = 0 := by simp [← BitVec.toNat_inj]
  rw [ne_eq, hr, hr', h, h']
  omega

/-- **Teardown reclaims everything and nothing else**: in a state with exact counts `env_free(e)`
does not fail, the counts are exact again without `e`, the pages that only `e` referred to are on
the free list once, no other page is freed or loses references of the other environments, and these
translate as before. -/
theorem envFree_reclaims (hs : Spaces s.mem s.dirs) (hexact : Exact s.mem s.dirs kept)
    (hpages : FreePages s.mem l)
    (hD : s.dirs e = some d) : ∃ s' l', envFree s c e = .ok s' ∧ s'.dirs = update s.dirs e none ∧
      Spaces s'.mem s'.dirs ∧ Exact s'.mem s'.dirs kept ∧ FreePages s'.mem l' ∧
      (∀ p < s.mem.npages, OnlyFrom s kept e p → l'.count p = 1) ∧
      (∀ p < s.mem.npages, ¬ OnlyFrom s kept e p → (p ∈ l' ↔ p ∈ l)) ∧
      (∀ p, refs s'.mem.phys s'.dirs p = refs s.mem.phys (update s.dirs e none) p) ∧
      ∀ e' va, e' ≠ e → va < UTOP → translateOf s' e' va = translateOf s e' va := by
  obtain ⟨m', l', hvm, hf⟩ := envFreeVm_total hs hexact hpages hD
  obtain ⟨s', hrun, rfl, hdirs⟩ := envFree_of_envFreeVm (c := c) hD hvm
  have hcl := hf.cleared
  have hrefs := hcl.refs hs.unshared hD
  -- which pages are freed
  have hfreed : ∀ p < s.mem.npages, p ∈ l' ↔ p ∈ l ∨ OnlyFrom s kept e p := by
    intro p hp
    have hold := hexact p hp
    have hnew := hf.exact p (hf.base.npages ▸ hp)
    rw [hrefs p] at hnew
    rw [hf.freed, OnlyFrom, lastRef_iff hold hnew]
  refine ⟨s', l', hrun, hdirs, ?_, ?_, hf.pages, fun p hp honly => ?_, fun p hp honly => ?_, ?_, ?_⟩
  · rw [hdirs]
    exact (hs.cleared hcl hf.base.npages).of_subset fun e' d' h => (of_update_none h).2
  · rw [hdirs]
    exact hf.exact
  · exact List.count_eq_one_of_mem hf.pages.list.chain.nodup ((hfreed p hp).mpr (.inr honly))
  · rw [hfreed p hp]
    exact ⟨fun h => h.resolve_right honly, .inl⟩
  · rw [hdirs]
    exact hrefs
  · intro e' va hne hva
    rw [translateOf, translateOf, hdirs, Function.update_of_ne hne]
    cases hd' : s.dirs e' with
    | none => rfl
    | some d' => exact hcl.translate hs.unshared hD hd' hne hva

/-! ### A page mapped twice and a page shared -/

/-- The references, when the directories, the entries that name tables and the entries of tables are
listed. -/
theorem refs_listed {ds : List (ℕ × ℕ)} {ts ps : List ((ℕ × ℕ) × ℕ)}
    (hlists : ds.Nodup ∧ ts.Nodup ∧ ps.Nodup)
    (henv : ∀ x ∈ ds, x.1 < NENV) (hds : ∀ e d, D e = some d ↔ (e, d) ∈ ds)
    (hts : ∀ e i t, TableOf phys' D e i t ↔ ((e, i), t) ∈ ts)
    (hps : ∀ t x q, t ∈ ts.map Prod.snd ∧ x < NPTENTRIES ∧ Names (phys' t x) q ↔ ((t, x), q) ∈ ps)
    (p : ℕ) :
    refs phys' D p = (ps.map Prod.snd ++ ts.map Prod.snd ++ ds.map Prod.snd).count p := by
  classical
  have htable : ∀ t, IsTable phys' D t ↔ t ∈ ts.map Prod.snd := by
    intro t
    simp only [IsTable, hts, List.mem_map, Prod.exists, exists_eq_right]
  have hpte : pteRefs phys' D p = (ps.map Prod.snd).count p := by
    refine card_filter_listed (R := fun y q => IsTable phys' D y.1 ∧
      Names (phys' y.1 y.2) q) hlists.2.2 (fun y q => ?_) p
    rw [mem_tableEntries, ← hps, ← htable]
    exact ⟨fun h => ⟨h.2.1, h.1.2, h.2.2⟩, fun h => ⟨⟨h.1.lt, h.2.1⟩, h.1, h.2.2⟩⟩
  have hpde : pdeRefs phys' D p = (ts.map Prod.snd).count p := by
    refine card_filter_listed (R := fun y q => ∃ d, D y.1 = some d ∧
      Names (phys' d y.2) q) hlists.2.1 (fun y q => ?_) p
    rw [mem_dirEntries, ← hts]
    constructor
    · rintro ⟨⟨-, hi⟩, d, hd, hn⟩
      exact ⟨d, hd, hi, hn⟩
    · rintro ⟨d, hd, hi, hn⟩
      exact ⟨⟨henv (y.1, d) ((hds y.1 d).mp hd), hi⟩, d, hd, hn⟩
  have hdir : dirRefs D p = (ds.map Prod.snd).count p := by
    refine card_filter_listed (R := fun e d => D e = some d) hlists.1 (fun e d => ?_) p
    rw [Finset.mem_range, ← hds]
    exact ⟨And.right, fun h => ⟨henv _ ((hds e d).mp h), h⟩⟩
  rw [refs, hpte, hpde, hdir, List.count_append, List.count_append]

/-- What the words of two address spaces name. The directories are pages 4 and 5, the tables pages 8
and 11; page 9 is at two addresses of the first one, and page 10 is shared. -/
def sharedNames : List ((ℕ × ℕ) × ℕ) :=
  [((4, 0), 8), ((5, 0), 11), ((8, 0), 9), ((8, 1), 9), ((8, 2), 10), ((11, 0), 10)]

def sharedSpaces : KState :=
  { twoSpaces 0 with
    mem := { (twoSpaces 0).mem with
      phys := fun t x => ((sharedNames.lookup (t, x)).map (mkPte · (PTE_U ||| PTE_W))).getD 0
      pages := fun p => if p = 9 ∨ p = 10 then ⟨none, 2⟩ else (twoSpaces 0).mem.pages p } }

theorem lookup_sharedNames : sharedNames.lookup (t, x) = some q ↔ ((t, x), q) ∈ sharedNames := by
  constructor
  · intro h
    obtain ⟨l₁, l₂, hl, -⟩ := List.lookup_eq_some_iff.mp h
    rw [hl]
    exact List.mem_append_right _ List.mem_cons_self
  · intro h
    simp only [sharedNames, List.mem_cons, List.not_mem_nil, Prod.mk.injEq, or_false] at h
    rcases h with ⟨⟨rfl, rfl⟩, rfl⟩ | ⟨⟨rfl, rfl⟩, rfl⟩ | ⟨⟨rfl, rfl⟩, rfl⟩ | ⟨⟨rfl, rfl⟩, rfl⟩ |
      ⟨⟨rfl, rfl⟩, rfl⟩ |
      ⟨⟨rfl, rfl⟩, rfl⟩ <;> rfl

theorem names_sharedSpaces : Names (sharedSpaces.mem.phys t x) q ↔ ((t, x), q) ∈ sharedNames := by
  have hword : sharedSpaces.mem.phys t x =
    ((sharedNames.lookup (t, x)).map (mkPte · (PTE_U ||| PTE_W))).getD 0 := rfl
  rw [hword, ← lookup_sharedNames]
  cases hlook : sharedNames.lookup (t, x) with
  | none => exact ⟨fun h => absurd h (not_names_zero q), fun h => nomatch h⟩
  | some p =>
    have hp : p < 2 ^ 20 := (by decide : ∀ y ∈ sharedNames, y.2 < 2 ^ 20) _
      (lookup_sharedNames.mp hlook)
    have hnames : Names (mkPte p (PTE_U ||| PTE_W)) p := names_mkPte hp (by decide)
    rw [Option.map_some, Option.getD_some, Option.some.injEq]
    exact ⟨fun h => names_unique hnames h, fun h => h ▸ hnames⟩

theorem sharedSpaces_dirs : sharedSpaces.dirs e = some d ↔ (e, d) ∈ [(0, 4), (1, 5)] := by
  constructor
  · intro h
    rcases twoSpaces_dirs (w := 0) h with ⟨rfl, rfl⟩ | ⟨rfl, rfl⟩ <;> decide
  · intro h
    simp only [List.mem_cons, List.not_mem_nil, Prod.mk.injEq, or_false] at h
    rcases h with ⟨rfl, rfl⟩ | ⟨rfl, rfl⟩ <;> rfl

theorem table_sharedSpaces (hD : ∀ e d, D e = some d → sharedSpaces.dirs e = some d) :
    TableOf sharedSpaces.mem.phys D e i t ↔
      (D e).isSome ∧ ((e, i), t) ∈ [((0, 0), 8), ((1, 0), 11)] := by
  simp only [TableOf, names_sharedSpaces, Option.isSome_iff_exists]
  constructor
  · rintro ⟨d, hd, hi, hn⟩
    refine ⟨⟨d, hd⟩, ?_⟩
    rcases twoSpaces_dirs (w := 0) (hD e d hd) with ⟨rfl, rfl⟩ | ⟨rfl, rfl⟩ <;>
      simpa [sharedNames] using hn
  · rintro ⟨⟨d, hd⟩, hn⟩
    simp only [List.mem_cons, List.not_mem_nil, Prod.mk.injEq, or_false] at hn
    refine ⟨d, hd, ?_⟩
    rcases twoSpaces_dirs (w := 0) (hD e d hd) with ⟨rfl, rfl⟩ | ⟨rfl, rfl⟩
    · obtain ⟨rfl, rfl⟩ : i = 0 ∧ t = 8 := by omega
      decide
    · obtain ⟨rfl, rfl⟩ : i = 0 ∧ t = 11 := by omega
      decide

/-- The references of both environments, and of the second one alone. -/
theorem refs_sharedSpaces (p : ℕ) : refs sharedSpaces.mem.phys sharedSpaces.dirs p =
    [9, 9, 10, 10, 8, 11, 4, 5].count p ∧
    refs sharedSpaces.mem.phys (update sharedSpaces.dirs 0 none) p = [10, 11, 5].count p := by
  have hboth : ∀ e i t, TableOf sharedSpaces.mem.phys sharedSpaces.dirs e i t ↔
      ((e, i), t) ∈ [((0, 0), 8), ((1, 0), 11)] := by
    intro e i t
    rw [table_sharedSpaces fun _ _ => id]
    refine ⟨And.right, fun h => ⟨?_, h⟩⟩
    simp only [List.mem_cons, List.not_mem_nil, Prod.mk.injEq, or_false] at h
    rcases h with ⟨⟨rfl, -⟩, -⟩ | ⟨⟨rfl, -⟩, -⟩ <;> rfl
  have hdirs : ∀ e d, update sharedSpaces.dirs 0 none e = some d ↔ (e, d) ∈ [(1, 5)] := by
    intro e d
    by_cases he : e = 0
    · simp [he]
    · rw [Function.update_of_ne he, sharedSpaces_dirs]
      simp [he]
  have hsecond : ∀ e i t, TableOf sharedSpaces.mem.phys (update sharedSpaces.dirs 0 none) e i t ↔
      ((e, i), t) ∈ [((1, 0), 11)] := by
    intro e i t
    rw [table_sharedSpaces fun _ _ h => (of_update_none h).2]
    by_cases he : e = 0
    · simp [he]
    · rw [Function.update_of_ne he]
      simp only [List.mem_cons, List.not_mem_nil, Prod.mk.injEq, or_false, he, false_and, false_or]
      refine ⟨And.right, fun h => ⟨?_, h⟩⟩
      rw [h.1.1]
      rfl
  have hps : ∀ t x q, t ∈ [8, 11] ∧ x < NPTENTRIES ∧ Names (sharedSpaces.mem.phys t x) q ↔
      ((t, x), q) ∈ [((8, 0), 9), ((8, 1), 9), ((8, 2), 10), ((11, 0), 10)] := by
    intro t x q
    rw [names_sharedSpaces]
    simp only [sharedNames, List.mem_cons, List.not_mem_nil, Prod.mk.injEq, or_false]
    constructor
    · rintro ⟨rfl | rfl, -, h⟩ <;> simpa using h
    · rintro (⟨⟨rfl, rfl⟩, rfl⟩ | ⟨⟨rfl, rfl⟩, rfl⟩ | ⟨⟨rfl, rfl⟩, rfl⟩ | ⟨⟨rfl, rfl⟩, rfl⟩) <;>
        decide
  have hps' : ∀ t x q, t ∈ [11] ∧ x < NPTENTRIES ∧ Names (sharedSpaces.mem.phys t x) q ↔
      ((t, x), q) ∈ [((11, 0), 10)] := by
    intro t x q
    rw [names_sharedSpaces]
    simp only [sharedNames, List.mem_cons, List.not_mem_nil, Prod.mk.injEq, or_false]
    constructor
    · rintro ⟨rfl, -, h⟩
      simpa using h
    · rintro ⟨⟨rfl, rfl⟩, rfl⟩
      decide
  exact ⟨refs_listed (by decide) (by decide) (fun e d => sharedSpaces_dirs) hboth hps p,
    refs_listed (by decide) (by decide) hdirs hsecond hps' p⟩

theorem sharedSpaces_spaces : Spaces sharedSpaces.mem sharedSpaces.dirs := by
  have htables : ∀ {e i t}, TableOf sharedSpaces.mem.phys sharedSpaces.dirs e i t →
      e = 0 ∧ i = 0 ∧ t = 8 ∨ e = 1 ∧ i = 0 ∧ t = 11 := by
    intro e i t h
    have hmem := ((table_sharedSpaces fun _ _ => id).mp h).2
    simp only [List.mem_cons, List.not_mem_nil, Prod.mk.injEq, or_false] at hmem
    omega
  have hdirs : ∀ {e d}, sharedSpaces.dirs e = some d → e = 0 ∧ d = 4 ∨ e = 1 ∧ d = 5 :=
    twoSpaces_dirs (w := 0)
  have hpages : sharedSpaces.mem.npages = 16 := rfl
  have henvs : NENV = 1024 := rfl
  refine ⟨by decide, ⟨fun e e' d hd hd' => ?_, fun e e' i i' t ht ht' => ?_, fun e e' i t ht hd =>
    ?_⟩, fun e d hd => ?_,
    fun t ⟨e, i, ht⟩ => ?_, fun t x q _ _ hn => ?_⟩
  · have := hdirs hd
    have := hdirs hd'
    omega
  · have := htables ht
    have := htables ht'
    omega
  · have := htables ht
    have := hdirs hd
    omega
  · have := hdirs hd
    omega
  · have := htables ht
    omega
  · rw [hpages]
    exact lt_of_lt_of_le ((by decide : ∀ y ∈ sharedNames, y.2 < 12) _ (names_sharedSpaces.mp hn))
      (by decide)

/-- The environment is freed: its directory, its table and the page that it has twice are on the
free list once. What the other one refers to is not, and the page that both had is still where the
other one has it. -/
theorem envFree_reclaims_shared : ∃ s' l', envFree sharedSpaces 0 0 = .ok s' ∧
    (∀ p ∈ [4, 8, 9], l'.count p = 1) ∧
    (∀ p ∈ [5, 10, 11], p ∉ l') ∧ FreePages s'.mem l' ∧ refs s'.mem.phys s'.dirs 10 = 1 ∧
    translateOf s' 1 0 = some (mkPte 10 (PTE_U ||| PTE_W)) := by
  have hexact : Exact sharedSpaces.mem sharedSpaces.dirs fun p => if 4 ≤ p ∧
      p ≤ 11 then 0 else 1 := by
    intro p _
    rw [(refs_sharedSpaces p).1]
    by_cases h : 4 ≤ p ∧ p ≤ 11
    · obtain ⟨hlo, hhi⟩ := h
      interval_cases p <;> decide
    · have hcount : [9, 9, 10, 10, 8, 11, 4, 5].count p = 0 := by
        rw [List.count_eq_zero]
        simp only [List.mem_cons, List.not_mem_nil, or_false]
        omega
      have href : sharedSpaces.mem.ref p = 1 := by
        have hne : p ≠ 6 ∧ p ≠ 7 ∧ ¬ (p = 9 ∨ p = 10) := by omega
        simp [sharedSpaces, twoSpaces, Mem.ref, hne]
      dsimp only
      rw [hcount, href, if_neg h]
      rfl
  have hpages : FreePages sharedSpaces.mem [6, 7] := by
    refine ⟨⟨.cons (.cons .nil), by decide⟩, by decide, fun p hp => ?_⟩
    simp only [List.mem_cons, List.not_mem_nil, or_false, not_or] at hp
    simp only [Mem.link, sharedSpaces, twoSpaces, hp.1, hp.2, if_false]
    split_ifs <;> rfl
  obtain ⟨s', l', hrun, -, -, -, hfree, honly, hother, hrefs, hsame⟩ :=
    envFree_reclaims (c := 0) (e := 0) sharedSpaces_spaces hexact hpages rfl
  have hleft : ∀ p, OnlyFrom sharedSpaces (fun p => if 4 ≤ p ∧ p ≤ 11 then 0 else 1) 0 p ↔
      0 < [9, 9, 10, 10, 8, 11, 4, 5].count p ∧ (if 4 ≤ p ∧ p ≤ 11 then 0 else 1) = 0 ∧
          [10, 11, 5].count p = 0 := by
    intro p
    rw [OnlyFrom, (refs_sharedSpaces p).1, (refs_sharedSpaces p).2]
  refine ⟨s', l', hrun, fun p hp => ?_, fun p hp => ?_, hfree, ?_,
    (hsame 1 0 (by decide) (by decide)).trans rfl⟩
  · simp only [List.mem_cons, List.not_mem_nil, or_false] at hp
    rcases hp with rfl | rfl | rfl <;> exact honly _ (by decide) ((hleft _).mpr (by decide))
  · simp only [List.mem_cons, List.not_mem_nil, or_false] at hp
    rcases hp with rfl | rfl | rfl <;>
      exact fun hmem => absurd ((hother _ (by decide) (mt (hleft _).mp (by decide))).mp hmem)
        (by decide)
  · rw [hrefs, (refs_sharedSpaces 10).2]
    decide

end JOS
