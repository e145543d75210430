import JOS.Memory.Footprint

/-!
# One directory and the free list

What `pgdir_walk` and the writes that follow it do to the entries of one directory
(`dirPte`), when some entries of it, the set `W`, name different tables and not the
directory itself (`OwnTables`). All other directories, and all uses of pages but these,
are left open, so that the lemmas serve an environment as well as `kern_pgdir`.
-/

namespace JOS

open JOS.General

open Function (update)

variable {m m' : Mem} {phys : ℕ → ℕ → Word} {W : ℕ → Prop} {d i p q t v v' : ℕ} {va w : Word}
  {o : Option ℕ} {z : Bool}
  {l : List ℕ}

/-! ### The free list -/

/-- The free list is `l`, and physical addresses have 32 bits. -/
structure FreeList (m : Mem) (l : List ℕ) : Prop where
  chain : Chain m.link m.pageFreeList l
  lt : ∀ p ∈ l, p < 2 ^ 20

theorem FreeList.congr (h : FreeList m l) (hlink : m'.link = m.link)
    (hfl : m'.pageFreeList = m.pageFreeList) :
    FreeList m' l := ⟨by rw [hlink, hfl]; exact h.chain, h.lt⟩

/-- The first page is taken. -/
theorem FreeList.popFree (h : FreeList m l) (hfl : m.pageFreeList = some p) :
    ∃ t, l = p :: t ∧ p ∉ t ∧ p < 2 ^ 20 ∧ FreeList (m.popFree p) t := by
  have hchain := h.chain
  rw [hfl] at hchain
  obtain ⟨t, rfl, ht⟩ := hchain.of_some
  have hpt : p ∉ t := (List.nodup_cons.mp hchain.nodup).1
  refine ⟨t, rfl, hpt, h.lt p List.mem_cons_self, ?_, fun q hq =>
    h.lt q (List.mem_cons_of_mem _ hq)⟩
  exact ht.congr fun q hq => popFree_link fun hqp => hpt (hqp ▸ hq)

/-- A page that was not on the list is pushed. -/
theorem FreeList.pageFree (h : FreeList m l) (hp : p ∉ l) (hp20 : p < 2 ^ 20)
    (hr : pageFree m p = .ok m') :
    FreeList m' (p :: l) := by
  rw [JOS.pageFree] at hr
  split_ifs at hr
  cases hr
  refine ⟨h.chain.push ?_ fun q hq => ?_, fun q hq => ?_⟩
  · simp [Mem.link, Mem.setInfo, Mem.markUser]
  · have hqp : q ≠ p := fun h => hp (h ▸ hq)
    simp [Mem.link, Mem.setInfo, Mem.markUser, Function.update_of_ne hqp]
  · rcases List.mem_cons.mp hq with rfl | hq
    · exact hp20
    · exact h.lt q hq

/-- `page_decref` pushes the page, or does not touch the list. -/
theorem FreeList.pageDecref (h : FreeList m l) (hp : p ∉ l) (hp20 : p < 2 ^ 20)
    (hr : pageDecref m p = .ok m') :
    FreeList m' l ∨ FreeList m' (p :: l) := by
  have hset : FreeList (m.setRef p ((m.pages p).ppRef - 1)) l := h.congr (setRef_link _ _ _) rfl
  rw [JOS.pageDecref] at hr
  split_ifs at hr
  · exact .inr (hset.pageFree hp hp20 hr)
  · cases hr
    exact .inl hset

/-- `page_alloc` takes the first page. -/
theorem pageAlloc_list (hl : FreeList m l) (h : pageAlloc m z = .ok (o, m')) :
    o = none ∧ m' = m ∨ ∃ p t, l = p :: t ∧ o = some p ∧ FreeList m' t ∧ SameBase m m' ∧
      m'.ref = m.ref ∧
      m'.phys = if z then update m.phys p fun _ => 0 else m.phys := by
  cases hfl : m.pageFreeList with
  | none =>
    simp only [pageAlloc, hfl] at h
    cases h
    exact .inl ⟨rfl, rfl⟩
  | some p =>
    obtain ⟨t, rfl, -, hp, hpop⟩ := hl.popFree hfl
    rw [pageAlloc_of_some hfl] at h
    refine .inr ⟨p, t, rfl, ?_⟩
    by_cases hz : z = true
    · rw [if_pos hz, kaddr, PGNUM_page2pa hp] at h
      split_ifs at h
      · cases h
      · cases h
        exact ⟨rfl, ⟨hpop.chain, hpop.lt⟩, ⟨rfl, rfl, rfl, rfl⟩,
          popFree_ref m p, by rw [if_pos hz]; rfl⟩
    · rw [if_neg hz] at h
      cases h
      exact ⟨rfl, hpop, ⟨rfl, rfl, rfl, rfl⟩, popFree_ref m p, by rw [if_neg hz]; rfl⟩

/-- The entry `pgdir_walk` writes for a new table. -/
def newPde (p : ℕ) : Word := page2pa p ||| PTE_U ||| PTE_W ||| PTE_P

theorem names_newPde (hp : p < 2 ^ 20) : Names (newPde p) p := by
  have hpde : newPde p = mkPte p (PTE_U ||| PTE_W) := by
    rw [newPde, mkPte, BitVec.or_assoc (page2pa p)]
  rw [hpde]
  exact names_mkPte hp (by decide)

/-- `pgdir_walk` that may create: the table is there, or the first free page becomes the table. -/
theorem pgdirWalk_list {pte : PtePtr} (hl : FreeList m l)
    (h : pgdirWalk m d va true = .ok (some pte, m')) :
    m' = m ∧ pte = ⟨PGNUM (m.phys d (PDX va)), PTX va⟩ ∧ test (m.phys d (PDX va)) PTE_P = true ∨
      test (m.phys d (PDX va)) PTE_P ≠ true ∧ ∃ p t, l = p :: t ∧ pte = ⟨p, PTX va⟩ ∧
        FreeList m' t ∧ SameBase m m' ∧
        (∀ q, q ≠ p → m'.ref q = m.ref q) ∧ m'.ref p = m.ref p + 1 ∧
        m'.phys = setW (update m.phys p fun _ => 0) d (PDX va) (newPde p) := by
  by_cases hP : test (m.phys d (PDX va)) PTE_P = true
  · simp only [pgdirWalk, hP, if_true, kaddr, PGNUM_PTE_ADDR] at h
    split_ifs at h
    · cases h
    · cases h
      exact .inl ⟨rfl, rfl, hP⟩
  · simp only [pgdirWalk, hP, if_false, if_true, Bool.false_eq_true] at h
    obtain ⟨⟨x, m₁⟩, halloc, h₁⟩ := bind_eq_ok.mp h
    rcases pageAlloc_list hl halloc with ⟨rfl, -⟩ | ⟨p, t, rfl, rfl, ht, hbase, href, hphys⟩
    · cases h₁
    · obtain ⟨pt, hpt, h₂⟩ := bind_eq_ok.mp h₁
      cases h₂
      have hp : p < 2 ^ 20 := hl.lt p List.mem_cons_self
      have hpde := (names_newPde hp).2
      rw [newPde] at hpde
      rw [kaddr] at hpt
      split_ifs at hpt
      cases hpt
      rw [if_pos rfl] at hphys
      simp only [PGNUM_PTE_ADDR, setWord_phys, setRef_phys, setW_self, hpde]
      refine .inr ⟨hP, p, t, rfl, rfl, ht.congr (setRef_link _ _ _) rfl,
        hbase.trans ⟨rfl, rfl, rfl, rfl⟩,
        fun q hq => ?_, ?_, by rw [hphys]; rfl⟩
      · rw [setWord_ref, setRef_of_ne hq, href]
      · rw [setWord_ref, setRef_self, ← href]
        rfl

/-- It only fails when there is no free page. -/
theorem pgdirWalk_total (hl : FreeList m (p :: l)) (hp : p < m.npages)
    (hn : ∀ q, Names (m.phys d (PDX va)) q → q < m.npages) :
    ∃ pte m', pgdirWalk m d va true = .ok (some pte, m') := by
  by_cases hP : test (m.phys d (PDX va)) PTE_P = true
  · refine ⟨⟨PGNUM (m.phys d (PDX va)), PTX va⟩, m, ?_⟩
    have := hn _ ⟨hP, rfl⟩
    simp only [pgdirWalk, hP, if_true, kaddr, PGNUM_PTE_ADDR]
    rw [if_neg (by omega)]
    rfl
  · have hp20 : p < 2 ^ 20 := hl.lt p List.mem_cons_self
    have hfl : m.pageFreeList = some p := by
      cases h : m.pageFreeList with
      | none =>
        have := hl.chain
        rw [h] at this
        cases this
      | some q =>
        obtain ⟨t, ht, -⟩ := hl.popFree h
        cases ht
        rfl
    have hnp : (m.popFree p).npages = m.npages := rfl
    have hk : kaddr (m.popFree p) (page2pa p) = .ok p := by
      rw [kaddr, PGNUM_page2pa hp20, hnp, if_neg (by omega)]
    have halloc : pageAlloc m true = .ok (some p, (m.popFree p).setPage p fun _ => 0) := by
      rw [pageAlloc_of_some hfl, if_pos rfl, hk]
      rfl
    have hpde := (names_newPde hp20).2
    rw [newPde] at hpde
    simp only [pgdirWalk, hP, if_false, if_true, Bool.false_eq_true, halloc, ok_bind, kaddr,
      PGNUM_PTE_ADDR,
      setWord_phys, setW_self, hpde]
    rw [if_neg (by exact not_le.mpr hp)]
    exact ⟨_, _, rfl⟩

/-! ### The tables of a directory -/

/-- The entries of `d` in `W` name different tables, and not `d` itself. -/
structure OwnTables (phys : ℕ → ℕ → Word) (d : ℕ) (W : ℕ → Prop) : Prop where
  inj : ∀ i j t, W i → W j → Names (phys d i) t → Names (phys d j) t → i = j
  ne : ∀ i, W i → ¬ Names (phys d i) d

theorem dirPte_of_names (h : Names (phys d (v / 1024)) t) :
    dirPte phys d v = phys t (v % 1024) := by
  rw [dirPte, if_pos h.1, h.2]

theorem dirPte_of_absent (h : test (phys d (v / 1024)) PTE_P ≠ true) : dirPte phys d v = 0 := by
  rw [dirPte, if_neg h]

/-- The hardware and the kernel find the same entry. -/
theorem translate_eq_dirPte : translate m d va = if test (dirPte m.phys d (PGNUM va)) PTE_P then
    some (dirPte m.phys d (PGNUM va)) else none := by
  rw [translate, dirPte, ← PDX_eq, ← PTX_eq]
  dsimp only
  by_cases hP : test (m.phys d (PDX va)) PTE_P = true
  · simp only [hP, if_true]
  · simp only [hP, if_false, test_zero, Bool.false_eq_true]

namespace OwnTables

/-- An entry of a table is written. -/
theorem dirPte_setPte (h : OwnTables phys d W) (hv : W (v / 1024)) (hv' : W (v' / 1024))
    (ht : Names (phys d (v / 1024)) t) :
    dirPte (setW phys t (v % 1024) w) d v' = if v' = v then w else dirPte phys d v' := by
  have hdt : d ≠ t := by
    rintro rfl
    exact h.ne _ hv ht
  by_cases hP : test (phys d (v' / 1024)) PTE_P = true
  · have hn : Names (setW phys t (v % 1024) w d (v' / 1024)) (PGNUM (phys d (v' / 1024))) := by
      rw [setW_of_ne hdt]
      exact ⟨hP, rfl⟩
    rw [dirPte_of_names hn, dirPte_of_names ⟨hP, rfl⟩]
    by_cases hvv : v' = v
    · subst hvv
      rw [if_pos rfl, ht.2, setW_self]
    · rw [if_neg hvv]
      by_cases htt : PGNUM (phys d (v' / 1024)) = t
      · have hi := h.inj _ _ _ hv' hv ⟨hP, htt⟩ ht
        refine setW_of_ne_index ?_
        omega
      · rw [setW_of_ne htt]
  · have hP' : test (setW phys t (v % 1024) w d (v' / 1024)) PTE_P ≠ true := by rwa [setW_of_ne hdt]
    rw [dirPte_of_absent hP', dirPte_of_absent hP, if_neg]
    rintro rfl
    exact hP ht.1

/-- A table is still the table of its entry when an entry of a table has been written. -/
theorem setPte (h : OwnTables phys d W) (hdt : d ≠ t) : OwnTables (setW phys t i w) d W := by
  refine ⟨fun i j t' hi hj hn hn' => ?_, fun i hi hn => ?_⟩
  · rw [setW_of_ne hdt] at hn hn'
    exact h.inj i j t' hi hj hn hn'
  · rw [setW_of_ne hdt] at hn
    exact h.ne i hi hn

/-- An entry of the directory is written that names the same table as before. -/
theorem dirPte_setPde (h : OwnTables phys d W) (hv : W (v / 1024)) (ht : Names (phys d i) t)
    (hw : Names w t) :
    dirPte (setW phys d i w) d v = dirPte phys d v := by
  by_cases hP : test (phys d (v / 1024)) PTE_P = true
  · have hne : PGNUM (phys d (v / 1024)) ≠ d := fun he => h.ne _ hv ⟨hP, he⟩
    have hn : Names (setW phys d i w d (v / 1024)) (PGNUM (phys d (v / 1024))) := by
      by_cases hvi : v / 1024 = i
      · rw [hvi, setW_self, ht.2]
        exact hw
      · rw [setW_of_ne_index hvi]
        exact ⟨hP, rfl⟩
    rw [dirPte_of_names hn, dirPte_of_names ⟨hP, rfl⟩, setW_of_ne hne]
  · have hvi : v / 1024 ≠ i := by
      intro hvi
      rw [hvi] at hP
      exact hP ht.1
    have hP' : test (setW phys d i w d (v / 1024)) PTE_P ≠ true := by rwa [setW_of_ne_index hvi]
    rw [dirPte_of_absent hP', dirPte_of_absent hP]

theorem setPde (h : OwnTables phys d W) (ht : Names (phys d i) t) (hw : Names w t) :
    OwnTables (setW phys d i w) d W := by
  have hnames : ∀ j t', Names (setW phys d i w d j) t' → Names (phys d j) t' := by
    intro j t' hn
    by_cases hji : j = i
    · rw [hji, setW_self] at hn
      rw [hji, ← names_unique hw hn]
      exact ht
    · rwa [setW_of_ne_index hji] at hn
  exact ⟨fun j j' t' hj hj' hn hn' => h.inj j j' t' hj hj' (hnames j t' hn) (hnames j' t' hn'),
    fun j hj hn => h.ne j hj (hnames j d hn)⟩

/-- An empty page becomes a table. -/
theorem dirPte_newTable (h : OwnTables phys d W) (hv : W (v / 1024))
    (hP : test (phys d i) PTE_P ≠ true) (hp : p ≠ d)
    (hfresh : ∀ j, W j → ¬ Names (phys d j) p) (hw : Names w p) :
    dirPte (setW (update phys p fun _ => 0) d i w) d v = dirPte phys d v := by
  have hdir : ∀ j, j ≠ i → setW (update phys p fun _ => 0) d i w d j = phys d j := by
    intro j hj
    rw [setW_of_ne_index hj, Function.update_of_ne (Ne.symm hp)]
  by_cases hvi : v / 1024 = i
  · have hn : Names (setW (update phys p fun _ => 0) d i w d (v / 1024)) p := by
      rw [hvi, setW_self]
      exact hw
    rw [dirPte_of_names hn, setW_of_ne hp, Function.update_self, dirPte_of_absent (by rwa [hvi])]
  · by_cases hPv : test (phys d (v / 1024)) PTE_P = true
    · have hne : PGNUM (phys d (v / 1024)) ≠ d := fun he => h.ne _ hv ⟨hPv, he⟩
      have hne' : PGNUM (phys d (v / 1024)) ≠ p := fun he => hfresh _ hv ⟨hPv, he⟩
      have hn : Names (setW (update phys p fun _ => 0) d i w d (v / 1024))
          (PGNUM (phys d (v / 1024))) := by
        rw [hdir _ hvi]
        exact ⟨hPv, rfl⟩
      rw [dirPte_of_names hn, dirPte_of_names ⟨hPv, rfl⟩, setW_of_ne hne,
        Function.update_of_ne hne']
    · have hP' : test (setW (update phys p fun _ => 0) d i w d (v / 1024)) PTE_P ≠ true := by
        rwa [hdir _ hvi]
      rw [dirPte_of_absent hP', dirPte_of_absent hPv]

theorem newTable (h : OwnTables phys d W) (hp : p ≠ d) (hfresh : ∀ j, W j → ¬ Names (phys d j) p)
    (hw : Names w p) :
    OwnTables (setW (update phys p fun _ => 0) d i w) d W := by
  have hdir : ∀ j, j ≠ i → setW (update phys p fun _ => 0) d i w d j = phys d j := by
    intro j hj
    rw [setW_of_ne_index hj, Function.update_of_ne (Ne.symm hp)]
  have hself : ∀ t', Names (setW (update phys p fun _ => 0) d i w d i) t' → t' = p := by
    intro t' hn
    rw [setW_self] at hn
    exact (names_unique hw hn).symm
  refine ⟨fun j j' t' hj hj' hn hn' => ?_, fun j hj hn => ?_⟩
  · by_cases hji : j = i
    · by_cases hji' : j' = i
      · rw [hji, hji']
      · rw [hji] at hn
        rw [hdir j' hji', hself t' hn] at hn'
        exact absurd hn' (hfresh j' hj')
    · rw [hdir j hji] at hn
      by_cases hji' : j' = i
      · rw [hji'] at hn'
        rw [hself t' hn'] at hn
        exact absurd hn (hfresh j hj)
      · rw [hdir j' hji'] at hn'
        exact h.inj j j' t' hj hj' hn hn'
  · by_cases hji : j = i
    · rw [hji] at hn
      exact hp (hself d hn).symm
    · rw [hdir j hji] at hn
      exact h.ne j hj hn

end OwnTables

end JOS
