import JOS.Spaces.Calls
import JOS.Memory.UserMem

/-!
# Loading a program writes the new address space only

`load_icode` copies a program through the page tables it is filling, so what it writes
depends on what these tables say. `Loading` is the invariant of its loops: tables and
pages of the new address space come from the free list, each for one entry, and no
table is mapped as a page. A store below `UTOP` then hits none of the tables, and
nothing is written but pages of the free list and the user half of the directory.
-/

namespace JOS

open JOS.General

open Function (update)

variable {m₀ m m' m₁ : Mem} {l₀ l : List ℕ} {c d e i p q t v : ℕ} {va fin perm r w : Word}
  {b : BitVec 8}

/-- The user half of `d`, which was empty in `m₀` when the free list was `l₀`, is being filled. -/
structure Loading (m₀ : Mem) (l₀ : List ℕ) (d : ℕ) (m : Mem) (l : List ℕ) : Prop where
  base : SameBase m₀ m
  list : FreeList m l
  sub : ∀ p ∈ l, p ∈ l₀
  /-- What has been written. -/
  words : ∀ q x, m.phys q x = m₀.phys q x ∨ q ∈ l₀ ∨ q = d ∧ x < NUPDX
  tables : OwnTables m.phys d (· < NUPDX)
  table : ∀ i < NUPDX, ∀ t, Names (m.phys d i) t → t ∈ l₀ ∧ t ∉ l
  pte : ∀ v < NUPAGES, ∀ p, Names (dirPte m.phys d v) p → p ∈ l₀ ∧ p ∉ l ∧ ∀ i < NUPDX,
    ¬ Names (m.phys d i) p
  pte_inj : ∀ v < NUPAGES, ∀ v' < NUPAGES, ∀ p, Names (dirPte m.phys d v) p →
    Names (dirPte m.phys d v') p → v = v'

/-- Page `p` has been taken from the free list and is not in use. -/
structure Held (l₀ : List ℕ) (d : ℕ) (m : Mem) (l : List ℕ) (p : ℕ) : Prop where
  taken : p ∈ l₀ ∧ p ∉ l
  lt : p < 2 ^ 20
  table : ∀ i < NUPDX, ¬ Names (m.phys d i) p
  pte : ∀ v < NUPAGES, ¬ Names (dirPte m.phys d v) p

theorem PGNUM_div_lt (hva : va < UTOP) : PGNUM va < NUPAGES ∧ PGNUM va / 1024 < NUPDX :=
  ⟨(PGNUM_lt_iff va).mpr hva, div_lt_NUPDX ((PGNUM_lt_iff va).mpr hva)⟩

namespace Loading

/-- Nothing that is looked at has changed. -/
theorem congr (h : Loading m₀ l₀ d m l) (hb : SameBase m m') (hphys : m'.phys = m.phys)
    (hl : FreeList m' l) :
    Loading m₀ l₀ d m' l := by
  refine ⟨h.base.trans hb, hl, h.sub, ?_, ?_, ?_, ?_, ?_⟩ <;> rw [hphys]
  · exact h.words
  · exact h.tables
  · exact h.table
  · exact h.pte
  · exact h.pte_inj

/-- The free list is shorter. -/
theorem shrink (h : Loading m₀ l₀ d m (p :: l)) (hb : SameBase m m') (hphys : m'.phys = m.phys)
    (hl : FreeList m' l)
    (hp : p ∉ l) : Loading m₀ l₀ d m' l ∧ Held l₀ d m' l p := by
  have hmem : ∀ {q}, q ∈ l → q ∈ p :: l := fun hq => List.mem_cons_of_mem _ hq
  have hp' : p ∈ p :: l := List.mem_cons_self
  refine ⟨⟨h.base.trans hb, hl, fun q hq => h.sub q (hmem hq), ?_, ?_, ?_, ?_, ?_⟩,
    ⟨h.sub p hp', hp⟩, h.list.lt p hp', ?_, ?_⟩ <;> rw [hphys]
  · exact h.words
  · exact h.tables
  · exact fun i hi t hn => ⟨(h.table i hi t hn).1, fun ht => (h.table i hi t hn).2 (hmem ht)⟩
  · exact fun v hv q hn => ⟨(h.pte v hv q hn).1, fun hq => (h.pte v hv q hn).2.1 (hmem hq),
      (h.pte v hv q hn).2.2⟩
  · exact h.pte_inj
  · exact fun i hi hn => (h.table i hi p hn).2 hp'
  · exact fun v hv hn => (h.pte v hv p hn).2.1 hp'

/-- `page_alloc`. -/
theorem pageAlloc (h : Loading m₀ l₀ d m l) (hr : pageAlloc m false = .ok (some p, m')) :
    ∃ t, Loading m₀ l₀ d m' t ∧ Held l₀ d m' t p := by
  rcases pageAlloc_list h.list hr with ⟨hn, -⟩ | ⟨p', t, rfl, hp, ht, hbase, -, hphys⟩
  · cases hn
  · cases hp
    have hnodup := h.list.chain.nodup
    exact ⟨t, h.shrink hbase hphys ht (List.nodup_cons.mp hnodup).1⟩

/-- A new table. -/
theorem newTable (h : Loading m₀ l₀ d m (t :: l)) (hd : d ∉ l₀) (hi : i < NUPDX)
    (hP : test (m.phys d i) PTE_P ≠ true)
    (hb : SameBase m m') (hl : FreeList m' l) (ht : t ∉ l)
    (hphys : m'.phys = setW (update m.phys t fun _ => 0) d i (newPde t))
    (hheld : Held l₀ d m (t :: l) p) :
    Loading m₀ l₀ d m' l ∧ Held l₀ d m' l p ∧ Names (m'.phys d i) t := by
  have hmem : ∀ {q}, q ∈ l → q ∈ t :: l := fun hq => List.mem_cons_of_mem _ hq
  have ht' : t ∈ t :: l := List.mem_cons_self
  have htd : t ≠ d := fun htd => hd (htd ▸ h.sub t ht')
  have hfresh : ∀ j < NUPDX, ¬ Names (m.phys d j) t := fun j hj hn => (h.table j hj t hn).2 ht'
  have hnew : Names (newPde t) t := names_newPde (h.list.lt t ht')
  have hpte : ∀ v < NUPAGES, dirPte m'.phys d v = dirPte m.phys d v := by
    intro v hv
    rw [hphys]
    exact h.tables.dirPte_newTable (div_lt_NUPDX hv) hP htd hfresh hnew
  have hself : m'.phys d i = newPde t := by rw [hphys, setW_self]
  have hdir : ∀ j, j ≠ i → m'.phys d j = m.phys d j := by
    intro j hj
    rw [hphys, setW_of_ne_index hj, Function.update_of_ne (Ne.symm htd)]
  have hnames : ∀ j q, Names (m'.phys d j) q → j = i ∧ q = t ∨ Names (m.phys d j) q := by
    intro j q hn
    by_cases hj : j = i
    · rw [hj, hself] at hn
      exact .inl ⟨hj, (names_unique hnew hn).symm⟩
    · rw [hdir j hj] at hn
      exact .inr hn
  refine ⟨⟨h.base.trans hb, hl, fun q hq => h.sub q (hmem hq), fun q x => ?_, ?_, fun j hj q hn =>
    ?_, fun v hv q hn => ?_,
    fun v hv v' hv' q hn hn' => ?_⟩, ⟨⟨hheld.taken.1, fun hp => hheld.taken.2 (hmem hp)⟩, hheld.lt,
    fun j hj hn => ?_,
    fun v hv hn => ?_⟩, ?_⟩
  · by_cases hq : q = t
    · exact .inr (.inl (hq ▸ h.sub t ht'))
    · rw [hphys]
      rcases setW_eq_or (update m.phys t fun _ => 0) d i (newPde t) q x with hw | ⟨rfl, rfl⟩
      · rw [hw, Function.update_of_ne hq]
        exact h.words q x
      · exact .inr (.inr ⟨rfl, hi⟩)
  · rw [hphys]
    exact h.tables.newTable htd hfresh hnew
  · rcases hnames j q hn with ⟨-, rfl⟩ | hn
    · exact ⟨h.sub q ht', ht⟩
    · exact ⟨(h.table j hj q hn).1, fun hq => (h.table j hj q hn).2 (hmem hq)⟩
  · rw [hpte v hv] at hn
    obtain ⟨hq, hql, hqt⟩ := h.pte v hv q hn
    refine ⟨hq, fun hq => hql (hmem hq), fun j hj hn' => ?_⟩
    rcases hnames j q hn' with ⟨-, rfl⟩ | hn'
    · exact hql ht'
    · exact hqt j hj hn'
  · rw [hpte v hv] at hn
    rw [hpte v' hv'] at hn'
    exact h.pte_inj v hv v' hv' q hn hn'
  · rcases hnames j p hn with ⟨-, rfl⟩ | hn
    · exact hheld.taken.2 ht'
    · exact hheld.table j hj hn
  · rw [hpte v hv] at hn
    exact hheld.pte v hv hn
  · rw [hself]
    exact hnew

/-- `pgdir_walk`. -/
theorem walk {pte : PtePtr} (h : Loading m₀ l₀ d m l) (hd : d ∉ l₀) (hva : va < UTOP)
    (hheld : Held l₀ d m l p)
    (hr : pgdirWalk m d va true = .ok (some pte, m')) :
    ∃ t l', pte = ⟨t, PTX va⟩ ∧ Loading m₀ l₀ d m' l' ∧ Held l₀ d m' l' p ∧
        Names (m'.phys d (PDX va)) t := by
  rcases pgdirWalk_list h.list hr with ⟨rfl, rfl, hP⟩ |
    ⟨hP, t, l', rfl, rfl, hl', hbase, -, -, hphys⟩
  · exact ⟨_, l, rfl, h, hheld, hP, rfl⟩
  · have hnodup := h.list.chain.nodup
    obtain ⟨hload, hheld', hn⟩ :=
      h.newTable hd (PDX_lt_of_lt hva) hP hbase hl' (List.nodup_cons.mp hnodup).1 hphys hheld
    exact ⟨t, l', rfl, hload, hheld', hn⟩

/-- An entry of a table is written: nothing, or a page that is held. -/
theorem setPte (h : Loading m₀ l₀ d m l) (hv : v < NUPAGES) (ht : Names (m.phys d (v / 1024)) t)
    (hb : SameBase m m') (hl : FreeList m' l) (hphys : m'.phys = setW m.phys t (v % 1024) w)
    (hw : ∀ p, Names w p → Held l₀ d m l p) : Loading m₀ l₀ d m' l := by
  have hi : v / 1024 < NUPDX := div_lt_NUPDX hv
  have hdt : d ≠ t := by
    rintro rfl
    exact h.tables.ne _ hi ht
  have hdir : ∀ j, m'.phys d j = m.phys d j := fun j => by rw [hphys, setW_of_ne hdt]
  have hpte : ∀ v' < NUPAGES, dirPte m'.phys d v' = if v' = v then w else dirPte m.phys d v' := by
    intro v' hv'
    rw [hphys]
    exact h.tables.dirPte_setPte hi (div_lt_NUPDX hv') ht
  refine ⟨h.base.trans hb, hl, h.sub, fun q x => ?_, ?_, fun j hj q hn => ?_, fun v' hv' q hn => ?_,
    fun v₁ hv₁ v₂ hv₂ q hn hn' => ?_⟩
  · rw [hphys]
    rcases setW_eq_or m.phys t (v % 1024) w q x with hw | ⟨rfl, -⟩
    · rw [hw]
      exact h.words q x
    · exact .inr (.inl (h.table _ hi q ht).1)
  · rw [hphys]
    exact h.tables.setPte hdt
  · rw [hdir] at hn
    exact h.table j hj q hn
  · simp only [hdir]
    rw [hpte v' hv'] at hn
    split_ifs at hn
    · have hheld := hw q hn
      exact ⟨hheld.taken.1, hheld.taken.2, hheld.table⟩
    · exact h.pte v' hv' q hn
  · rw [hpte v₁ hv₁] at hn
    rw [hpte v₂ hv₂] at hn'
    split_ifs at hn hn' with h₁ h₂ h₂
    · rw [h₁, h₂]
    · exact absurd hn' ((hw q hn).pte v₂ hv₂)
    · exact absurd hn ((hw q hn').pte v₁ hv₁)
    · exact h.pte_inj v₁ hv₁ v₂ hv₂ q hn hn'

/-- A page whose only entry has been cleared may go back to the free list. -/
theorem pageDecref (h : Loading m₀ l₀ d m l) (hq : q ∈ l₀ ∧ q ∉ l) (hq20 : q < 2 ^ 20)
    (htable : ∀ i < NUPDX, ¬ Names (m.phys d i) q)
    (hpte : ∀ v < NUPAGES, ¬ Names (dirPte m.phys d v) q)
    (hr : pageDecref m q = .ok m') : ∃ l', Loading m₀ l₀ d m' l' ∧ ∀ p ∈ l', p ∈ l ∨ p = q := by
  have hphys := pageDecref_phys hr
  rcases h.list.pageDecref hq.2 hq20 hr with hl | hl
  · exact ⟨l, h.congr (pageDecref_base hr) hphys hl, fun p hp => .inl hp⟩
  · refine ⟨q :: l, ⟨h.base.trans (pageDecref_base hr), hl, fun p hp => ?_, ?_, ?_,
      fun i hi t hn => ?_,
      fun v hv p hn => ?_, ?_⟩, fun p hp => (List.mem_cons.mp hp).symm⟩
    · rcases List.mem_cons.mp hp with rfl | hp
      · exact hq.1
      · exact h.sub p hp
    · rw [hphys]
      exact h.words
    · rw [hphys]
      exact h.tables
    · rw [hphys] at hn
      refine ⟨(h.table i hi t hn).1, fun ht => ?_⟩
      rcases List.mem_cons.mp ht with rfl | ht
      · exact htable i hi hn
      · exact (h.table i hi t hn).2 ht
    · rw [hphys] at hn ⊢
      obtain ⟨hp, hpl, hpt⟩ := h.pte v hv p hn
      refine ⟨hp, fun hpq => ?_, hpt⟩
      rcases List.mem_cons.mp hpq with rfl | hpq
      · exact hpte v hv hn
      · exact hpl hpq
    · rw [hphys]
      exact h.pte_inj

/-- `page_remove` of a page that is mapped: the entry is empty, and the free list has at most that
page more. -/
theorem pageRemove (h : Loading m₀ l₀ d m l) (hl₀ : ∀ p ∈ l₀, p < 2 ^ 20) (hva : va < UTOP)
    (hn : Names (dirPte m.phys d (PGNUM va)) q) (hr : pageRemove m d va = .ok m')
    (hheld : Held l₀ d m l p) :
    ∃ l', Loading m₀ l₀ d m' l' ∧ Held l₀ d m' l' p ∧ ∀ t, Names (m.phys d (PDX va)) t →
        Names (m'.phys d (PDX va)) t := by
  obtain ⟨hv, hi⟩ := PGNUM_div_lt hva
  rcases pageRemove_eq_ok hr with ⟨hP, -⟩ | ⟨hP, hdec⟩
  · rw [dirPte_of_absent (by rwa [← PDX_eq])] at hn
    exact absurd hn (not_names_zero q)
  generalize htt : PGNUM (m.phys d (PDX va)) = t at hdec
  have ht : Names (m.phys d (PGNUM va / 1024)) t := by
    rw [← PDX_eq]
    exact ⟨hP, htt⟩
  have hq : PGNUM (m.phys t (PTX va)) = q := by
    rw [PTX_eq, ← dirPte_of_names ht]
    exact hn.2
  rw [hq] at hdec
  have hset : (m.setWord t (PTX va) 0).phys = setW m.phys t (PGNUM va % 1024) 0 := by
    rw [setWord_phys, PTX_eq]
  have hload : Loading m₀ l₀ d (m.setWord t (PTX va) 0) l := h.setPte hv ht ⟨rfl, rfl, rfl, rfl⟩
    ⟨h.list.chain, h.list.lt⟩ hset fun p hp => absurd hp (not_names_zero p)
  obtain ⟨hq₀, hql, hqt⟩ := h.pte _ hv q hn
  have hdt : d ≠ t := by
    rintro rfl
    exact h.tables.ne _ hi ht
  have hdir : ∀ j, (m.setWord t (PTX va) 0).phys d j = m.phys d j := by
    intro j
    rw [setWord_phys, setW_of_ne hdt]
  have hpte : ∀ v' < NUPAGES, dirPte (m.setWord t (PTX va) 0).phys d v' =
      if v' = PGNUM va then 0 else dirPte m.phys d v' := by
    intro v' hv'
    rw [hset]
    exact h.tables.dirPte_setPte hi (div_lt_NUPDX hv') ht
  have hpq : p ≠ q := by
    rintro rfl
    exact hheld.pte _ hv hn
  have hgone : ∀ v' < NUPAGES, ¬ Names (dirPte (m.setWord t (PTX va) 0).phys d v') q := by
    intro v' hv' hn'
    rw [hpte v' hv'] at hn'
    split_ifs at hn' with hvv
    · exact not_names_zero q hn'
    · exact hvv (h.pte_inj v' hv' _ hv q hn' hn)
  obtain ⟨l', hload', hsub⟩ := hload.pageDecref ⟨hq₀, hql⟩ (hl₀ q hq₀)
    (fun i hi hn' => hqt i hi (by rwa [hdir] at hn')) hgone hdec
  have hphys := pageDecref_phys hdec
  refine ⟨l', hload', ⟨⟨hheld.taken.1, fun hp => ?_⟩, hheld.lt, fun i hi hn' => ?_,
    fun v' hv' hn' => ?_⟩,
    fun t hn' => ?_⟩
  · rcases hsub p hp with hp | hp
    · exact hheld.taken.2 hp
    · exact hpq hp
  · rw [hphys, hdir] at hn'
    exact hheld.table i hi hn'
  · rw [hphys, hpte v' hv'] at hn'
    split_ifs at hn'
    · exact not_names_zero p hn'
    · exact hheld.pte v' hv' hn'
  · rwa [hphys, hdir]

/-- The permissions of a directory entry are widened. -/
theorem orPde (h : Loading m₀ l₀ d m l) (hi : i < NUPDX) (ht : Names (m.phys d i) t)
    (hf : IsFlags perm)
    (hb : SameBase m m') (hl : FreeList m' l)
    (hphys : m'.phys = setW m.phys d i (m.phys d i ||| perm)) :
    Loading m₀ l₀ d m' l := by
  have hw : Names (m.phys d i ||| perm) t :=
    ⟨by rw [test_or, ht.1, Bool.true_or], by rw [PGNUM_or hf, ht.2]⟩
  have hnames : ∀ j q, Names (m'.phys d j) q → Names (m.phys d j) q := by
    intro j q hn
    rw [hphys] at hn
    by_cases hji : j = i
    · rw [hji, setW_self] at hn
      rw [hji, ← names_unique hw hn]
      exact ht
    · rwa [setW_of_ne_index hji] at hn
  have hpte : ∀ v < NUPAGES, dirPte m'.phys d v = dirPte m.phys d v := by
    intro v hv
    rw [hphys]
    exact h.tables.dirPte_setPde (div_lt_NUPDX hv) ht hw
  refine ⟨h.base.trans hb, hl, h.sub, fun q x => ?_, ?_, fun j hj q hn =>
    h.table j hj q (hnames j q hn),
    fun v hv q hn => ?_, fun v hv v' hv' q hn hn' => ?_⟩
  · rw [hphys]
    rcases setW_eq_or m.phys d i (m.phys d i ||| perm) q x with hw | ⟨rfl, rfl⟩
    · rw [hw]
      exact h.words q x
    · exact .inr (.inr ⟨rfl, hi⟩)
  · rw [hphys]
    exact h.tables.setPde ht hw
  · rw [hpte v hv] at hn
    obtain ⟨hq, hql, hqt⟩ := h.pte v hv q hn
    exact ⟨hq, hql, fun j hj hn' => hqt j hj (hnames j q hn')⟩
  · rw [hpte v hv] at hn
    rw [hpte v' hv'] at hn'
    exact h.pte_inj v hv v' hv' q hn hn'

/-- `page_insert` of a page that is held. -/
theorem insert (h : Loading m₀ l₀ d m l) (hd : d ∉ l₀) (hl₀ : ∀ p ∈ l₀, p < 2 ^ 20)
    (hva : va < UTOP) (hf : IsFlags perm)
    (hheld : Held l₀ d m l p) (hr : pageInsert m d p va perm = .ok (0, m')) : ∃ l',
    Loading m₀ l₀ d m' l' := by
  obtain ⟨hv, hi⟩ := PGNUM_div_lt hva
  rcases pageInsert_eq_ok hr with ⟨h0, -⟩ | ⟨-, pte, m₁, m₂, hwalk, hold, rfl⟩
  · exact absurd h0 (by decide)
  obtain ⟨t, l₁, rfl, h₁, hheld₁, ht₁⟩ := h.walk hd hva hheld hwalk
  -- the old entry is gone or will be overwritten
  obtain ⟨l₂, h₂, hheld₂, ht₂⟩ : ∃ l₂, Loading m₀ l₀ d m₂ l₂ ∧ Held l₀ d m₂ l₂ p ∧
      Names (m₂.phys d (PDX va)) t := by
    have hentry : m₁.word ⟨t, PTX va⟩ = dirPte m₁.phys d (PGNUM va) := by
      have ht' : Names (m₁.phys d (PGNUM va / 1024)) t := by rwa [← PDX_eq]
      rw [dirPte_of_names ht', ← PTX_eq]
      rfl
    rw [pageInsertOld, hentry] at hold
    split_ifs at hold with hP hsame
    · cases hold
      rw [PTE_ADDR_eq_iff hheld.lt] at hsame
      exact absurd ⟨hP, hsame⟩ (hheld₁.pte _ hv)
    · obtain ⟨l₂, h₂, hheld₂, hkeep⟩ := h₁.pageRemove hl₀ hva ⟨hP, rfl⟩ hold hheld₁
      exact ⟨l₂, h₂, hheld₂, hkeep t ht₁⟩
    · cases hold
      exact ⟨l₁, h₁, hheld₁, ht₁⟩
  have hdt : d ≠ t := by
    rintro rfl
    exact h₂.tables.ne _ (PDX_lt_of_lt hva) ht₂
  have hnew : Names (mkPte p perm) p := names_mkPte hheld.lt hf
  have hset : Loading m₀ l₀ d (m₂.setWord t (PTX va) (mkPte p perm)) l₂ :=
    h₂.setPte (t := t) (v := PGNUM va) hv (by rwa [← PDX_eq]) ⟨rfl, rfl, rfl, rfl⟩
      ⟨h₂.list.chain, h₂.list.lt⟩
      (by rw [setWord_phys, PTX_eq]) fun q hq => names_unique hnew hq ▸ hheld₂
  have hpde : (m₂.setWord t (PTX va) (mkPte p perm)).phys d (PDX va) = m₂.phys d (PDX va) := by
    rw [setWord_phys, setW_of_ne hdt]
  refine ⟨l₂, hset.orPde (PDX_lt_of_lt hva) (t := t) (by rwa [hpde]) hf ⟨rfl, rfl, rfl, rfl⟩ ?_ rfl⟩
  exact h₂.list.congr (setRef_link _ _ _) rfl

/-! ### The loops of `load_icode` -/

/-- The loop of `region_alloc`. -/
theorem regionAllocLoop (hd : d ∉ l₀) (hl₀ : ∀ p ∈ l₀, p < 2 ^ 20) (hfin : fin ≤ UTOP) {n : ℕ} :
    ∀ {i : Word} {m : Mem} {l : List ℕ}, Loading m₀ l₀ d m l →
      regionAllocLoop d fin n i m = .ok m' →
      ∃ l', Loading m₀ l₀ d m' l' := by
  induction n with
  | zero =>
    intro i m l h hr
    cases hr
    exact ⟨l, h⟩
  | succ n ih =>
    intro i m l h hr
    rw [JOS.regionAllocLoop] at hr
    split_ifs at hr with hlt
    · obtain ⟨⟨o, m₁⟩, halloc, hr⟩ := bind_eq_ok.mp hr
      cases o with
      | none => cases hr
      | some p =>
        obtain ⟨⟨flag, m₂⟩, hins, hr⟩ := bind_eq_ok.mp hr
        dsimp only at hr
        split_ifs at hr with hflag
        rw [not_not.mp hflag] at hins
        obtain ⟨t, h₁, hheld⟩ := h.pageAlloc halloc
        have hmark : Loading m₀ l₀ d (m₁.markUser p true) t :=
          h₁.congr ⟨rfl, rfl, rfl, rfl⟩ rfl ⟨h₁.list.chain, h₁.list.lt⟩
        have hlt' : i < UTOP := by
          rw [BitVec.lt_def] at hlt ⊢
          exact lt_of_lt_of_le hlt (BitVec.le_def.mp hfin)
        obtain ⟨l₂, h₂⟩ := hmark.insert hd hl₀ hlt' (by decide)
          ⟨hheld.taken, hheld.lt, hheld.table, hheld.pte⟩ hins
        exact ih h₂ hr
    · cases hr
      exact ⟨l, h⟩

/-- A page that is no table is overwritten. -/
theorem setWord (h : Loading m₀ l₀ d m l) (hd : d ∉ l₀) (hp : p ∈ l₀)
    (hpt : ∀ i < NUPDX, ¬ Names (m.phys d i) p) :
    Loading m₀ l₀ d (m.setWord p i w) l := by
  have hdp : d ≠ p := by
    rintro rfl
    exact hd hp
  have hdir : ∀ j, (m.setWord p i w).phys d j = m.phys d j := by
    intro j
    rw [setWord_phys, setW_of_ne hdp]
  have hpte : ∀ v < NUPAGES, dirPte (m.setWord p i w).phys d v = dirPte m.phys d v := by
    intro v hv
    by_cases hP : test (m.phys d (v / 1024)) PTE_P = true
    · have hne : PGNUM (m.phys d (v / 1024)) ≠ p := fun he => hpt _ (div_lt_NUPDX hv) ⟨hP, he⟩
      have hn : Names ((m.setWord p i w).phys d (v / 1024)) (PGNUM (m.phys d (v / 1024))) := by
        rw [hdir]
        exact ⟨hP, rfl⟩
      rw [dirPte_of_names hn, dirPte_of_names ⟨hP, rfl⟩, setWord_phys, setW_of_ne hne]
    · rw [dirPte_of_absent (by rwa [hdir]), dirPte_of_absent hP]
  refine ⟨h.base.trans ⟨rfl, rfl, rfl, rfl⟩, ⟨h.list.chain, h.list.lt⟩, h.sub, fun q x => ?_,
    h.tables.setPte hdp, fun j hj q hn => ?_, fun v hv q hn => ?_, fun v hv v' hv' q hn hn' => ?_⟩
  · rcases setW_eq_or m.phys p i w q x with hw | ⟨rfl, -⟩
    · rw [setWord_phys, hw]
      exact h.words q x
    · exact .inr (.inl hp)
  · rw [hdir] at hn
    exact h.table j hj q hn
  · simp only [hdir]
    rw [hpte v hv] at hn
    exact h.pte v hv q hn
  · rw [hpte v hv] at hn
    rw [hpte v' hv'] at hn'
    exact h.pte_inj v hv v' hv' q hn hn'

/-- A store of a byte below `UTOP` hits no table. -/
theorem storeByte (h : Loading m₀ l₀ d m l) (hd : d ∉ l₀) (hva : va < UTOP)
    (hr : storeByte m d va b = .ok m') :
    Loading m₀ l₀ d m' l := by
  rw [JOS.storeByte, translate_eq_dirPte] at hr
  by_cases hP : test (dirPte m.phys d (PGNUM va)) PTE_P = true
  · rw [if_pos hP] at hr
    dsimp only at hr
    split_ifs at hr
    cases hr
    obtain ⟨hp, -, hpt⟩ := h.pte _ (PGNUM_div_lt hva).1 _ ⟨hP, rfl⟩
    exact h.setWord hd hp hpt
  · rw [if_neg hP] at hr
    cases hr

/-- Stores of bytes from `va` on. -/
theorem storeBytes {f : ℕ → BitVec 8} {n : ℕ} (h : Loading m₀ l₀ d m l) (hd : d ∉ l₀)
    (hva : va.toNat + n ≤ UTOP.toNat) (hr : storeBytes d va f n m = .ok m') :
    Loading m₀ l₀ d m' l := by
  refine foldlM_invariant (I := fun m' => Loading m₀ l₀ d m' l) hr h fun m₁ m₂ a ha h₁ hs => ?_
  refine h₁.storeByte hd ?_ hs
  have := List.mem_range.mp ha
  have : UTOP.toNat < 2 ^ 32 := UTOP.isLt
  rw [BitVec.lt_def, BitVec.toNat_add, BitVec.toNat_ofNat]
  omega

end Loading

/-! ### `load_icode` -/

/-- The segments of an ELF image that are to be loaded lie below `UTOP`, and are not longer in the
file than in memory. -/
def Elf.BelowUTOP (elf : Elf) : Prop :=
  ∀ ph ∈ elf.ph, ph.pType = ELF_PROG_LOAD → ph.pVa.toNat + ph.pMemsz.toNat ≤ UTOP.toNat ∧
    ph.pFilesz ≤ ph.pMemsz

instance (elf : Elf) : Decidable elf.BelowUTOP := inferInstanceAs (Decidable (∀ ph ∈ elf.ph, _))

theorem UTOP_toNat : UTOP.toNat = 0xeec00000 := by decide

theorem ROUNDUP_le_UTOP {va len : Word} (h : va.toNat + len.toNat ≤ UTOP.toNat) :
    ROUNDUP (va + len) PGSIZE ≤ UTOP := by
  rw [BitVec.le_def, ROUNDUP_add_toNat, UTOP_toNat]
  rw [UTOP_toNat] at h
  omega

/-- The memory of a state while environment `e` is being loaded. -/
theorem regionAlloc_loading {s s' : KState} {va len : Word} (h : Loading m₀ l₀ d s.mem l)
    (hd : d ∉ l₀)
    (hl₀ : ∀ p ∈ l₀, p < 2 ^ 20) (hdir : s.dirs e = some d)
    (hva : va.toNat + len.toNat ≤ UTOP.toNat)
    (hr : regionAlloc s e va len = .ok s') : s'.dirs = s.dirs ∧ ∃ l',
    Loading m₀ l₀ d s'.mem l' := by
  obtain ⟨pgdir, hpgdir, hr⟩ := bind_eq_ok.mp hr
  obtain ⟨m, hloop, hr⟩ := bind_eq_ok.mp hr
  cases hr
  have hpgdir : s.dirs e = some pgdir := deref_eq_some hpgdir
  rw [hdir] at hpgdir
  cases hpgdir
  exact ⟨rfl, h.regionAllocLoop hd hl₀ (ROUNDUP_le_UTOP hva) hloop⟩

theorem loadSegment_loading {s s' : KState} {elf : Elf} {ph : Proghdr} (h : Loading m₀ l₀ d s.mem l)
    (hd : d ∉ l₀)
    (hl₀ : ∀ p ∈ l₀, p < 2 ^ 20) (hdir : s.dirs e = some d)
    (hva : ph.pVa.toNat + ph.pMemsz.toNat ≤ UTOP.toNat)
    (hsz : ph.pFilesz ≤ ph.pMemsz) (hr : loadSegment s e d elf ph = .ok s') :
    s'.dirs = s.dirs ∧ ∃ l', Loading m₀ l₀ d s'.mem l' := by
  obtain ⟨s₁, hregion, hr⟩ := bind_eq_ok.mp hr
  obtain ⟨m₁, hfile, hr⟩ := bind_eq_ok.mp hr
  obtain ⟨m₂, hbss, hr⟩ := bind_eq_ok.mp hr
  cases hr
  obtain ⟨hdirs, l₁, h₁⟩ := regionAlloc_loading h hd hl₀ hdir hva hregion
  have hle : ph.pFilesz.toNat ≤ ph.pMemsz.toNat := BitVec.le_def.mp hsz
  have hU : UTOP.toNat < 2 ^ 32 := UTOP.isLt
  have h₂ := h₁.storeBytes hd (by omega) hfile
  refine ⟨hdirs, l₁, h₂.storeBytes hd ?_ hbss⟩
  rw [BitVec.toNat_sub_of_le hsz, BitVec.toNat_add]
  omega

/-- **`load_icode`** writes the address space of its environment, which is empty when it starts. -/
theorem loadIcode_affects {s s' : KState} {elf : Elf} (hs : Apart s l) (hdir : s.dirs e = some d)
    (hempty : ∀ i < NUPDX, test (s.mem.phys d i) PTE_P ≠ true) (helf : elf.BelowUTOP)
    (hr : loadIcode s c e elf = .ok s') : Affects (· = e) l s s' := by
  have hd : d ∉ l := hs.used d (.inl ⟨e, hdir⟩)
  have hstart : Loading s.mem l d s.mem l := by
    refine ⟨SameBase.refl _, hs.list, fun p hp => hp, fun q x => .inl rfl,
      ⟨fun i j t hi hj hn => absurd hn.1 (hempty i hi),
      fun i hi hn => hempty i hi hn.1⟩, fun i hi t hn => absurd hn.1 (hempty i hi),
      fun v hv p hn => ?_,
      fun v hv v' hv' p hn => ?_⟩ <;>
    · rw [dirPte_of_absent (hempty _ (div_lt_NUPDX hv))] at hn
      exact absurd hn (not_names_zero p)
  rw [loadIcode] at hr
  split_ifs at hr
  obtain ⟨pgdir, hpgdir, hr⟩ := bind_eq_ok.mp hr
  have hpgdir : s.dirs e = some pgdir := deref_eq_some hpgdir
  rw [hdir] at hpgdir
  cases hpgdir
  obtain ⟨s₁, hloop, hr⟩ := bind_eq_ok.mp hr
  have h₁ : s₁.dirs = s.dirs ∧ ∃ l', Loading s.mem l d s₁.mem l' := by
    refine foldlM_invariant (I := fun t : KState => t.dirs = s.dirs ∧ ∃ l',
      Loading s.mem l d t.mem l') hloop
      ⟨rfl, l, hstart⟩ fun t t' ph hph ht hseg => ?_
    obtain ⟨hdirs, l', hload⟩ := ht
    obtain ⟨hmem, hload'⟩ := List.mem_filter.mp hph
    obtain ⟨hva, hsz⟩ := helf ph hmem (by simpa using hload')
    obtain ⟨hdirs', hl'⟩ := loadSegment_loading hload hd hs.list.lt
      (by rw [hdirs, hdir]) hva hsz hseg
    exact ⟨hdirs'.trans hdirs, hl'⟩
  obtain ⟨hdirs, l₁, h₁⟩ := h₁
  -- the entry point, and the stack
  let s₂ := s₁.setEnv e { s₁.envs e with envTf := { (s₁.envs e).envTf with tfEip := elf.eEntry } }
  have hs₂ : SameSpaces s₁ s₂ := sameSpaces_setEnv s₁ e _ rfl
  have hstack : (USTACKTOP - PGSIZE).toNat + PGSIZE.toNat ≤ UTOP.toNat := by decide
  obtain ⟨hdirs', l', h'⟩ := regionAlloc_loading (s := s₂.lcr3 c s₂.mem.kernPgdir) (e := e)
    (l := l₁) h₁ hd hs.list.lt
    ((congrFun (hs₂.2.trans hdirs) e).trans hdir) hstack hr
  refine ⟨h'.base.kernPgdir, fun q x => ?_, fun e' d' hd' => .inl ?_⟩
  · rcases h'.words q x with hw | hq | ⟨rfl, hx⟩
    · exact .inl hw
    · exact .inr (.inl hq)
    · exact .inr (.inr ⟨e, q, rfl, hdir, .inl ⟨rfl, hx⟩⟩)
  · rw [hdirs', show (s₂.lcr3 c s₂.mem.kernPgdir).dirs = s₂.dirs from rfl, hs₂.2, hdirs] at hd'
    exact hd'

end JOS
