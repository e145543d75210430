import JOS.Memory.PageMap

/-!
# `page_insert` is a map update

`pgdir_walk` may take a page for a table (`TableGot.well`), the entry that was there loses its
reference (`pageInsertOld_spec`), and the page that is inserted gets one (`pageInsertNew_spec`).
Each part leaves exact counts, for the directory without the entry between the second and the
third; that a page inserted again is not freed in between is why the second part does not
call `page_remove` then.
-/

namespace JOS

open JOS.General

open Function (update)

variable {m m' m₁ m₂ : Mem} {l l' l₁ l₂ : List ℕ} {W : ℕ → Prop} {V : Finset ℕ} {u u' : ℕ → Word}
  {x x' x₁ : ℕ → ℕ}
  {d i n p pp q t v : ℕ} {va perm w : Word}

/-! ### The table -/

/-- The references to page tables, after page `t` has become one or not. -/
def TableTaken (l : List ℕ) (x : ℕ → ℕ) (t : ℕ) (l₁ : List ℕ) (x₁ : ℕ → ℕ) : Prop :=
  l₁ = l ∧ x₁ = x ∨ l = t :: l₁ ∧ x₁ = update x t 1

theorem newPde_and (p : ℕ) : newPde p &&& PTE_TABLE = PTE_TABLE := by
  have hor : newPde p = page2pa p ||| PTE_TABLE := by
    rw [newPde, PTE_TABLE, BitVec.or_assoc, BitVec.or_assoc, BitVec.or_assoc]
  rw [hor]
  ext i
  rw [BitVec.getElem_and, BitVec.getElem_or]
  cases (page2pa p)[i] <;> simp

/-- A new table has the reference of its directory entry. -/
theorem TableGot.well (h : WellFormed m d W l V x) (hg : TableGot m d W l va t m₁ l₁) :
    ∃ x₁, WellFormed m₁ d W l₁ V x₁ ∧ TableTaken l x t l₁ x₁ := by
  have hentries : ∀ v ∈ V, dirPte m₁.phys d v = dirPte m.phys d v :=
    fun v hv => hg.pte v (h.tables v hv)
  rcases hg.got with ⟨rfl, rfl, -⟩ | ⟨rfl, hP, rfl⟩
  · exact ⟨x, h, .inl ⟨rfl, rfl⟩⟩
  have htl : t ∉ l₁ := (List.nodup_cons.mp h.chain.nodup).1
  have hzero : m.ref t = 0 := h.zero t List.mem_cons_self
  have hnone : mappings (dirPte m.phys d) V t = 0 ∧ x t = 0 := by
    have hcount := h.count t
    rw [hzero, show (0 : BitVec 16).toNat = 0 from rfl] at hcount
    omega
  have hdt : d ≠ t := fun hdt => h.dir (hdt ▸ List.mem_cons_self)
  have hle : ∀ p, p ≠ t → update x t 1 p = x p := fun p hp => Function.update_of_ne hp _ _
  have hdir : ∀ j, j ≠ PDX va → (m.newTable t d (PDX va)).phys d j = m.phys d j := by
    intro j hj
    rw [newTable_phys, setW_of_ne_index hj, Function.update_of_ne hdt]
  have hself : (m.newTable t d (PDX va)).phys d (PDX va) = newPde t := by
    rw [newTable_phys, setW_self]
  refine ⟨update x t 1, ⟨⟨hg.paging, fun p hp hpl => ?_, fun p => ?_, ?_, fun i hi q hn => ?_⟩,
    h.tables,
    fun v hv p hn => ?_, fun v hv hPv => ?_⟩, .inr ⟨rfl, rfl⟩⟩
  · rw [newTable_link]
    by_cases hpt : p = t
    · rw [hpt, popFree_link_self]
    · rw [popFree_link hpt]
      exact h.unlinked p hp (by rw [List.mem_cons, not_or]; exact ⟨hpt, hpl⟩)
  · rw [mappings_congr hentries]
    by_cases hpt : p = t
    · rw [hpt, newTable_ref_self, hzero, hnone.1, Function.update_self]
      rfl
    · rw [newTable_ref hpt, h.count p, hle p hpt]
  · rw [hle d hdt]
    exact h.dirRef
  · by_cases hqt : q = t
    · rw [hqt, Function.update_self]
      exact Nat.one_pos
    · rw [hle q hqt]
      by_cases hiv : i = PDX va
      · rw [hiv, hself] at hn
        exact absurd (names_unique hn (names_newPde (h.lt List.mem_cons_self))) hqt
      · rw [hdir i hiv] at hn
        exact h.tableRef i hi q hn
  · rw [hentries v hv] at hn
    exact h.page v hv p hn
  · by_cases hiv : v / 1024 = PDX va
    · rw [hiv, hself, newPde_and]
    · rw [hdir _ hiv] at hPv ⊢
      exact h.flags v hv hPv

/-! ### The entry that was there -/

/-- The directory when the entry that is overwritten does not count any more; `l₁` is the free list
before, and `pp` the page that is inserted. -/
structure OldGone (m : Mem) (d : ℕ) (W : ℕ → Prop) (l₁ : List ℕ) (V : Finset ℕ) (x : ℕ → ℕ) (pp : ℕ)
    (va : Word) (t : ℕ)
    (m' : Mem) (l' : List ℕ) : Prop where
  acc : Accounted m' d W l' V (update (dirPte m.phys d) (PGNUM va) 0) x
  dir : ∀ i, m'.phys d i = m.phys d i
  /-- Only the entry may have changed. -/
  words : ∀ w, setW m'.phys t (PTX va) w = setW m.phys t (PTX va) w
  npages : m'.npages = m.npages
  /-- Another page is freed when it has lost its last reference. -/
  freed : ∀ q, mappedAt m d va = some q → q ≠ pp → l' = if m.ref q = 1 then q :: l₁ else l₁
  kept : (∀ q, mappedAt m d va = some q → q = pp) → l' = l₁

theorem Accounted.absent (h : Accounted m d W l V u x) (hu : ∀ q, ¬ Names (u v) q) :
    Accounted m d W l V (update u v 0) x :=
  ⟨h.toPaging, h.unlinked,
    fun p => by rw [h.count p, mappings_same (iff_of_false (hu p) (not_names_zero p))], h.dirRef,
    h.tableRef⟩

theorem pageInsertOld_spec (h : WellFormed m d W l V x) (hv : PGNUM va ∈ V)
    (ht : Names (m.phys d (PDX va)) t)
    (hpp : pp < m.npages) : ∃ m' l', pageInsertOld m d pp va ⟨t, PTX va⟩ = .ok m' ∧
    OldGone m d W l V x pp va t m' l' := by
  have hword : m.word ⟨t, PTX va⟩ = dirPte m.phys d (PGNUM va) := by
    rw [PDX_eq] at ht
    rw [dirPte_of_names ht, Mem.word, PTX_eq]
  have hpp20 : pp < 2 ^ 20 := lt_of_lt_of_le hpp h.npages_le
  rw [pageInsertOld, hword]
  by_cases hP : test (dirPte m.phys d (PGNUM va)) PTE_P = true
  · rw [if_pos hP]
    by_cases hsame : PGNUM (dirPte m.phys d (PGNUM va)) = pp
    · -- the same page again: nothing is freed
      have hn : Names (dirPte m.phys d (PGNUM va)) pp := ⟨hP, hsame⟩
      rw [if_pos ((PTE_ADDR_eq_iff hpp20).mpr hsame)]
      refine ⟨_, l, rfl, h.drop hv hn, fun _ => rfl, fun _ => rfl, rfl, fun q hq hne => ?_,
        fun _ => rfl⟩
      exact absurd (names_unique (mappedAt_eq_some.mp hq) hn) hne
    · have hn : Names (dirPte m.phys d (PGNUM va)) (PGNUM (dirPte m.phys d (PGNUM va))) := ⟨hP, rfl⟩
      have hmapped := mappedAt_eq_some.mpr hn
      rw [if_neg fun heq => hsame ((PTE_ADDR_eq_iff hpp20).mp heq)]
      obtain ⟨m', hm', hr⟩ := pageRemove_mapped h hv hn
      obtain ⟨t', ht', hdt, hphys⟩ := hr.words
      rw [names_unique ht' ht] at hdt hphys
      refine ⟨m', _, hm', hr.well.toAccounted.congr fun v hvV =>
        (update_of_entries h.tables hr.entries v hvV).symm,
        fun i => by rw [hphys, setW_of_ne hdt], fun w => by
          rw [hphys, setW_setW], hr.npages, fun q hq _ => ?_, fun hall => ?_⟩
      · rw [hmapped] at hq
        cases hq
        rfl
      · exact absurd (hall _ hmapped) hsame
  · have hnone : ∀ q, mappedAt m d va ≠ some q := fun q hq => hP (mappedAt_eq_some.mp hq).1
    rw [if_neg hP]
    exact ⟨m, l, rfl, h.toAccounted.absent fun q hn => hP hn.1, fun _ => rfl, fun _ => rfl, rfl,
      fun q hq => absurd hq (hnone q), fun _ => rfl⟩

/-! ### The new entry -/

/-- The page that is inserted gets its reference. -/
theorem pageInsertNew_spec (h : OldGone m d W l V x pp va t m₁ l₁) (hv : PGNUM va ∈ V)
    (hva : W (PDX va))
    (ht : Names (m.phys d (PDX va)) t) (hpp : pp < 2 ^ 20) (hppl : pp ∉ l₁)
    (href : (m₁.ref pp).toNat < 65535)
    (hperm : IsFlags perm) : Accounted (pageInsertNew m₁ d pp va perm ⟨t, PTX va⟩) d W l₁ V
      (update (dirPte m.phys d) (PGNUM va) (mkPte pp perm)) x := by
  have ht₁ : Names (m₁.phys d (PDX va)) t := by rwa [h.dir]
  have hdt : d ≠ t := fun hdt => h.acc.own.ne _ hva (hdt ▸ ht₁)
  have hpde : (m₁.setWord t (PTX va) (mkPte pp perm)).phys d (PDX va) = m₁.phys d (PDX va) := by
    rw [setWord_phys, setW_of_ne hdt]
  have hempty : ∀ q, ¬ Names (update (dirPte m.phys d) (PGNUM va) 0 (PGNUM va)) q := by
    intro q
    rw [Function.update_self]
    exact not_names_zero q
  have htake := (h.acc.setPte hva ht₁ (mkPte pp perm)).take hv hempty
    (names_mkPte hpp hperm) hppl href
  rw [Function.update_idem] at htake
  refine htake.setPde (t := t) ?_ ?_
  · rwa [setRef_phys, hpde]
  · rw [hpde]
    exact ⟨by rw [test_or, ht₁.1, Bool.true_or], by rw [PGNUM_or hperm, ht₁.2]⟩

/-- The words that `page_insert` writes: the entry of table `t`, and the directory entry, which gets
the permissions. -/
def insertWords (phys : ℕ → ℕ → Word) (d t : ℕ) (va perm w : Word) : ℕ → ℕ → Word :=
  setW (setW phys t (PTX va) w) d (PDX va) (setW phys t (PTX va) w d (PDX va) ||| perm)

theorem insertWords_spec {phys : ℕ → ℕ → Word} (h : OwnTables phys d W) (hva : W (PDX va))
    (ht : Names (phys d (PDX va)) t)
    (hperm : IsFlags perm) (w : Word) :
    (∀ v, W (v / 1024) → dirPte (insertWords phys d t va perm w) d v = if v = PGNUM va then w
      else dirPte phys d v) ∧
      Names (insertWords phys d t va perm w d (PDX va)) t ∧
      insertWords phys d t va perm w d (PDX va) = phys d (PDX va) ||| perm ∧
      (∀ i, i ≠ PDX va → insertWords phys d t va perm w d i = phys d i) ∧
      ∀ i, i ≠ PTX va → insertWords phys d t va perm w t i = phys t i := by
  have hdt : d ≠ t := fun hdt => h.ne _ hva (hdt ▸ ht)
  have hself : insertWords phys d t va perm w d (PDX va) = phys d (PDX va) ||| perm := by
    rw [insertWords, setW_self, setW_of_ne hdt]
  have hnames : Names (phys d (PDX va) ||| perm) t :=
    ⟨by rw [test_or, ht.1, Bool.true_or], by rw [PGNUM_or hperm, ht.2]⟩
  refine ⟨fun v hv => ?_, hself ▸ hnames, hself, fun i hi => ?_, fun i hi => ?_⟩
  · have hn : Names (setW phys t (PTX va) w d (PDX va)) t := by rwa [setW_of_ne hdt]
    have hn' : Names (setW phys t (PTX va) w d (PDX va) ||| perm) t := by rwa [setW_of_ne hdt]
    rw [insertWords, (h.setPte hdt).dirPte_setPde hv hn hn', PTX_eq]
    rw [PDX_eq] at hva ht
    exact h.dirPte_setPte hva hv ht
  · rw [insertWords, setW_of_ne_index hi, setW_of_ne hdt]
  · rw [insertWords, setW_of_ne hdt.symm, setW_of_ne_index hi]

theorem or_and_of_and {a b f : Word} (h : a &&& f = f) : (a ||| b) &&& f = f := by
  have hor : (a ||| b) &&& f = (a &&& f) ||| (b &&& f) := by
    ext i
    rw [BitVec.getElem_and, BitVec.getElem_or, BitVec.getElem_or, BitVec.getElem_and,
      BitVec.getElem_and, Bool.and_or_distrib_right]
  rw [hor, h]
  ext i
  rw [BitVec.getElem_or, BitVec.getElem_and]
  cases f[i] <;> simp

/-- A page that is mapped is not free. -/
theorem WellFormed.not_mapped (h : WellFormed m d W l V x) (hv : PGNUM va ∈ V)
    (hq : mappedAt m d va = some q) : q ∉ l := by
  have hlose := mappings_lose hv (mappedAt_eq_some.mp hq) (not_names_zero q)
  have hcount := h.count q
  exact h.not_free (by omega)

/-! ### `page_insert` -/

theorem pageInsert_of_walk {pte : PtePtr} (hwalk : pgdirWalk m d va true = .ok (some pte, m₁))
    (hold : pageInsertOld m₁ d pp va pte = .ok m₂) :
    pageInsert m d pp va perm = .ok (0, pageInsertNew m₂ d pp va perm pte) := by
  unfold pageInsertOld at hold
  rw [pageInsert, hwalk, ok_bind]
  dsimp only
  split_ifs at hold ⊢
  · cases hold
    rfl
  · rw [hold]
    rfl
  · cases hold
    rfl

/-- `page_insert` where nothing is mapped. -/
theorem Paging.pageInsert_absent (h : Paging m d W l) (hva : W (PDX va))
    (hnone : test (dirPte m.phys d (PGNUM va)) PTE_P ≠ true)
    (hpl : p ∉ l) (hperm : IsFlags perm) :
    pageInsert m d p va perm = .ok (-E_NO_MEM, m) ∧ l = [] ∧ test (m.phys d (PDX va)) PTE_P ≠ true ∨
      ∃ t m₁ m' l', pageInsert m d p va perm = .ok (0, m') ∧ TableGot m d W l va t m₁ l' ∧
        Paging m' d W l' ∧
        m'.phys = insertWords m₁.phys d t va perm (mkPte p perm) := by
  rcases h.pgdirWalk_spec hva with ⟨hwalk, hl, hP⟩ | ⟨t, m₁, l₁, hwalk, hg⟩
  · refine .inl ⟨?_, hl, hP⟩
    rw [JOS.pageInsert, hwalk]
    rfl
  refine .inr ⟨t, m₁, pageInsertNew m₁ d p va perm ⟨t, PTX va⟩, l₁, ?_, hg, ?_, ?_⟩
  · refine pageInsert_of_walk hwalk ?_
    have hn := hg.names
    rw [PDX_eq] at hn
    have hword : m₁.word ⟨t, PTX va⟩ = dirPte m.phys d (PGNUM va) := by
      rw [← hg.pte _ (by rwa [← PDX_eq]), dirPte_of_names hn, Mem.word, PTX_eq]
    rw [pageInsertOld, hword, if_neg hnone]
  · have hdt : d ≠ t := fun hdt => hg.paging.own.ne _ hva (hdt ▸ hg.names)
    have hpde : (m₁.setWord t (PTX va) (mkPte p perm)).phys d (PDX va) = m₁.phys d (PDX va) := by
      rw [setWord_phys, setW_of_ne hdt]
    have hpl₁ : p ∉ l₁ := by
      rcases hg.got with ⟨-, rfl, -⟩ | ⟨rfl, -, -⟩
      · exact hpl
      · exact fun hp => hpl (List.mem_cons_of_mem _ hp)
    refine (((hg.paging.setPte hva hg.names (mkPte p perm)).1).setRef hpl₁ _).setPde (t := t) ?_ ?_
    · rw [setRef_phys, hpde]
      exact hg.names
    · rw [hpde]
      exact ⟨by rw [test_or, hg.names.1, Bool.true_or], by rw [PGNUM_or hperm, hg.names.2]⟩
  · simp only [pageInsertNew, insertWords, setWord_phys, setRef_phys]

/-- What `page_insert` leaves when it returns 0: `t` is the table, and `l₁` the free list when a
page has been taken for it. -/
structure PageInserted (m : Mem) (d : ℕ) (W : ℕ → Prop) (l : List ℕ) (V : Finset ℕ) (x : ℕ → ℕ)
    (pp : ℕ) (va perm : Word)
    (t : ℕ) (l₁ : List ℕ) (x' : ℕ → ℕ) (m' : Mem) (l' : List ℕ) : Prop where
  well : WellFormed m' d W l' V x'
  entries : ∀ v, W (v / 1024) → dirPte m'.phys d v = if v = PGNUM va then mkPte pp perm
    else dirPte m.phys d v
  table : TableTaken l x t l₁ x'
  names : Names (m'.phys d (PDX va)) t
  zeroed : l = t :: l₁ → ∀ i, i ≠ PTX va → m'.phys t i = 0
  freed : ∀ q, mappedAt m d va = some q → q ≠ pp → l' = if m.ref q = 1 then q :: l₁ else l₁
  kept : (∀ q, mappedAt m d va = some q → q = pp) → l' = l₁

/-- The table after `pgdir_walk` with the page that was mapped, and with what `pgdir_walk` leaves in
a new table. -/
theorem TableGot.same (h : WellFormed m d W l V x) (hv : PGNUM va ∈ V)
    (hg : TableGot m d W l va t m₁ l₁) :
    m₁.npages = m.npages ∧ mappedAt m₁ d va = mappedAt m d va ∧ (∀ q, q ∉ l → m₁.ref q = m.ref q) ∧
      (l = t :: l₁ → ∀ i, m₁.phys t i = 0) := by
  have hmapped : mappedAt m₁ d va = mappedAt m d va := by
    rw [mappedAt, mappedAt, translate_of_same_dirPte (hg.pte _ (h.tables _ hv))]
  rcases hg.got with ⟨rfl, rfl, -⟩ | ⟨rfl, -, rfl⟩
  · exact ⟨rfl, hmapped, fun _ _ => rfl, fun hl => absurd (congrArg List.length hl) (by simp)⟩
  · refine ⟨rfl, hmapped, fun q hq => newTable_ref fun hqt => hq (hqt ▸ List.mem_cons_self),
      fun _ i => ?_⟩
    have htd : t ≠ d := fun htd => h.dir (htd ▸ List.mem_cons_self)
    rw [newTable_phys, setW_of_ne htd, Function.update_self]

theorem TableTaken.sub (h : TableTaken l x t l₁ x₁) : l₁ ⊆ l := by
  rcases h with ⟨rfl, -⟩ | ⟨rfl, -⟩
  · exact List.Subset.refl _
  · exact List.subset_cons_self t l₁

theorem TableTaken.refs (h : TableTaken l x t l₁ x₁) (hp : p ∉ l) : x₁ p = x p := by
  rcases h with ⟨-, rfl⟩ | ⟨rfl, rfl⟩
  · rfl
  · rw [List.mem_cons, not_or] at hp
    exact Function.update_of_ne hp.1 _ _

/-- **`page_insert`** returns `-E_NO_MEM` and changes nothing, when a table is needed and no page is
free, or maps the page. -/
theorem WellFormed.pageInsert (h : WellFormed m d W l V x) (hv : PGNUM va ∈ V) (hpp : pp < m.npages)
    (hppl : pp ∉ l)
    (href : (m.ref pp).toNat < 65535) (hperm : IsFlags perm) :
    pageInsert m d pp va perm = .ok (-E_NO_MEM, m) ∧ l = [] ∧
      test (m.phys d (PDX va)) PTE_P ≠ true ∨
      ∃ m' t l₁ x' l', pageInsert m d pp va perm = .ok (0, m') ∧
          PageInserted m d W l V x pp va perm t l₁ x' m' l' := by
  have hva : W (PDX va) := by
    rw [PDX_eq]
    exact h.tables _ hv
  have hpp20 : pp < 2 ^ 20 := lt_of_lt_of_le hpp h.npages_le
  rcases h.toPaging.pgdirWalk_spec hva with ⟨hwalk, hl, hP⟩ | ⟨t, m₁, l₁, hwalk, hg⟩
  · refine .inl ⟨?_, hl, hP⟩
    rw [JOS.pageInsert, hwalk]
    rfl
  obtain ⟨x₁, hwell₁, htaken⟩ := hg.well h
  obtain ⟨hnp₁, hmapped, hsame, hzero⟩ := hg.same h hv
  obtain ⟨m₂, l₂, hold, hgone⟩ := pageInsertOld_spec hwell₁ hv hg.names (hnp₁ ▸ hpp)
  -- the page that is inserted has not been freed
  have hppl₂ : pp ∉ l₂ := by
    have hpp₁ : pp ∉ l₁ := fun hm => hppl (htaken.sub hm)
    by_cases hq : ∀ q, mappedAt m₁ d va = some q → q = pp
    · rwa [hgone.kept hq]
    · push Not at hq
      obtain ⟨q, hq, hne⟩ := hq
      rw [hgone.freed q hq hne]
      split_ifs
      · rw [List.mem_cons, not_or]
        exact ⟨hne.symm, hpp₁⟩
      · exact hpp₁
  have href₂ : (m₂.ref pp).toNat < 65535 := by
    have hcount := hgone.acc.count pp
    have hle := mappings_clear_le (dirPte m₁.phys d) V (PGNUM va) pp
    have hcount₁ := hwell₁.count pp
    rw [hsame pp hppl] at hcount₁
    omega
  have hacc := pageInsertNew_spec hgone hv hva hg.names hpp20 hppl₂ href₂ hperm
  have hrun : JOS.pageInsert m d pp va perm = .ok (0, pageInsertNew m₂ d pp va perm ⟨t, PTX va⟩) :=
    pageInsert_of_walk hwalk hold
  have hphys : (pageInsertNew m₂ d pp va perm ⟨t, PTX va⟩).phys = insertWords m₁.phys d t va perm
      (mkPte pp perm) := by
    simp only [pageInsertNew, insertWords, setWord_phys, setRef_phys, hgone.words]
  obtain ⟨hpte, hnames, hpde, hothers, hrest⟩ :=
    insertWords_spec hg.paging.own hva hg.names hperm (mkPte pp perm)
  have hentries : ∀ v, W (v / 1024) → dirPte (pageInsertNew m₂ d pp va perm ⟨t, PTX va⟩).phys d v =
      if v = PGNUM va then mkPte pp perm else dirPte m.phys d v := by
    intro v hW
    rw [hphys, hpte v hW, hg.pte v hW]
  have hnp : (pageInsertNew m₂ d pp va perm ⟨t, PTX va⟩).npages = m.npages :=
    hgone.npages.trans hnp₁
  refine .inr ⟨_, t, l₁, x₁, l₂, hrun, ⟨⟨?_, h.tables, fun v hvV p hn => ?_, fun v hvV hP => ?_⟩,
    hentries, htaken, ?_,
    fun hl i hi => ?_, fun q hq hne => ?_, fun hall => ?_⟩⟩
  · refine hacc.congr (update_of_entries h.tables fun v hW => ?_)
    rw [hentries v hW, hg.pte v hW]
  · rw [hentries v (h.tables v hvV)] at hn
    rw [hnp]
    split_ifs at hn
    · rwa [← names_unique (names_mkPte hpp20 hperm) hn]
    · exact h.page v hvV p hn
  · rw [hphys] at hP ⊢
    by_cases hi : v / 1024 = PDX va
    · have hflags := hwell₁.flags v hvV (by rw [hi]; exact hg.names.1)
      rw [hi] at hflags
      rw [hi, hpde, or_and_of_and hflags]
    · rw [hothers _ hi] at hP ⊢
      exact hwell₁.flags v hvV hP
  · rwa [hphys]
  · rw [hphys, hrest i hi]
    exact hzero hl i
  · have hql : q ∉ l := h.not_mapped hv hq
    rw [hgone.freed q (hmapped ▸ hq) hne, hsame q hql]
  · exact hgone.kept fun q hq => hall q (hmapped ▸ hq)

/-- The free list after `page_insert`. -/
theorem PageInserted.mem_list (h : PageInserted m d W l V x pp va perm t l₁ x' m' l') :
    q ∈ l' ↔ q ∈ l₁ ∨ mappedAt m d va = some q ∧ q ≠ pp ∧ m.ref q = 1 := by
  by_cases hall : ∀ p, mappedAt m d va = some p → p = pp
  · rw [h.kept hall]
    refine ⟨.inl, ?_⟩
    rintro (hq | ⟨hq, hne, -⟩)
    · exact hq
    · exact absurd (hall q hq) hne
  · push Not at hall
    obtain ⟨p, hp, hne⟩ := hall
    rw [h.freed p hp hne, hp]
    split_ifs with hlast
    · rw [List.mem_cons]
      constructor
      · rintro (rfl | hq)
        · exact .inr ⟨rfl, hne, hlast⟩
        · exact .inl hq
      · rintro (hq | ⟨hq, -, -⟩)
        · exact .inr hq
        · cases hq
          exact .inl rfl
    · refine ⟨.inl, ?_⟩
      rintro (hq | ⟨hq, -, hone⟩)
      · exact hq
      · cases hq
        exact absurd hone hlast

/-! ### A map update -/

/-- `page_insert` of page `pp` at `va` as it is to be, when it returns 0; `S` are the directory
entries of the other addresses. -/
structure MapUpdate (m : Mem) (d : ℕ) (S : ℕ → Prop) (l : List ℕ) (V : Finset ℕ) (pp : ℕ)
    (va perm : Word) (m' : Mem) :
    Prop where
  mapped : ∃ pte, translate m' d va = some pte ∧ PGNUM pte = pp ∧ pte &&& 0xFFF = perm ||| PTE_P
  others : ∀ a : Word, S (PDX a) → PGNUM a ≠ PGNUM va → translate m' d a = translate m d a
  /-- The count of `pp` changes with the number of its mappings. -/
  count : (m'.ref pp).toNat + mappings (dirPte m.phys d) V pp = (m.ref pp).toNat + mappings
    (dirPte m'.phys d) V pp
  /-- Another page that was mapped at `va` loses a reference. -/
  old : ∀ q, mappedAt m d va = some q → q ≠ pp → (m'.ref q).toNat + 1 = (m.ref q).toNat
  /-- The free list: at most one page has been taken, for a table, and the page that was mapped is
  on it if that reference was its last. -/
  list : ∃ l' l₁, Chain m'.link m'.pageFreeList l' ∧ pp ∉ l' ∧
    (l₁ = l ∨ ∃ t, l = t :: l₁ ∧ Names (m'.phys d (PDX va)) t ∧ ∀ i, i ≠ PTX va → m'.phys t i = 0) ∧
    ∀ q, q ∈ l' ↔ q ∈ l₁ ∨ mappedAt m d va = some q ∧ q ≠ pp ∧ m.ref q = 1

/-- **`page_insert` is a map update** for every directory whose tables are its own, when the
addresses of other entries, as the one at `UVPT` that names the directory itself, do not count. -/
theorem pageInsert_mapUpdate (h : WellFormed m d W l V x) (hv : PGNUM va ∈ V) (hpp : pp < m.npages)
    (hfree : pp ∉ l)
    (href : (m.ref pp).toNat < 65535) (hperm : perm &&& ~~~PTE_SYSCALL = 0#32) :
    (pageInsert m d pp va perm = .ok (-E_NO_MEM, m) ∨
      ∃ m', pageInsert m d pp va perm = .ok (0, m') ∧ MapUpdate m d W l V pp va perm m') ∧
    ∀ r m', pageInsert m d pp va perm = .ok (r, m') → ∃ l' x', WellFormed m' d W l' V x' := by
  have hflags : IsFlags perm :=
    isFlags_of_mask (by rwa [show PTE_U ||| PTE_P ||| PTE_AVAIL ||| PTE_W = PTE_SYSCALL by decide])
  have hpp20 : pp < 2 ^ 20 := lt_of_lt_of_le hpp h.npages_le
  rcases h.pageInsert hv hpp hfree href hflags with ⟨hrun, -, -⟩ | ⟨m', t, l₁, x', l', hrun, hi⟩
  · refine ⟨.inl hrun, fun r m' hr => ?_⟩
    rw [hrun] at hr
    cases hr
    exact ⟨l, x, h⟩
  refine ⟨.inr ⟨m', hrun, ?_⟩, fun r m'' hr => ?_⟩
  · have hself : dirPte m'.phys d (PGNUM va) = mkPte pp perm := by
      rw [hi.entries _ (h.tables _ hv), if_pos rfl]
    have hu : ∀ p, mappings (dirPte m'.phys d) V p = mappings
      (update (dirPte m.phys d) (PGNUM va) (mkPte pp perm)) V p :=
      mappings_congr (update_of_entries h.tables hi.entries)
    refine ⟨⟨_, translate_of_dirPte hself (test_mkPte_P _ _), PGNUM_mkPte hpp20 hflags,
      mkPte_and hflags⟩, fun a ha hne => ?_,
      ?_, fun q hq hne => ?_, l', l₁, hi.well.chain, ?_, ?_, fun q => ?_⟩
    · rw [PDX_eq] at ha
      exact translate_of_same_dirPte (by rw [hi.entries _ ha, if_neg hne])
    · have hcount := h.count pp
      have hcount' := hi.well.count pp
      rw [hi.table.refs hfree] at hcount'
      omega
    · have hn := mappedAt_eq_some.mp hq
      have hlose := mappings_lose (w := mkPte pp perm) hv hn fun hw =>
        hne (names_unique hw (names_mkPte hpp20 hflags))
      have hcount := h.count q
      have hcount' := hi.well.count q
      rw [hi.table.refs (h.not_mapped hv hq), hu] at hcount'
      omega
    · rw [hi.mem_list]
      rintro (hl | ⟨-, hne, -⟩)
      · exact hfree (hi.table.sub hl)
      · exact hne rfl
    · rcases hi.table with ⟨hl, -⟩ | ⟨hl, -⟩
      · exact .inl hl
      · exact .inr ⟨t, hl, hi.names, hi.zeroed hl⟩
    · exact hi.mem_list
  · rw [hrun] at hr
    cases hr
    exact ⟨l', x', hi.well⟩

/-- A page of the kernel, mapped at `0x1000`. -/
theorem pageInsert_mapUpdate_bootMem : ∃ l m',
    pageInsert bootMem 0x300 0x200 0x1000 7 = .ok (0, m') ∧
    MapUpdate bootMem 0x300 (fun i => i < NPDENTRIES ∧ i ≠ PDX UVPT) l
      (Finset.range NUPAGES) 0x200 0x1000 7 m' := by
  obtain ⟨l, h, hl⟩ := wellFormed_bootMem
  have hfree : 0x200 ∉ l := fun hm => absurd ((hl _).mp hm).2 (by decide)
  rcases (pageInsert_mapUpdate h (show PGNUM 0x1000 ∈ Finset.range NUPAGES from Finset.mem_range.mpr
    (by decide)) (by decide) hfree
    (by decide) (show 7 &&& ~~~PTE_SYSCALL = 0#32 by decide)).1 with hrun | hrun
  · have hok : (pageInsert bootMem 0x300 0x200 0x1000 7).map Prod.fst = .ok 0 := by decide +kernel
    rw [hrun] at hok
    cases hok
  · exact ⟨l, hrun⟩

/-- **The window at `UVPT`**: the table that is made for `0x1000` is mapped there afterwards. -/
theorem pageInsert_window : ∃ l x m', WellFormed bootMem 0x300 (fun i => i < NPDENTRIES ∧
    i ≠ PDX UVPT) l (Finset.range NUPAGES) x ∧
    0x200 ∉ l ∧ pageInsert bootMem 0x300 0x200 0x1000 7 = .ok (0, m') ∧
    ¬ MapUpdate bootMem 0x300 (fun _ => True) l (Finset.range NUPAGES) 0x200 0x1000 7 m' := by
  obtain ⟨l, h, hl⟩ := wellFormed_bootMem
  have hfree : 0x200 ∉ l := fun hm => absurd ((hl _).mp hm).2 (by decide)
  have hrun : (pageInsert bootMem 0x300 0x200 0x1000 7).map
      (fun x => (x.1, (translate x.2 0x300 UVPT).isSome)) = .ok (0, true) := by
    decide +kernel
  cases hm : pageInsert bootMem 0x300 0x200 0x1000 7 with
  | error e =>
    rw [hm] at hrun
    cases hrun
  | ok x =>
    obtain ⟨r, m'⟩ := x
    rw [hm] at hrun
    simp only [Except.map, Except.ok.injEq, Prod.mk.injEq] at hrun
    obtain ⟨rfl, hsome⟩ := hrun
    refine ⟨l, _, m', h, hfree, rfl, fun hmap => ?_⟩
    have hnone : translate bootMem 0x300 UVPT = none := by decide +kernel
    rw [hmap.others UVPT trivial (by decide), hnone] at hsome
    cases hsome

end JOS
