import JOS.Memory.Directory

/-!
# Well-formed page directories

`Paging` is what the functions on page tables need of one directory: the entries of a set
`W` have tables of their own, these tables and the directory are in memory and in use,
and the free list is a list of pages without references. `W` is a parameter, since an
entry may also name the directory itself, as the one at `UVPT` does; what is mapped there
is the directory, and not a page.

`pgdirWalk_spec` is all that is used about `pgdir_walk`, and `Paging.setPte` about the
write of an entry that comes after it.
-/

namespace JOS

open JOS.General

open Function (update)

variable {m m' : Mem} {l l' : List ℕ} {W : ℕ → Prop} {d i p q t v : ℕ} {va w : Word}

/-- The entries `W` of the directory `d` have tables of their own, and the free list is `l`. -/
structure Paging (m : Mem) (d : ℕ) (W : ℕ → Prop) (l : List ℕ) : Prop where
  /-- Physical addresses have 32 bits. -/
  npages_le : m.npages ≤ 2 ^ 20
  chain : Chain m.link m.pageFreeList l
  free_lt : ∀ p ∈ l, p < m.npages
  /-- Free pages have no references. -/
  zero : ∀ p ∈ l, m.ref p = 0
  /-- The directory is in use. -/
  dir : d ∉ l
  /-- Different entries have different tables, and none is the directory. -/
  own : OwnTables m.phys d W
  /-- The tables are in memory, and in use. -/
  table : ∀ i, W i → ∀ t, Names (m.phys d i) t → t < m.npages ∧ t ∉ l

theorem Paging.lt (h : Paging m d W l) (hp : p ∈ l) : p < 2 ^ 20 :=
  lt_of_lt_of_le (h.free_lt p hp) h.npages_le

theorem Paging.freeList (h : Paging m d W l) : FreeList m l := ⟨h.chain, fun _ hp => h.lt hp⟩

/-! ### `pgdir_walk` -/

/-- Memory after `pgdir_walk` has made the free page `p` the table of entry `i` of the directory
`d`. -/
def Mem.newTable (m : Mem) (p d i : ℕ) : Mem :=
  (((m.popFree p).setPage p fun _ => 0).setRef p (m.ref p + 1)).setWord d i (newPde p)

theorem newTable_phys : (m.newTable p d i).phys = setW (update m.phys p fun _ => 0) d i
    (newPde p) := rfl

theorem newTable_ref_self : (m.newTable p d i).ref p = m.ref p + 1 := by
  rw [Mem.newTable, setWord_ref, setRef_self]

theorem newTable_ref (h : q ≠ p) : (m.newTable p d i).ref q = m.ref q := by
  rw [Mem.newTable, setWord_ref, setRef_of_ne h]
  exact congrFun (popFree_ref m p) q

theorem newTable_link : (m.newTable p d i).link = (m.popFree p).link := by
  rw [Mem.newTable]
  exact setRef_link _ _ _

/-- Page tables come from the free list. -/
theorem pgdirWalk_alloc (hnp : m.npages ≤ 2 ^ 20) (hfl : m.pageFreeList = some p)
    (hp : p < m.npages)
    (hP : test (m.phys d (PDX va)) PTE_P ≠ true) :
    pgdirWalk m d va true = .ok (some ⟨p, PTX va⟩, m.newTable p d (PDX va)) := by
  have hp20 : p < 2 ^ 20 := lt_of_lt_of_le hp hnp
  have hnp' : (m.popFree p).npages = m.npages := rfl
  have hk : kaddr (m.popFree p) (page2pa p) = .ok p := by
    rw [kaddr, PGNUM_page2pa hp20, hnp', if_neg (not_le.mpr hp)]
  have halloc : pageAlloc m true = .ok (some p, (m.popFree p).setPage p fun _ => 0) := by
    rw [pageAlloc_of_some hfl, if_pos rfl, hk]
    rfl
  have href : (((m.popFree p).setPage p fun _ => 0).pages p).ppRef = m.ref p :=
    congrFun (popFree_ref m p) p
  have hpde := (names_newPde hp20).2
  rw [newPde] at hpde
  simp only [pgdirWalk, hP, if_false, if_true, Bool.false_eq_true, halloc, ok_bind, kaddr,
    PGNUM_PTE_ADDR,
    setWord_phys, setW_self, hpde]
  rw [if_neg (by exact not_le.mpr hp), href]
  rfl

/-- The table of `va` after `pgdir_walk`: it was there, or the first free page has become an empty
table. -/
structure TableGot (m : Mem) (d : ℕ) (W : ℕ → Prop) (l : List ℕ) (va : Word) (t : ℕ) (m' : Mem)
    (l' : List ℕ) : Prop where
  paging : Paging m' d W l'
  names : Names (m'.phys d (PDX va)) t
  /-- No address is mapped differently. -/
  pte : ∀ v, W (v / 1024) → dirPte m'.phys d v = dirPte m.phys d v
  got : m' = m ∧ l' = l ∧ test (m.phys d (PDX va)) PTE_P = true ∨
    l = t :: l' ∧ test (m.phys d (PDX va)) PTE_P ≠ true ∧ m' = m.newTable t d (PDX va)

theorem Paging.newTable (h : Paging m d W (p :: l)) (hfl : m.pageFreeList = some p)
    (hP : test (m.phys d (PDX va)) PTE_P ≠ true) :
    TableGot m d W (p :: l) va p (m.newTable p d (PDX va)) l := by
  have hpl : p ∉ l := (List.nodup_cons.mp h.chain.nodup).1
  have hp20 : p < 2 ^ 20 := h.lt List.mem_cons_self
  have hpd : p ≠ d := fun hpd => h.dir (hpd ▸ List.mem_cons_self)
  have hfresh : ∀ j, W j → ¬ Names (m.phys d j) p :=
    fun j hj hn => (h.table j hj p hn).2 List.mem_cons_self
  have hne : ∀ q ∈ l, q ≠ p := fun q hq hqp => hpl (hqp ▸ hq)
  have hself : (m.newTable p d (PDX va)).phys d (PDX va) = newPde p := by
    rw [newTable_phys, setW_self]
  have hdir : ∀ j, j ≠ PDX va → (m.newTable p d (PDX va)).phys d j = m.phys d j := by
    intro j hj
    rw [newTable_phys, setW_of_ne_index hj, Function.update_of_ne (Ne.symm hpd)]
  have hchain := h.chain
  rw [hfl] at hchain
  obtain ⟨t, ht, htail⟩ := hchain.of_some
  cases ht
  refine ⟨⟨h.npages_le, ?_, fun q hq => h.free_lt q (List.mem_cons_of_mem _ hq), ?_,
    fun hd => h.dir (List.mem_cons_of_mem _ hd), ?_, ?_⟩, ?_, ?_, .inr ⟨rfl, hP, rfl⟩⟩
  · rw [newTable_link]
    exact htail.congr fun q hq => popFree_link (hne q hq)
  · intro q hq
    rw [newTable_ref (hne q hq)]
    exact h.zero q (List.mem_cons_of_mem _ hq)
  · exact h.own.newTable hpd hfresh (names_newPde hp20)
  · intro j hj q hn
    by_cases hjv : j = PDX va
    · rw [hjv, hself] at hn
      rw [← names_unique (names_newPde hp20) hn]
      exact ⟨h.free_lt p List.mem_cons_self, hpl⟩
    · rw [hdir j hjv] at hn
      obtain ⟨hlt, hnot⟩ := h.table j hj q hn
      exact ⟨hlt, fun hq => hnot (List.mem_cons_of_mem _ hq)⟩
  · rw [hself]
    exact names_newPde hp20
  · exact fun v hv => h.own.dirPte_newTable hv hP hpd hfresh (names_newPde hp20)

/-- **`pgdir_walk` with `create`**: it returns null when a table is needed and no page is free, and
otherwise the entry of the table, which no address sees. -/
theorem Paging.pgdirWalk_spec (h : Paging m d W l) (hva : W (PDX va)) :
    pgdirWalk m d va true = .ok (none, m) ∧ l = [] ∧ test (m.phys d (PDX va)) PTE_P ≠ true ∨
      ∃ t m' l', pgdirWalk m d va true = .ok (some ⟨t, PTX va⟩, m') ∧
          TableGot m d W l va t m' l' := by
  by_cases hP : test (m.phys d (PDX va)) PTE_P = true
  · refine .inr ⟨_, m, l, ?_, h, ⟨hP, rfl⟩, fun _ _ => rfl, .inl ⟨rfl, rfl, hP⟩⟩
    have hlt := (h.table _ hva _ ⟨hP, rfl⟩).1
    simp only [pgdirWalk, hP, if_true, kaddr, PGNUM_PTE_ADDR]
    rw [if_neg (not_le.mpr hlt)]
    rfl
  · cases l with
    | nil =>
      refine .inl ⟨?_, rfl, hP⟩
      have hfl : m.pageFreeList = none := by
        cases hfl : m.pageFreeList with
        | none => rfl
        | some p =>
          have hchain := h.chain
          rw [hfl] at hchain
          cases hchain
      simp only [pgdirWalk, hP, if_false, if_true, Bool.false_eq_true, pageAlloc, hfl]
      rfl
    | cons p l =>
      have hfl := h.chain.head_eq
      exact .inr ⟨p, _, l, pgdirWalk_alloc h.npages_le hfl (h.free_lt p List.mem_cons_self) hP,
        h.newTable hfl hP⟩

/-! ### Pages -/

/-- `page_alloc` takes the first free page. -/
theorem Paging.popFree (h : Paging m d W (p :: l)) (hfl : m.pageFreeList = some p) :
    Paging (m.popFree p) d W l := by
  have hpl : p ∉ l := (List.nodup_cons.mp h.chain.nodup).1
  have hchain := h.chain
  rw [hfl] at hchain
  obtain ⟨t, ht, htail⟩ := hchain.of_some
  cases ht
  refine ⟨h.npages_le, htail.congr fun q hq => popFree_link fun hqp => hpl (hqp ▸ hq),
    fun q hq => h.free_lt q (List.mem_cons_of_mem _ hq), fun q hq => ?_, fun hd =>
      h.dir (List.mem_cons_of_mem _ hd), h.own,
    fun i hi t hn => ⟨(h.table i hi t hn).1, fun ht =>
      (h.table i hi t hn).2 (List.mem_cons_of_mem _ ht)⟩⟩
  rw [popFree_ref]
  exact h.zero q (List.mem_cons_of_mem _ hq)

theorem Paging.markUser (h : Paging m d W l) (p : ℕ) (b : Bool) : Paging (m.markUser p b) d W l :=
  ⟨h.npages_le, h.chain, h.free_lt, h.zero, h.dir, h.own, h.table⟩

/-- The count of a page in use is written. -/
theorem Paging.setRef (h : Paging m d W l) (hq : q ∉ l) (r : BitVec 16) :
    Paging (m.setRef q r) d W l := by
  refine ⟨h.npages_le, by rw [setRef_link]; exact h.chain, h.free_lt, fun p hp => ?_,
    h.dir, h.own, h.table⟩
  have hpq : p ≠ q := fun hpq => hq (hpq ▸ hp)
  rw [setRef_of_ne hpq]
  exact h.zero p hp

/-! ### Entries -/

/-- The tables after an entry of the directory has been written that names the same table. -/
theorem names_setPde (ht : Names (m.phys d i) t) (hw : Names w t) {j : ℕ}
    (hn : Names ((m.setWord d i w).phys d j) q) :
    Names (m.phys d j) q := by
  rw [setWord_phys] at hn
  by_cases hji : j = i
  · rw [hji, setW_self] at hn
    rw [hji, ← names_unique hw hn]
    exact ht
  · rwa [setW_of_ne_index hji] at hn

theorem Paging.setPde (h : Paging m d W l) (ht : Names (m.phys d i) t) (hw : Names w t) :
    Paging (m.setWord d i w) d W l :=
  { h with
    own := h.own.setPde ht hw
    table := fun j hj q hn => h.table j hj q (names_setPde ht hw hn) }

/-- An entry of a table is written. -/
theorem Paging.setPte (h : Paging m d W l) (hva : W (PDX va)) (ht : Names (m.phys d (PDX va)) t)
    (w : Word) :
    Paging (m.setWord t (PTX va) w) d W l ∧
      (∀ v, W (v / 1024) → dirPte (m.setWord t (PTX va) w).phys d v = if v = PGNUM va then w
        else dirPte m.phys d v) ∧
      ∀ i, (m.setWord t (PTX va) w).phys d i = m.phys d i := by
  have hdt : d ≠ t := fun hdt => h.own.ne _ hva (hdt ▸ ht)
  have hdir : ∀ i, (m.setWord t (PTX va) w).phys d i = m.phys d i := fun i => by
    rw [setWord_phys, setW_of_ne hdt]
  refine ⟨{ h with
      own := h.own.setPte hdt, table := fun i hi q hn => h.table i hi q (by rwa [← hdir i]) },
    fun v hv => ?_, hdir⟩
  rw [setWord_phys, PTX_eq]
  rw [PDX_eq] at hva ht
  exact h.own.dirPte_setPte hva hv ht

/-- The entry that the hardware finds for an address. -/
theorem translate_of_same_dirPte (h : dirPte m'.phys d (PGNUM va) = dirPte m.phys d (PGNUM va)) :
    translate m' d va = translate m d va := by rw [translate_eq_dirPte, translate_eq_dirPte, h]

theorem translate_of_dirPte (h : dirPte m.phys d (PGNUM va) = w) (hP : test w PTE_P = true) :
    translate m d va = some w := by
  rw [translate_eq_dirPte, h, if_pos hP]

/-! ### The kernel's directory -/

/-- After boot, all entries of `kern_pgdir` but the one for itself have tables of their own. -/
theorem Mem.Booted.paging (h : m.Booted) : ∃ l,
    Paging m m.kernPgdir (fun i => i < NPDENTRIES ∧ i ≠ PDX UVPT) l ∧
    ∀ p, p ∈ l ↔ m.Managed p ∧ ∀ i, m.KernTable i → m.kernTable i ≠ p := by
  obtain ⟨l, hl, hmem⟩ := h.free
  -- the user's half is empty
  have hkern : ∀ i, i < NPDENTRIES ∧ i ≠ PDX UVPT → ∀ t, Names (m.phys m.kernPgdir i) t →
      m.KernTable i := by
    rintro i ⟨hi, hne⟩ t hn
    refine ⟨?_, hi, hne, hn.1⟩
    by_contra hlow
    rw [h.user i (not_le.mp hlow)] at hn
    exact not_names_zero t hn
  refine ⟨l, ⟨h.npages_le, hl, fun p hp => ((hmem p).mp hp).1.1, fun p hp => ?_, fun hd => ?_,
    ⟨?_, ?_⟩, ?_⟩, hmem⟩
  · exact h.free_ref p ((hmem p).mp hp).1 ((hmem p).mp hp).2
  · exact h.kernPgdir.2 ((hmem _).mp hd).1
  · intro i j t hi hj hn hn'
    exact h.table_inj i j (hkern i hi t hn) (hkern j hj t hn') (hn.2.trans hn'.2.symm)
  · intro i hi hn
    have hmanaged := (h.table i (hkern i hi _ hn)).1
    rw [Mem.kernTable, hn.2] at hmanaged
    exact h.kernPgdir.2 hmanaged
  · intro i hi t hn
    have hk := hkern i hi t hn
    have hmanaged := (h.table i hk).1
    rw [Mem.kernTable, hn.2] at hmanaged
    exact ⟨hmanaged.1, fun ht => ((hmem t).mp ht).2 i hk hn.2⟩

end JOS
