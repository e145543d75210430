import JOS.Memory.Paging
import JOS.Memory.PageList
import JOS.Memory.Total
import JOS.General.Count

/-!
# Page mappings and their reference counts

`page_remove` and `page_insert` on one well-formed directory. `WellFormed` is `Paging` with
exact reference counts: `pp_ref` of a page is the number of the pages `V` that are mapped to
it and of the references to it from elsewhere, which `x` gives. What the two functions do is
said by the entries and the counts afterwards (`pageRemove_mapped`, `pageInsert_spec`); all
counts follow from these two.
-/

namespace JOS

open JOS.General

open Function (update)

variable {m m' m₁ m₂ : Mem} {l l' l₁ l₂ : List ℕ} {W : ℕ → Prop} {V : Finset ℕ} {u u' : ℕ → Word}
  {x x' : ℕ → ℕ}
  {d i n p pp q t v : ℕ} {va perm w : Word} {r : BitVec 16}

/-! ### Counting -/

/-- How many of the pages `V` are mapped to page `p`, when `u` gives their entries. -/
def mappings (u : ℕ → Word) (V : Finset ℕ) (p : ℕ) : ℕ := (V.filter fun v => Names (u v) p).card

theorem mappings_congr (h : ∀ v ∈ V, u' v = u v) (p : ℕ) : mappings u' V p = mappings u V p := by
  rw [mappings, mappings]
  exact congrArg _ (Finset.filter_congr fun v hv => by rw [h v hv])

private theorem names_update (h : i ≠ v) : Names (u i) p ↔ Names (update u v w i) p := by
  rw [Function.update_of_ne h]

theorem mappings_gain (hv : v ∈ V) (hn : ¬ Names (u v) p) (hw : Names w p) :
    mappings (update u v w) V p = mappings u V p + 1 :=
  card_filter_gain (fun _ _ h => names_update h) hv hn (by rwa [Function.update_self])

theorem mappings_lose (hv : v ∈ V) (hn : Names (u v) p) (hw : ¬ Names w p) :
    mappings u V p = mappings (update u v w) V p + 1 :=
  card_filter_lose (fun _ _ h => names_update h) hv hn (by rwa [Function.update_self])

theorem mappings_same (h : Names (u v) p ↔ Names w p) :
    mappings (update u v w) V p = mappings u V p := by
  refine (card_filter_same (i := v) (fun _ _ hi => names_update hi) fun _ => ?_).symm
  rw [Function.update_self, h]

/-- Counts without the entry of one page. -/
theorem mappings_clear_le (u : ℕ → Word) (V : Finset ℕ) (v p : ℕ) :
    mappings (update u v 0) V p ≤ mappings u V p := by
  refine Finset.card_le_card fun i hi => ?_
  obtain ⟨hiV, hn⟩ := Finset.mem_filter.mp hi
  refine Finset.mem_filter.mpr ⟨hiV, ?_⟩
  by_cases hiv : i = v
  · rw [hiv, Function.update_self] at hn
    exact absurd hn (not_names_zero p)
  · rwa [Function.update_of_ne hiv] at hn

/-! ### Well-formed directories -/

/-- The reference counts are exact, when `u` gives the entries of the pages `V`. -/
structure Accounted (m : Mem) (d : ℕ) (W : ℕ → Prop) (l : List ℕ) (V : Finset ℕ) (u : ℕ → Word)
    (x : ℕ → ℕ) : Prop
    extends Paging m d W l where
  /-- Pages in use are not linked. -/
  unlinked : ∀ p < m.npages, p ∉ l → m.link p = none
  count : ∀ p, (m.ref p).toNat = mappings u V p + x p
  /-- The directory and its tables have references of their own. -/
  dirRef : 0 < x d
  tableRef : ∀ i, W i → ∀ t, Names (m.phys d i) t → 0 < x t

/-- The bits that `pgdir_walk` gives to directory entries. -/
def PTE_TABLE : Word := PTE_U ||| PTE_W ||| PTE_P

/-- A well-formed page directory. -/
structure WellFormed (m : Mem) (d : ℕ) (W : ℕ → Prop) (l : List ℕ) (V : Finset ℕ) (x : ℕ → ℕ) : Prop
    extends Accounted m d W l V (dirPte m.phys d) x where
  /-- The tables of the pages `V` are among those of `W`. -/
  tables : ∀ v ∈ V, W (v / 1024)
  /-- What is mapped are pages of memory. -/
  page : ∀ v ∈ V, ∀ p, Names (dirPte m.phys d v) p → p < m.npages
  /-- Directory entries carry all permissions. -/
  flags : ∀ v ∈ V, test (m.phys d (v / 1024)) PTE_P = true →
    m.phys d (v / 1024) &&& PTE_TABLE = PTE_TABLE

/-- A page that has references is not free. -/
theorem Paging.not_free (h : Paging m d W l) (hp : 0 < (m.ref p).toNat) : p ∉ l := by
  intro hpl
  rw [h.zero p hpl] at hp
  exact absurd hp (by decide)

/-! ### `page_decref` -/

theorem ref_pred_toNat (h : 0 < r.toNat) : (r - 1).toNat = r.toNat - 1 := by
  have h1 : (1 : BitVec 16).toNat = 1 := rfl
  rw [BitVec.toNat_sub_of_le (by rw [BitVec.le_def, h1]; omega), h1]

theorem ref_succ_toNat (h : r.toNat < 65535) : (r + 1).toNat = r.toNat + 1 := by
  have h1 : (1 : BitVec 16).toNat = 1 := rfl
  rw [BitVec.toNat_add, h1]
  omega

/-- `page_free` of a page that is not on the list and has no references. -/
theorem pageFree_push (href : m.ref p = 0) (hlink : m.link p = none) : ∃ m', pageFree m p = .ok m' ∧
    m'.phys = m.phys ∧
    m'.npages = m.npages ∧ m'.ref = m.ref ∧ m'.pageFreeList = some p ∧ m'.link p = m.pageFreeList ∧
    ∀ q, q ≠ p → m'.link q = m.link q := by
  have hfree : pageFree m p = .ok
      { (m.setInfo p { m.pages p with ppLink := m.pageFreeList }).markUser p false with
          pageFreeList := some p } := by
    have href' : (m.pages p).ppRef = 0 := href
    have hlink' : (m.pages p).ppLink = none := hlink
    rw [pageFree, if_neg (not_not.mpr href'), if_neg (not_not.mpr hlink')]
  obtain ⟨hhead, hself, -, -, hothers⟩ := pageFree_link hfree
  refine ⟨_, hfree, rfl, rfl, ?_, hhead, hself, hothers⟩
  funext q
  by_cases hq : q = p <;> simp [Mem.ref, Mem.setInfo, Mem.markUser, hq]

theorem Accounted.congr (h : Accounted m d W l V u x) (hu : ∀ v ∈ V, u' v = u v) :
    Accounted m d W l V u' x :=
  ⟨h.toPaging, h.unlinked, fun p => by rw [h.count p, mappings_congr hu], h.dirRef, h.tableRef⟩

/-- The count of a page in use is written, with the entry of page `v`. -/
theorem Accounted.setRef (h : Accounted m d W l V u x) (hq : q ∉ l)
    (hself : r.toNat = mappings (update u v w) V q + x q)
    (hothers : ∀ p, p ≠ q → (Names (u v) p ↔ Names w p)) :
    Accounted (m.setRef q r) d W l V (update u v w) x := by
  refine ⟨h.toPaging.setRef hq r,
    fun p hp hpl => by rw [setRef_link]; exact h.unlinked p hp hpl, fun p => ?_, h.dirRef,
    h.tableRef⟩
  by_cases hpq : p = q
  · rw [hpq, setRef_self, hself]
  · rw [setRef_of_ne hpq, h.count p, mappings_same (hothers p hpq)]

/-- The entry of page `v` does not count any more. -/
theorem Accounted.drop (h : Accounted m d W l V u x) (hv : v ∈ V) (hq : Names (u v) q) :
    Accounted (m.setRef q (m.ref q - 1)) d W l V (update u v 0) x := by
  have hlose := mappings_lose hv hq (not_names_zero q)
  have hcount := h.count q
  refine h.setRef (h.not_free (by omega)) ?_ fun p hpq =>
    ⟨fun hn => absurd (names_unique hn hq) hpq, fun hn => absurd hn (not_names_zero p)⟩
  rw [ref_pred_toNat (by omega)]
  omega

/-- The entry of page `v` counts for page `p` now. -/
theorem Accounted.take (h : Accounted m d W l V u x) (hv : v ∈ V) (hu : ∀ q, ¬ Names (u v) q)
    (hw : Names w p)
    (hpl : p ∉ l) (hlt : (m.ref p).toNat < 65535) :
    Accounted (m.setRef p (m.ref p + 1)) d W l V (update u v w) x := by
  have hgain := mappings_gain hv (hu p) hw
  have hcount := h.count p
  refine h.setRef hpl ?_ fun q hqp =>
    ⟨fun hn => absurd hn (hu q), fun hn => absurd (names_unique hn hw) hqp⟩
  rw [ref_succ_toNat hlt]
  omega

/-- A page without references becomes free. -/
theorem Accounted.free (h : Accounted m d W l V u x) (href : m.ref q = 0) (hql : q ∉ l)
    (hlt : q < m.npages) :
    ∃ m', pageFree m q = .ok m' ∧ m'.phys = m.phys ∧ m'.npages = m.npages ∧
        Accounted m' d W (q :: l) V u x := by
  obtain ⟨m', hm', hphys, hnp, href', hhead, hself, hothers⟩ :=
    pageFree_push href (h.unlinked q hlt hql)
  have hx : x q = 0 := by
    have hcount := h.count q
    rw [href, show (0 : BitVec 16).toNat = 0 from rfl] at hcount
    omega
  refine ⟨m', hm', hphys, hnp,
    ⟨⟨by rw [hnp]; exact h.npages_le, ?_, fun p hp => ?_, fun p hp => ?_, fun hd => ?_,
    by rw [hphys]; exact h.own, fun i hi t ht => ?_⟩, fun p hp hpl => ?_,
    fun p => by rw [href']; exact h.count p, h.dirRef,
    by rw [hphys]; exact h.tableRef⟩⟩
  · rw [hhead]
    exact h.chain.push hself fun p hp => hothers p fun hpq => hql (hpq ▸ hp)
  · rw [hnp]
    rcases List.mem_cons.mp hp with rfl | hp
    · exact hlt
    · exact h.free_lt p hp
  · rw [href']
    rcases List.mem_cons.mp hp with rfl | hp
    · exact href
    · exact h.zero p hp
  · rcases List.mem_cons.mp hd with rfl | hd
    · exact absurd h.dirRef (by omega)
    · exact h.dir hd
  · rw [hphys] at ht
    obtain ⟨htlt, htl⟩ := h.table i hi t ht
    refine ⟨by rw [hnp]; exact htlt, fun htm => ?_⟩
    rcases List.mem_cons.mp htm with rfl | htm
    · exact absurd (h.tableRef i hi t ht) (by omega)
    · exact htl htm
  · rw [List.mem_cons, not_or] at hpl
    rw [hothers p hpl.1]
    rw [hnp] at hp
    exact h.unlinked p hp hpl.2

/-- `page_decref` for the entry of page `v`: the page it named is freed when that was its last
reference. -/
theorem Accounted.pageDecref (h : Accounted m d W l V u x) (hv : v ∈ V) (hq : Names (u v) q)
    (hlt : q < m.npages) :
    ∃ m', pageDecref m q = .ok m' ∧ m'.phys = m.phys ∧ m'.npages = m.npages ∧
      Accounted m' d W (if m.ref q = 1 then q :: l else l) V (update u v 0) x := by
  have hpos : 0 < (m.ref q).toNat := by
    have hlose := mappings_lose hv hq (not_names_zero q)
    have hcount := h.count q
    omega
  have hdrop := h.drop hv hq
  have hone : m.ref q = 1 ↔ (m.setRef q (m.ref q - 1)).ref q = 0 := by
    rw [setRef_self, BitVec.toNat_inj.symm, BitVec.toNat_inj.symm, ref_pred_toNat hpos,
      show (1 : BitVec 16).toNat = 1 from rfl, show (0 : BitVec 16).toNat = 0 from rfl]
    omega
  rw [JOS.pageDecref]
  by_cases hlast : m.ref q = 1
  · have hzero := hone.mp hlast
    obtain ⟨m', hm', hphys, hnp, hfree⟩ := hdrop.free hzero (h.not_free hpos) hlt
    rw [if_pos hlast]
    exact ⟨m', (if_pos hzero).trans hm', hphys, hnp, hfree⟩
  · rw [if_neg hlast]
    exact ⟨_, if_neg fun hzero => hlast (hone.mpr hzero), rfl, rfl, hdrop⟩

/-! ### Entries -/

/-- An entry of a table is written, and counted as `u` says. -/
theorem Accounted.setPte (h : Accounted m d W l V u x) (hva : W (PDX va))
    (ht : Names (m.phys d (PDX va)) t) (w : Word) :
    Accounted (m.setWord t (PTX va) w) d W l V u x := by
  obtain ⟨hpaging, -, hdir⟩ := h.toPaging.setPte hva ht w
  exact ⟨hpaging, h.unlinked, h.count, h.dirRef, fun i hi t hn =>
    h.tableRef i hi t (by rwa [← hdir i])⟩

/-- An entry of the directory is written that names the same table. -/
theorem Accounted.setPde (h : Accounted m d W l V u x) (ht : Names (m.phys d i) t)
    (hw : Names w t) :
    Accounted (m.setWord d i w) d W l V u x :=
  ⟨h.toPaging.setPde ht hw, h.unlinked, h.count, h.dirRef, fun j hj t' hn =>
    h.tableRef j hj t' (names_setPde ht hw hn)⟩

/-! ### `page_lookup` -/

/-- There is no table. -/
theorem pageLookup_absent (hP : test (m.phys d (PDX va)) PTE_P ≠ true) :
    pageLookup m d va = .ok none := by
  rw [pageLookup, pgdirWalk, if_neg hP]
  rfl

/-- `page_lookup` does not look at the entry before it takes its page number. -/
theorem pageLookup_table (ht : Names (m.phys d (PDX va)) t) (hlt : t < m.npages) :
    pageLookup m d va =
    if PGNUM (m.phys t (PTX va)) ≥ m.npages then .error .panic
        else .ok (some (PGNUM (m.phys t (PTX va)), ⟨t, PTX va⟩)) := by
  have hwalk : pgdirWalk m d va false = .ok (some ⟨t, PTX va⟩, m) := by
    rw [pgdirWalk, if_pos ht.1, kaddr, PGNUM_PTE_ADDR, ht.2, if_neg (not_le.mpr hlt)]
    rfl
  rw [pageLookup, hwalk, ok_bind]
  dsimp only
  rw [show m.word ⟨t, PTX va⟩ = m.phys t (PTX va) from rfl, pa2page, PGNUM_PTE_ADDR]
  split_ifs <;> rfl

/-- The table of an address that is mapped. -/
theorem names_of_dirPte (hq : Names (dirPte m.phys d (PGNUM va)) q) :
    ∃ t, Names (m.phys d (PDX va)) t ∧ m.phys t (PTX va) = dirPte m.phys d (PGNUM va) := by
  rw [dirPte, ← PDX_eq, ← PTX_eq] at hq ⊢
  by_cases hP : test (m.phys d (PDX va)) PTE_P = true
  · exact ⟨_, ⟨hP, rfl⟩, by rw [if_pos hP]⟩
  · rw [if_neg hP] at hq
    exact absurd hq (not_names_zero q)

/-! ### `page_remove` -/

/-- What `page_remove` leaves, when page `q` was mapped at `va`. -/
structure Removed (m : Mem) (d : ℕ) (W : ℕ → Prop) (l : List ℕ) (V : Finset ℕ) (x : ℕ → ℕ)
    (va : Word) (q : ℕ) (m' : Mem) :
    Prop where
  well : WellFormed m' d W (if m.ref q = 1 then q :: l else l) V x
  entries : ∀ v, W (v / 1024) → dirPte m'.phys d v = if v = PGNUM va then 0 else dirPte m.phys d v
  npages : m'.npages = m.npages
  words : ∃ t, Names (m.phys d (PDX va)) t ∧ d ≠ t ∧ m'.phys = setW m.phys t (PTX va) 0

/-- The entries of the pages `V` after one of them has been written. -/
theorem update_of_entries (hV : ∀ v ∈ V, W (v / 1024))
    (h : ∀ v, W (v / 1024) → u' v = if v = n then w else u v) : ∀ v ∈ V, u' v = update u n w v := by
  intro v hv
  rw [h v (hV v hv)]
  by_cases hvn : v = n
  · rw [if_pos hvn, hvn, Function.update_self]
  · rw [if_neg hvn, Function.update_of_ne hvn]

/-- **`page_remove` of a page that is mapped.** -/
theorem pageRemove_mapped (h : WellFormed m d W l V x) (hv : PGNUM va ∈ V)
    (hq : Names (dirPte m.phys d (PGNUM va)) q) :
    ∃ m', pageRemove m d va = .ok m' ∧ Removed m d W l V x va q m' := by
  obtain ⟨t, ht, hw⟩ := names_of_dirPte hq
  have hva : W (PDX va) := by
    rw [PDX_eq]
    exact h.tables _ hv
  have hlt := h.page _ hv q hq
  have htlt := (h.table _ hva t ht).1
  have hdt : d ≠ t := fun hdt => h.own.ne _ hva (hdt ▸ ht)
  obtain ⟨m₁, hm₁, hphys, hnp, hacc⟩ := h.toAccounted.pageDecref hv hq hlt
  have ht₁ : Names (m₁.phys d (PDX va)) t := by rwa [hphys]
  have hlook : pageLookup m d va = .ok (some (q, ⟨t, PTX va⟩)) := by
    rw [pageLookup_table ht htlt, hw, hq.2, if_neg (not_le.mpr hlt)]
  have hrem : pageRemove m d va = .ok (m₁.setWord t (PTX va) 0) := by
    rw [pageRemove, hlook, ok_bind]
    dsimp only
    rw [hm₁]
    rfl
  have hentries : ∀ v, W (v / 1024) →
      dirPte (m₁.setWord t (PTX va) 0).phys d v = if v = PGNUM va then 0
        else dirPte m.phys d v := by
    intro v hW
    rw [(hacc.toPaging.setPte hva ht₁ 0).2.1 v hW, hphys]
  have hdir : ∀ i, (m₁.setWord t (PTX va) 0).phys d i = m.phys d i := by
    intro i
    rw [(hacc.toPaging.setPte hva ht₁ 0).2.2 i, hphys]
  refine ⟨_, hrem, ⟨⟨?_, h.tables, fun v hV p hn => ?_, fun v hV hP => ?_⟩, hentries, hnp, t,
    ht, hdt, ?_⟩⟩
  · exact (hacc.setPte hva ht₁ 0).congr (update_of_entries h.tables hentries)
  · rw [hentries v (h.tables v hV)] at hn
    split_ifs at hn
    · exact absurd hn (not_names_zero p)
    · exact lt_of_lt_of_eq (h.page v hV p hn) hnp.symm
  · rw [hdir] at hP ⊢
    exact h.flags v hV hP
  · rw [setWord_phys, hphys]

/-- A reference count that is one less, and the others. -/
theorem Removed.ref (h : WellFormed m d W l V x) (hv : PGNUM va ∈ V)
    (hq : Names (dirPte m.phys d (PGNUM va)) q)
    (hr : Removed m d W l V x va q m') : (m'.ref q).toNat + 1 = (m.ref q).toNat ∧ ∀ p, p ≠ q →
    m'.ref p = m.ref p := by
  have hu : ∀ p, mappings (dirPte m'.phys d) V p = mappings
    (update (dirPte m.phys d) (PGNUM va) 0) V p :=
    mappings_congr (update_of_entries h.tables hr.entries)
  have hlose := mappings_lose hv hq (not_names_zero q)
  refine ⟨?_, fun p hp => BitVec.eq_of_toNat_eq ?_⟩
  · rw [hr.well.count, h.count, hu]
    omega
  · rw [hr.well.count, h.count, hu, mappings_same]
    exact ⟨fun hn => absurd (names_unique hn hq) hp, fun hn => absurd hn (not_names_zero p)⟩

/-! ### What is not mapped -/

/-- The page mapped at `va`, if there is one: there is a table, and its entry is present. -/
def mappedAt (m : Mem) (d : ℕ) (va : Word) : Option ℕ := (translate m d va).map PGNUM

theorem mappedAt_eq_some : mappedAt m d va = some q ↔ Names (dirPte m.phys d (PGNUM va)) q := by
  rw [mappedAt, translate_eq_dirPte, Names]
  split_ifs with hP <;> simp [hP]

theorem mappedAt_eq_none : mappedAt m d va = none ↔
    test (dirPte m.phys d (PGNUM va)) PTE_P ≠ true := by
  rw [mappedAt, translate_eq_dirPte]
  split_ifs with hP <;> simp [hP]

/-! ### The kernel's directory -/

/-- After boot, the user's half of `kern_pgdir` is empty. -/
theorem wellFormed_bootMem : ∃ l, WellFormed bootMem 0x300 (fun i => i < NPDENTRIES ∧
    i ≠ PDX UVPT) l (Finset.range NUPAGES)
    (fun p => (bootMem.ref p).toNat) ∧ ∀ p, p ∈ l ↔ p < 16384 ∧ pageInitFree 160 0xf0400000 p := by
  obtain ⟨l, h, hl⟩ := bootMem_booted.paging
  have hmem : ∀ p, p ∈ l ↔ p < 16384 ∧ pageInitFree 160 0xf0400000 p :=
    fun p => (hl p).trans free_bootMem
  have hlow : ∀ v ∈ Finset.range NUPAGES, v / 1024 < NUPDX := by
    intro v hv
    have hv := Finset.mem_range.mp hv
    simp only [NUPAGES, NUPDX] at hv ⊢
    omega
  have hempty : ∀ v ∈ Finset.range NUPAGES, bootMem.phys 0x300 (v / 1024) = 0 := fun v hv =>
    bootMem_booted.user _ (hlow v hv)
  have hnone : ∀ v ∈ Finset.range NUPAGES, dirPte bootMem.phys 0x300 v = 0 := by
    intro v hv
    refine dirPte_of_absent ?_
    rw [hempty v hv]
    decide
  refine ⟨l, ⟨⟨h, fun p hp hpl => ?_, fun p => ?_, by decide, fun i hi t hn => ?_⟩, fun v hv => ?_,
    fun v hv p hn => ?_,
    fun v hv hP => ?_⟩, hmem⟩
  · rw [hmem, not_and] at hpl
    simp only [Mem.link, bootMem]
    split_ifs with hhigh hfree
    · rfl
    · exact absurd hfree (hpl (by omega))
    · rfl
    · rfl
  · have hzero : mappings (dirPte bootMem.phys 0x300) (Finset.range NUPAGES) p = 0 :=
      card_filter_eq_zero fun v hv => by
        rw [hnone v hv]
        exact not_names_zero p
    rw [hzero, zero_add]
  · -- the tables are those of the kernel's half
    have hkern : bootMem.KernTable i := by
      refine ⟨?_, hi.1, hi.2, hn.1⟩
      by_contra hlow
      have huser := bootMem_booted.user i (not_le.mp hlow)
      rw [show bootMem.kernPgdir = 0x300 from rfl] at huser
      rw [huser] at hn
      exact not_names_zero t hn
    have hpage := (bootMem_booted.table i hkern).2
    rw [Mem.kernTable, show bootMem.kernPgdir = 0x300 from rfl, hn.2] at hpage
    rw [Mem.ref, hpage]
    decide
  · have hv := hlow v hv
    simp only [NUPDX] at hv
    exact ⟨by simp only [NPDENTRIES]; omega, by rw [show PDX UVPT = 957 by decide]; omega⟩
  · rw [hnone v hv] at hn
    exact absurd hn (not_names_zero p)
  · rw [hempty v hv] at hP
    exact absurd hP (by decide)

end JOS
