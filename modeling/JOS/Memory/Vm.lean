import JOS.Memory.Footprint
import JOS.General.Count
import Mathlib.Data.Finset.Prod

/-!
# Mapping and unmapping pages

`Vm` is the invariant of the memory code: directories and tables are as `Tables` says,
the allocator as `Pool` says, and `pp_ref` of a page of user data is the number of
entries that map it, as far as sixteen bits can tell. `page_insert` and `page_remove`
keep it and change the one entry they are about; the others, and the contents of user
pages, stay (`Frame`).

`page_remove` frees a page when its sixteen bits reach zero, so it needs to know that no
more than that is left (`hfree`).
-/

namespace JOS

open JOS.General

open Function (update)

/-! ### Counting the entries that map a page -/

/-- The number of entries that map page `p`, of those that `u` gives for each environment and user
page. -/
def mapCount (u : ℕ → ℕ → Word) (p : ℕ) : ℕ :=
  ((Finset.range NENV ×ˢ Finset.range NUPAGES).filter fun x => Names (u x.1 x.2) p).card

/-- The entry for page `v` of environment `e` is replaced. -/
def setAt (u : ℕ → ℕ → Word) (e v : ℕ) (w : Word) (e' v' : ℕ) : Word :=
  if e' = e ∧ v' = v then w else u e' v'

section MapCount

variable {u u' : ℕ → ℕ → Word} {e v p : ℕ} {w : Word}

@[simp] theorem setAt_self : setAt u e v w e v = w := if_pos ⟨rfl, rfl⟩

theorem setAt_of_ne {e' v' : ℕ} (h : ¬ (e' = e ∧ v' = v)) :
    setAt u e v w e' v' = u e' v' := if_neg h

theorem setAt_setAt (w' : Word) : setAt (setAt u e v w) e v w' = setAt u e v w' := by
  funext e' v'
  simp only [setAt]
  split_ifs <;> rfl

theorem mapCount_congr (h : ∀ e v, Names (u' e v) p ↔ Names (u e v) p) :
    mapCount u' p = mapCount u p := by
  rw [mapCount, mapCount]
  simp only [h]

private theorem names_setAt {x : ℕ × ℕ} (hx : x ≠ (e, v)) : Names (u x.1 x.2) p ↔
    Names (setAt u e v w x.1 x.2) p := by
  rw [setAt_of_ne]
  rintro ⟨rfl, rfl⟩
  exact hx rfl

theorem mapCount_gain (he : e < NENV) (hv : v < NUPAGES) (hn : ¬ Names (u e v) p) (hw : Names w p) :
    mapCount (setAt u e v w) p = mapCount u p + 1 := by
  refine card_filter_gain (i := (e, v)) (fun x _ hx => names_setAt hx) ?_ hn (by simpa using hw)
  simp [he, hv]

theorem mapCount_lose (he : e < NENV) (hv : v < NUPAGES) (hn : Names (u e v) p) (hw : ¬ Names w p) :
    mapCount u p = mapCount (setAt u e v w) p + 1 := by
  refine card_filter_lose (i := (e, v)) (fun x _ hx => names_setAt hx) ?_ hn (by simpa using hw)
  simp [he, hv]

theorem mapCount_same (h : Names (u e v) p ↔ Names w p) :
    mapCount (setAt u e v w) p = mapCount u p := by
  refine mapCount_congr fun e' v' => ?_
  by_cases hev : e' = e ∧ v' = v
  · rw [hev.1, hev.2, setAt_self, h]
  · rw [setAt_of_ne hev]

theorem mapCount_pos (he : e < NENV) (hv : v < NUPAGES) (hn : Names (u e v) p) : 0 < mapCount u p :=
  card_filter_pos (i := (e, v)) (by simp [he, hv]) hn

/-- What is mapped once is mapped at one place. -/
theorem mapCount_unique {e' v' : ℕ} (h : mapCount u p = 1) (he : e < NENV) (hv : v < NUPAGES)
    (hn : Names (u e v) p) (he' : e' < NENV)
    (hv' : v' < NUPAGES) (hn' : Names (u e' v') p) : e' = e ∧ v' = v := by
  obtain ⟨x, hx⟩ := Finset.card_eq_one.mp h
  have hmem : ∀ {e v}, e < NENV → v < NUPAGES → Names (u e v) p → (e, v) = x := by
    intro e v he hv hn
    rw [← Finset.mem_singleton, ← hx, Finset.mem_filter, Finset.mem_product, Finset.mem_range,
      Finset.mem_range]
    exact ⟨⟨he, hv⟩, hn⟩
  have heq : (e', v') = (e, v) := (hmem he' hv' hn').trans (hmem he hv hn).symm
  exact ⟨congrArg Prod.fst heq, congrArg Prod.snd heq⟩

theorem mapCount_eq_zero (h : ∀ e v, ¬ Names (u e v) p) : mapCount u p = 0 :=
  card_filter_eq_zero fun x _ => h x.1 x.2

end MapCount

/-- A count of sixteen bits, one up and one down. -/
theorem ofNat_sub_one (n : ℕ) : BitVec.ofNat 16 (n + 1) - 1 = BitVec.ofNat 16 n := by
  rw [BitVec.ofNat_add, BitVec.ofNat_eq_ofNat, BitVec.add_sub_cancel]

theorem ofNat_add_one (n : ℕ) : BitVec.ofNat 16 n + 1 = BitVec.ofNat 16 (n + 1) :=
  (BitVec.ofNat_add n 1).symm

theorem ofNat_eq_zero {n : ℕ} (h : BitVec.ofNat 16 n = 0) : n % 65536 = 0 := by
  have := congrArg BitVec.toNat h
  simpa using this

/-- Taking away the entry for page `v` of environment `e` frees no page that is mapped elsewhere. -/
def Spare (u : ℕ → ℕ → Word) (e v : ℕ) : Prop := ∀ q, Names (u e v) q → mapCount u q % 65536 = 1 →
    mapCount u q = 1

/-- Sixteen bits are enough for every count. -/
def Small (u : ℕ → ℕ → Word) : Prop := ∀ p, mapCount u p < 65536

theorem Small.spare {u : ℕ → ℕ → Word} (h : Small u) (e v : ℕ) : Spare u e v := fun q _ hq => by
  have := h q
  omega

/-- Taking an entry away keeps counts small. -/
theorem Small.clear {u : ℕ → ℕ → Word} (h : Small u)
    (hb : ∀ e v p, Names (u e v) p → e < NENV ∧ v < NUPAGES)
    (e v : ℕ) : Small (setAt u e v 0) := by
  intro p
  by_cases hn : Names (u e v) p
  · obtain ⟨he, hv⟩ := hb e v p hn
    have := mapCount_lose he hv hn (not_names_zero p)
    have := h p
    omega
  · rw [mapCount_same ⟨fun h => absurd h hn, fun h => absurd h (not_names_zero p)⟩]
    exact h p

/-- Writing an entry keeps counts small when there is room for one more reference. -/
theorem Small.set {u : ℕ → ℕ → Word} {p : ℕ} {w : Word} (h : Small u) {e v : ℕ} (he : e < NENV)
    (hv : v < NUPAGES)
    (hw : Names w p) (hroom : mapCount u p < 65535 ∨ Names (u e v) p) : Small (setAt u e v w) := by
  intro q
  by_cases hq : Names w q
  · cases names_unique hw hq
    by_cases hn : Names (u e v) p
    · rw [mapCount_same ⟨fun _ => hw, fun _ => hn⟩]
      exact h p
    · have := mapCount_gain he hv hn hw
      have := hroom.resolve_right hn
      omega
  · by_cases hn : Names (u e v) q
    · have := mapCount_lose he hv hn hq
      have := h q
      omega
    · rw [mapCount_same ⟨fun h => absurd h hn, fun h => absurd h hq⟩]
      exact h q

/-! ### The invariant -/

/-- The invariant of the memory code. -/
structure Vm (m : Mem) (D : ℕ → Option ℕ) (k : ℕ → Kind) : Prop where
  tables : Tables m.kernPgdir m.phys D k
  pool : Pool m k
  /-- `pp_ref` counts the entries that map a page of user data. -/
  count : ∀ p, k p = .data → m.ref p = BitVec.ofNat 16 (mapCount (upte m.phys D) p)

/-- What the memory code leaves alone: the contents of user pages. No page becomes user data, and
none is put aside. -/
structure Frame (m : Mem) (k : ℕ → Kind) (m' : Mem) (k' : ℕ → Kind) : Prop where
  base : SameBase m m'
  phys : ∀ q, k q = .data → m'.phys q = m.phys q
  data : ∀ q, k' q = .data → k q = .data
  aside : ∀ q, (k' q).Aside → (k q).Aside

theorem Frame.refl (m : Mem) (k : ℕ → Kind) : Frame m k m k :=
  ⟨SameBase.refl m, fun _ _ => rfl, fun _ h => h, fun _ h => h⟩

/-- Only one page gets another use, and it is not put aside. -/
theorem aside_update {k : ℕ → Kind} {p q : ℕ} {x : Kind} (hx : ¬ x.Aside)
    (h : (Function.update k p x q).Aside) : (k q).Aside := by
  by_cases hqp : q = p
  · rw [hqp, Function.update_self] at h
    exact absurd h hx
  · rwa [Function.update_of_ne hqp] at h

variable {m m' : Mem} {D : ℕ → Option ℕ} {k : ℕ → Kind} {d e p q t : ℕ} {va perm r : Word}

theorem PGNUM_split (va : Word) : PGNUM va = PDX va * 1024 + PTX va := by
  rw [PDX_eq, PTX_eq]
  omega

theorem Vm.lt_of_data (h : Vm m D k) (hp : k p = .data) : p < 2 ^ 20 :=
  h.pool.lt (by rw [hp]; exact nofun)

/-! ### `pgdir_walk` and `page_lookup` -/

/-- The entry that `pgdir_walk` finds is the one the program sees. -/
theorem Vm.upte_walk (h : Vm m D k) (ht : k t = .table e (PDX va)) :
    upte m.phys D e (PGNUM va) = m.phys t (PTX va) := by
  rw [PGNUM_split]
  exact h.tables.upte_table ht (PTX_lt va)

/-- `pgdir_walk` that does not create. -/
theorem pgdirWalk_false (h : Vm m D k) (hd : D e = some d) (hva : va < UTOP) {o : Option PtePtr}
    (hr : pgdirWalk m d va false = .ok (o, m')) :
    m' = m ∧ (o = none ∧ test (m.phys d (PDX va)) PTE_P ≠ true ∨
      ∃ t, o = some ⟨t, PTX va⟩ ∧ k t = .table e (PDX va)) := by
  by_cases hP : test (m.phys d (PDX va)) PTE_P = true
  · simp only [pgdirWalk, hP, if_true, kaddr] at hr
    split_ifs at hr
    · cases hr
    · cases hr
      refine ⟨rfl, .inr ⟨_, rfl, ?_⟩⟩
      rw [PGNUM_PTE_ADDR]
      exact h.tables.pde e d _ hd (PDX_lt_of_PGNUM ((PGNUM_lt_iff va).mpr hva)) hP
  · simp only [pgdirWalk, hP, if_false, Bool.false_eq_true] at hr
    cases hr
    exact ⟨rfl, .inl ⟨rfl, hP⟩⟩

/-- What `pgdir_walk` leaves when it may create a table: the table is there. -/
structure Walked (m : Mem) (D : ℕ → Option ℕ) (k : ℕ → Kind) (e : ℕ) (va : Word) (t : ℕ) (m' : Mem)
    (k' : ℕ → Kind) :
    Prop where
  vm : Vm m' D k'
  table : k' t = .table e (PDX va)
  entries : ∀ e v, upte m'.phys D e v = upte m.phys D e v
  frame : Frame m k m' k'
  keeps : ∀ q, k q ≠ .free → k' q = k q
  ref : ∀ q, k q = .data → m'.ref q = m.ref q

/-- An empty page becomes a table. -/
theorem Vm.newTable (h : Vm m D k) (hd : D e = some d) (hva : va < UTOP)
    (hP : test (m.phys d (PDX va)) PTE_P ≠ true)
    {m₁ : Mem} (ha : Allocated m k true p m₁) :
    Walked m D k e va p ((m₁.setRef p (m₁.ref p + 1)).setWord d (PDX va)
      (mkPte p (PTE_U ||| PTE_W)))
      (update k p (.table e (PDX va))) := by
  have hpfree : (k p).Loose := by rw [ha.free]; trivial
  have hp20 : p < 2 ^ 20 := h.pool.lt (by rw [ha.free]; exact nofun)
  have hw : Names (mkPte p (PTE_U ||| PTE_W)) p := names_mkPte hp20 (by decide)
  have hno : ∀ e v, ¬ Names (upte m.phys D e v) p := fun e v hn => by
    have := h.tables.data_of_names hn
    rw [ha.free] at this
    cases this
  have hphys : ∀ q, ¬ (k q).Loose → m₁.phys q = m.phys q := by
    intro q hq
    rw [ha.phys, if_pos rfl, Function.update_of_ne]
    rintro rfl
    exact hq hpfree
  have hne : ∀ q, k q = .data → q ≠ p := by
    rintro q hq rfl
    rw [ha.free] at hq
    cases hq
  have hdp : d ≠ p := by
    rintro rfl
    have := (h.tables.dir e d).mp hd
    rw [ha.free] at this
    cases this
  have hzero : ∀ j < 1024, m₁.phys p j = 0 := by
    intro j _
    rw [ha.phys, if_pos rfl, Function.update_self]
  have htables : Tables m.kernPgdir m₁.phys D (update k p .held) :=
    (h.tables.congr hphys).retag hpfree trivial fun _ e v hn =>
      hno e v (by rwa [h.tables.upte_congr hphys] at hn)
  have hheld : update k p .held p = .held := Function.update_self _ _ _
  have hP₁ : test (m₁.phys d (PDX va)) PTE_P ≠ true := by
    rw [hphys d (by rw [(h.tables.dir e d).mp hd]; exact id)]
    exact hP
  have hi : PDX va < NUPDX := PDX_lt_of_PGNUM ((PGNUM_lt_iff va).mpr hva)
  have hkp : update (update k p .held) p (.table e (PDX va)) = update k p (.table e (PDX va)) :=
    Function.update_idem _ _ _
  have hupte : ∀ e' v', upte (setW m₁.phys d (PDX va) (mkPte p (PTE_U ||| PTE_W))) D e' v' =
      upte m.phys D e' v' := by
    intro e' v'
    rw [htables.upte_newTable hheld hzero hd hP₁ hw, h.tables.upte_congr hphys]
  have href : ∀ q, q ≠ p →
      ((m₁.setRef p (m₁.ref p + 1)).setWord d (PDX va) (mkPte p (PTE_U ||| PTE_W))).ref q =
      m.ref q := by
    intro q hq
    rw [setWord_ref, setRef_of_ne hq, ha.ref]
  refine ⟨⟨?_, ?_, fun q hq => ?_⟩, Function.update_self _ _ _, hupte,
    ⟨ha.base.trans ⟨rfl, rfl, rfl, rfl⟩, ?_, ?_, fun q hq => aside_update id hq⟩, ?_, ?_⟩
  · rw [← hkp]
    have := htables.newTable hheld hzero hd hi hP₁ hw
    rwa [← ha.base.kernPgdir] at this
  · rw [← hkp]
    refine (ha.pool.retag (x := .table e (PDX va)) ?_ ?_ ?_ nofun nofun fun _ => ?_).setWord _ _ _
    · rw [hheld]; exact nofun
    · rw [hheld]; exact nofun
    · rw [hheld]; exact nofun
    · rw [ha.ref, h.pool.zero p ha.free]
      decide
  · by_cases hqp : q = p
    · rw [hqp, Function.update_self] at hq
      cases hq
    · rw [Function.update_of_ne hqp] at hq
      rw [href q hqp, h.count q hq, setWord_phys, setRef_phys]
      exact congrArg _ (mapCount_congr fun e v => by rw [hupte]).symm
  · intro q hq
    have hqd : q ≠ d := by
      rintro rfl
      have := (h.tables.dir e q).mp hd
      rw [hq] at this
      cases this
    rw [setWord_phys, setRef_phys, setW_of_ne hqd, ha.phys, if_pos rfl,
      Function.update_of_ne (hne q hq)]
  · intro q hq
    by_cases hqp : q = p
    · rw [hqp, Function.update_self] at hq
      cases hq
    · rwa [Function.update_of_ne hqp] at hq
  · intro q hq
    rw [Function.update_of_ne]
    rintro rfl
    exact hq ha.free
  · exact fun q hq => href q (hne q hq)

/-- `pgdir_walk` that may create. -/
theorem pgdirWalk_true (h : Vm m D k) (hd : D e = some d) (hva : va < UTOP) {o : Option PtePtr}
    (hr : pgdirWalk m d va true = .ok (o, m')) :
    o = none ∧ m' = m ∨ ∃ t k', o = some ⟨t, PTX va⟩ ∧ Walked m D k e va t m' k' := by
  by_cases hP : test (m.phys d (PDX va)) PTE_P = true
  · simp only [pgdirWalk, hP, if_true, kaddr] at hr
    split_ifs at hr
    · cases hr
    · cases hr
      refine .inr ⟨_, k, rfl, h, ?_, fun _ _ => rfl, Frame.refl _ _, fun _ _ => rfl, fun _ _ => rfl⟩
      rw [PGNUM_PTE_ADDR]
      exact h.tables.pde e d _ hd (PDX_lt_of_PGNUM ((PGNUM_lt_iff va).mpr hva)) hP
  · simp only [pgdirWalk, hP, if_false, Bool.false_eq_true, if_true] at hr
    obtain ⟨⟨o₁, m₁⟩, halloc, hr₁⟩ := bind_eq_ok.mp hr
    rcases pageAlloc_spec h.pool halloc with ⟨rfl, rfl, -⟩ | ⟨p, rfl, ha⟩
    · cases hr₁
      exact .inl ⟨rfl, rfl⟩
    · obtain ⟨pt, hk, hr₂⟩ := bind_eq_ok.mp hr₁
      have hp20 : p < 2 ^ 20 := h.pool.lt (by rw [ha.free]; simp)
      have hpde : page2pa p ||| PTE_U ||| PTE_W ||| PTE_P = mkPte p (PTE_U ||| PTE_W) := by
        rw [mkPte, BitVec.or_assoc (page2pa p)]
      rw [kaddr, PGNUM_PTE_ADDR] at hk
      split_ifs at hk
      cases hk
      cases hr₂
      refine .inr ⟨p, _, ?_, hpde ▸ h.newTable hd hva hP ha⟩
      simp only [setWord_phys, setW_self, hpde,
        PGNUM_mkPte hp20 (show IsFlags (PTE_U ||| PTE_W) by decide)]

/-- `page_lookup` gives the page an entry names, whether it is present or not. -/
theorem pageLookup_spec (h : Vm m D k) (hd : D e = some d) (hva : va < UTOP)
    {o : Option (ℕ × PtePtr)}
    (hr : pageLookup m d va = .ok o) : o = none ∧ test (m.phys d (PDX va)) PTE_P ≠ true ∨
      ∃ t, k t = .table e (PDX va) ∧
          o = some (PGNUM (upte m.phys D e (PGNUM va)), ⟨t, PTX va⟩) := by
  obtain ⟨⟨o₁, m₁⟩, hwalk, hr⟩ := bind_eq_ok.mp hr
  obtain ⟨rfl, ⟨rfl, hP⟩ | ⟨t, rfl, ht⟩⟩ := pgdirWalk_false h hd hva hwalk
  · cases hr
    exact .inl ⟨rfl, hP⟩
  · obtain ⟨pp, hpp, hr⟩ := bind_eq_ok.mp hr
    rw [pa2page, PGNUM_PTE_ADDR] at hpp
    split_ifs at hpp
    cases hpp
    cases hr
    refine .inr ⟨t, ht, ?_⟩
    rw [h.upte_walk ht]
    rfl

/-! ### `page_remove` -/

/-- `page_decref` of a page of user data from which an entry has just been taken. -/
theorem pageDecref_data (ht : Tables m.kernPgdir m.phys D k) (hpool : Pool m k) (hq : k q = .data)
    (hcount : ∀ p, k p = .data → p ≠ q → m.ref p = BitVec.ofNat 16 (mapCount (upte m.phys D) p))
    (hcountq : m.ref q = BitVec.ofNat 16 (mapCount (upte m.phys D) q + 1))
    (hfree : mapCount (upte m.phys D) q % 65536 = 0 → mapCount (upte m.phys D) q = 0)
    (hr : pageDecref m q = .ok m') :
    ∃ k', Vm m' D k' ∧ m'.phys = m.phys ∧ SameBase m m' ∧ (∀ p, p ≠ q → k' p = k p) ∧ (k' q).Loose ∧
        ¬ (k' q).Aside := by
  rw [pageDecref] at hr
  have href : m.ref q - 1 = BitVec.ofNat 16 (mapCount (upte m.phys D) q) := by
    rw [hcountq, ofNat_sub_one]
  have hpool₁ : Pool (m.setRef q (m.ref q - 1)) k := hpool.setRef hq
  have hcount₁ : ∀ p, k p = .data →
      (m.setRef q (m.ref q - 1)).ref p = BitVec.ofNat 16 (mapCount (upte m.phys D) p) := by
    intro p hp
    by_cases hpq : p = q
    · rw [hpq, setRef_self, href]
    · rw [setRef_of_ne hpq]
      exact hcount p hp hpq
  split_ifs at hr with hz
  · -- the last reference
    have hz : (m.setRef q (m.ref q - 1)).ref q = 0 := hz
    rw [setRef_self, href] at hz
    have hzero := hfree (ofNat_eq_zero hz)
    have hf := pageFree_spec hpool₁ (.inr hq) hr
    have hno : ∀ e v, ¬ Names (upte m.phys D e v) q := by
      intro e v hn
      obtain ⟨he, hv⟩ := ht.lt_of_names hn
      exact absurd hzero (Nat.pos_iff_ne_zero.mp (mapCount_pos he hv hn))
    have hphys : m'.phys = m.phys := hf.phys
    refine ⟨update k q .free, ⟨?_, hf.pool, fun p hp => ?_⟩, hphys,
      ⟨hf.base.1, hf.base.2, hf.base.3, hf.base.4⟩, fun p hpq => Function.update_of_ne hpq _ _, by
        rw [Function.update_self]; trivial,
      by rw [Function.update_self]; exact id⟩
    · rw [hphys, hf.base.kernPgdir]
      exact ht.retag (by rw [hq]; trivial) trivial fun _ => hno
    · by_cases hpq : p = q
      · rw [hpq, Function.update_self] at hp
        cases hp
      · rw [Function.update_of_ne hpq] at hp
        rw [hphys, hf.ref]
        exact hcount₁ p hp
  · cases hr
    exact ⟨k, ⟨ht, hpool₁, hcount₁⟩, rfl, ⟨rfl, rfl, rfl, rfl⟩, fun _ _ =>
      rfl, by rw [hq]; trivial, by rw [hq]; exact id⟩

/-- What `page_insert` and `page_remove` do: the entry for `va` becomes `w`. -/
structure Mapped (m : Mem) (D : ℕ → Option ℕ) (k : ℕ → Kind) (e : ℕ) (va w : Word) (m' : Mem)
    (k' : ℕ → Kind) :
    Prop where
  vm : Vm m' D k'
  entries : upte m'.phys D = setAt (upte m.phys D) e (PGNUM va) w
  frame : Frame m k m' k'
  /-- Only the page that was mapped there may have been freed. -/
  kept : ∀ p, k p ≠ .free → ¬ Names (upte m.phys D e (PGNUM va)) p → k' p = k p

/-- `page_remove` of a page that is mapped. -/
theorem pageRemove_spec (h : Vm m D k) (hd : D e = some d) (hva : va < UTOP)
    (hq : Names (upte m.phys D e (PGNUM va)) q)
    (hfree : mapCount (upte m.phys D) q % 65536 = 1 → mapCount (upte m.phys D) q = 1)
    (hr : pageRemove m d va = .ok m') :
    ∃ k', Mapped m D k e va 0 m' k' ∧ (∀ p, p ≠ q → k' p = k p) ∧ (k' q).Loose ∧
      ∀ p, k p ≠ .table e (PDX va) → m'.phys p = m.phys p := by
  obtain ⟨o, hlook, hr⟩ := bind_eq_ok.mp hr
  rcases pageLookup_spec h hd hva hlook with ⟨rfl, hP⟩ | ⟨t, ht, rfl⟩
  · -- there is a table, since the entry is present
    obtain ⟨-, d', t, hd', hn, -⟩ := h.tables.of_present hq.1
    rw [hd] at hd'
    cases hd'
    rw [PGNUM_split, table_div (PTX_lt va)] at hn
    exact absurd hn.1 hP
  · rw [hq.2] at hr
    obtain ⟨m₁, hdec, hr⟩ := bind_eq_ok.mp hr
    cases hr
    have hkq : k q = .data := h.tables.data_of_names hq
    have hupte : upte (setW m.phys t (PTX va) 0) D = setAt (upte m.phys D) e (PGNUM va) 0 := by
      funext e' v'
      rw [h.tables.upte_setPte ht (PTX_lt va), PGNUM_split]
      rfl
    have htables : Tables m.kernPgdir (setW m.phys t (PTX va) 0) D k :=
      h.tables.setPte ht fun hP => by rw [test_zero] at hP; cases hP
    obtain ⟨he, hv⟩ := h.tables.lt_of_names hq
    have hlose := mapCount_lose he hv hq (not_names_zero q)
    rw [← hupte] at hlose
    have hothers : ∀ p, k p = .data → p ≠ q → (m.setWord t (PTX va) 0).ref p =
        BitVec.ofNat 16 (mapCount (upte (m.setWord t (PTX va) 0).phys D) p) := by
      intro p hp hpq
      rw [setWord_ref, h.count p hp, setWord_phys, hupte, mapCount_same]
      exact ⟨fun hn => absurd (names_unique hn hq) hpq, fun hn => absurd hn (not_names_zero p)⟩
    have hself : (m.setWord t (PTX va) 0).ref q =
        BitVec.ofNat 16 (mapCount (upte (m.setWord t (PTX va) 0).phys D) q + 1) := by
      rw [setWord_ref, h.count q hkq, hlose]
      rfl
    have hlast : mapCount (upte (m.setWord t (PTX va) 0).phys D) q % 65536 = 0 →
        mapCount (upte (m.setWord t (PTX va) 0).phys D) q = 0 := by
      intro hz
      rw [setWord_phys] at hz ⊢
      have := hfree (by omega)
      omega
    obtain ⟨k', hvm, hphys, hbase, hkeeps, hloose, haside⟩ :=
      pageDecref_data (m := m.setWord t (PTX va) 0) htables
      (h.pool.setWord _ _ _) hkq hothers hself hlast (pageDecref_setWord t (PTX va) 0 hdec)
    refine ⟨k', ⟨hvm, by rw [hphys]; exact hupte, ⟨⟨hbase.1, hbase.2, hbase.3, hbase.4⟩,
      fun p hp => ?_,
      fun p hp => ?_, fun p hp => ?_⟩, fun p _ hp => hkeeps p ?_⟩, hkeeps, hloose, fun p hp => ?_⟩
    · rw [hphys, setWord_phys, setW_of_ne]
      rintro rfl
      rw [ht] at hp
      cases hp
    · by_cases hpq : p = q
      · rw [hpq]; exact hkq
      · rwa [hkeeps p hpq] at hp
    · by_cases hpq : p = q
      · rw [hpq] at hp
        exact absurd hp haside
      · rwa [hkeeps p hpq] at hp
    · rintro rfl
      exact hp hq
    · rw [hphys, setWord_phys, setW_of_ne]
      rintro rfl
      exact hp ht

/-! ### `page_insert` -/

/-- The end of `page_insert`: the entry is written and counted. `refs` are the references but for
this entry. -/
theorem Tables.insert (htables : Tables m.kernPgdir m.phys D k) (hpool : Pool m k)
    (hd : D e = some d)
    (hva : va < UTOP) (ht : k t = .table e (PDX va)) (hp : k p = .data) (hf : IsFlags perm)
    (hcount : ∀ q, k q = .data →
    m.ref q = BitVec.ofNat 16 (mapCount (setAt (upte m.phys D) e (PGNUM va) 0) q))
    (hm' : ((m.setWord t (PTX va) (mkPte p perm)).setRef p (m.ref p + 1)).setWord d (PDX va)
      (m.phys d (PDX va) ||| perm) = m') :
    Mapped m D k e va (mkPte p perm) m' k ∧ ∀ q, (k q).Loose → m'.phys q = m.phys q := by
  have hp20 : p < 2 ^ 20 := hpool.lt (by rw [hp]; exact nofun)
  have hw : Names (mkPte p perm) p := names_mkPte hp20 hf
  have hdt : d ≠ t := by
    rintro rfl
    have := ((htables.dir e d).mp hd).symm.trans ht
    cases this
  obtain ⟨hi, d', hd', hn⟩ := htables.table t e _ ht
  rw [hd] at hd'
  cases hd'
  -- the entry
  have htables₁ : Tables m.kernPgdir (setW m.phys t (PTX va) (mkPte p perm)) D k :=
    htables.setPte ht fun _ => by rw [hw.2]; exact hp
  have hupte₁ : upte (setW m.phys t (PTX va) (mkPte p perm)) D = setAt (upte m.phys D) e (PGNUM va)
      (mkPte p perm) := by
    funext e' v'
    rw [htables.upte_setPte ht (PTX_lt va), PGNUM_split]
    rfl
  -- the directory
  have hpde : setW m.phys t (PTX va) (mkPte p perm) d (PDX va) = m.phys d (PDX va) := by
    rw [setW_of_ne hdt]
  have hor : Names (m.phys d (PDX va) ||| perm)
      (PGNUM (setW m.phys t (PTX va) (mkPte p perm) d (PDX va))) := by
    rw [hpde]
    exact ⟨by rw [test_or, hn.1, Bool.true_or], PGNUM_or hf⟩
  have hP₁ : test (setW m.phys t (PTX va) (mkPte p perm) d (PDX va)) PTE_P = true := by
    rw [hpde]; exact hn.1
  have hphys : m'.phys = setW (setW m.phys t (PTX va) (mkPte p perm)) d (PDX va)
      (m.phys d (PDX va) ||| perm) := by
    rw [← hm']
    rfl
  have hupte : upte m'.phys D = setAt (upte m.phys D) e (PGNUM va) (mkPte p perm) := by
    rw [hphys, ← hupte₁]
    funext e' v'
    exact htables₁.upte_orPde hd hP₁ hor e' v'
  have he : e < NENV := htables.bound e (by rw [hd]; exact Option.some_ne_none d)
  have hbase : SameBase m m' := by rw [← hm']; exact ⟨rfl, rfl, rfl, rfl⟩
  have hloose : ∀ q, (k q).Loose → m'.phys q = m.phys q := by
    intro q hq
    rw [hphys, setW_of_ne, setW_of_ne]
    · rintro rfl
      rw [ht] at hq
      exact hq
    · rintro rfl
      rw [(htables.dir e q).mp hd] at hq
      exact hq
  refine ⟨⟨⟨?_, ?_, fun q hq => ?_⟩, hupte, ⟨hbase, fun q hq => hloose q (by rw [hq]; trivial),
    fun _ hq => hq, fun _ hq => hq⟩,
    fun _ _ _ => rfl⟩, hloose⟩
  · rw [hphys, hbase.kernPgdir]
    exact htables₁.orPde hd hP₁ hor
  · rw [← hm']
    exact ((hpool.setWord _ _ _).setRef hp).setWord _ _ _
  · rw [hupte]
    by_cases hqp : q = p
    · have hgain := mapCount_gain (u := setAt (upte m.phys D) e (PGNUM va) 0) he
        ((PGNUM_lt_iff va).mpr hva)
        (by rw [setAt_self]; exact not_names_zero p) hw
      rw [setAt_setAt] at hgain
      rw [hqp, hgain, ← ofNat_add_one, ← hcount p hp, ← hm', setWord_ref, setRef_self]
    · have hsame : mapCount (setAt (setAt (upte m.phys D) e (PGNUM va) 0) e (PGNUM va)
          (mkPte p perm)) q =
          mapCount (setAt (upte m.phys D) e (PGNUM va) 0) q := by
        refine mapCount_same ?_
        rw [setAt_self]
        exact ⟨fun hn => absurd hn (not_names_zero q), fun hn => absurd (names_unique hn hw) hqp⟩
      rw [setAt_setAt] at hsame
      rw [hsame, ← hcount q hq, ← hm', setWord_ref, setRef_of_ne hqp, setWord_ref]

/-- `page_insert` of a page of user data: no memory for a table, or the entry is written. -/
theorem pageInsert_spec (h : Vm m D k) (hd : D e = some d) (hva : va < UTOP) (hp : k p = .data)
    (hf : IsFlags perm)
    (hfree : ∀ q, Names (upte m.phys D e (PGNUM va)) q → q ≠ p →
    mapCount (upte m.phys D) q % 65536 = 1 →
      mapCount (upte m.phys D) q = 1)
    (hr : pageInsert m d p va perm = .ok (r, m')) :
    r = -E_NO_MEM ∧ m' = m ∨ r = 0 ∧ ∃ k', Mapped m D k e va (mkPte p perm) m' k' := by
  rcases pageInsert_eq_ok hr with ⟨rfl, hwalk⟩ | ⟨rfl, pte, m₁, m₂, hwalk, hm₂, rfl⟩
  · rcases pgdirWalk_true h hd hva hwalk with ⟨-, hm⟩ | ⟨t, k₁, ht, -⟩
    · exact .inl ⟨rfl, hm⟩
    · cases ht
  refine .inr ⟨rfl, ?_⟩
  rcases pgdirWalk_true h hd hva hwalk with ⟨ho, -⟩ | ⟨t, k₁, ht, hw⟩
  · cases ho
  cases ht
  rw [pageInsertOld] at hm₂
  have hupte₁ : upte m₁.phys D = upte m.phys D := funext fun e => funext fun v => hw.entries e v
  have hentry : m₁.word ⟨t, PTX va⟩ = upte m.phys D e (PGNUM va) := by
    rw [← hupte₁]
    exact (hw.vm.upte_walk hw.table).symm
  have hdata : ∀ q, k q = .data → k₁ q = .data := fun q hq => by
    rw [hw.keeps q (by rw [hq]; exact nofun), hq]
  have hp₁ : k₁ p = .data := hdata p hp
  have hp20 : p < 2 ^ 20 := h.lt_of_data hp
  -- from a state in which the old entry is not counted any more
  have hfinish : ∀ k₂, Tables m₂.kernPgdir m₂.phys D k₂ → Pool m₂ k₂ → Frame m₁ k₁ m₂ k₂ →
      k₂ p = .data →
      (∀ q, ¬ Names (upte m.phys D e (PGNUM va)) q → k₂ q = k₁ q) →
      (∀ q, (k₁ q).Loose → (k₂ q).Loose) →
      (setAt (upte m₂.phys D) e (PGNUM va) 0 = setAt (upte m.phys D) e (PGNUM va) 0) →
      (∀ q, k₂ q = .data → m₂.ref q = BitVec.ofNat 16
        (mapCount (setAt (upte m₂.phys D) e (PGNUM va) 0) q)) →
      ∃ k', Mapped m D k e va (mkPte p perm) (pageInsertNew m₂ d p va perm ⟨t, PTX va⟩) k' := by
    intro k₂ htables hpool hframe hp₂ hkept hloose hat hcount
    have ht₂ : k₂ t = .table e (PDX va) := by
      rw [hkept t fun hn => ?_, hw.table]
      rw [← hupte₁] at hn
      have := hw.table.symm.trans (hw.vm.tables.data_of_names hn)
      cases this
    have hdt : d ≠ t := by
      rintro rfl
      have := ((htables.dir e d).mp hd).symm.trans ht₂
      cases this
    obtain ⟨hm, hphys⟩ := htables.insert hpool hd hva ht₂ hp₂ hf hcount rfl
    rw [pageInsertNew, setWord_phys, setW_of_ne hdt]
    refine ⟨k₂, hm.vm, ?_, ⟨?_, fun q hq => ?_, fun q hq => ?_, fun q hq => ?_⟩,
      fun q hne hq => by rw [hkept q hq, hw.keeps q hne]⟩
    · have hset := congrArg (fun u => setAt u e (PGNUM va) (mkPte p perm)) hat
      simp only [setAt_setAt] at hset
      rw [hm.entries, hset]
    · exact hw.frame.base.trans (hframe.base.trans hm.frame.base)
    · rw [hphys q (hloose q (by rw [hdata q hq]; trivial)), hframe.phys q (hdata q hq),
        hw.frame.phys q hq]
    · exact hw.frame.data q (hframe.data q hq)
    · exact hw.frame.aside q (hframe.aside q hq)
  rw [hentry] at hm₂
  split_ifs at hm₂ with hP hsame
  · -- the same page again
    rw [PTE_ADDR_eq_iff hp20] at hsame
    cases hm₂
    have hn : Names (upte m.phys D e (PGNUM va)) p := ⟨hP, hsame⟩
    obtain ⟨he, hv⟩ := h.tables.lt_of_names hn
    refine hfinish k₁ hw.vm.tables (hw.vm.pool.setRef hp₁) ⟨⟨rfl, rfl, rfl, rfl⟩, fun _ _ => rfl,
      fun _ h => h, fun _ h => h⟩ hp₁
      (fun _ _ => rfl) (fun _ h => h) (by rw [setRef_phys, hupte₁]) fun q hq => ?_
    rw [setRef_phys, hupte₁]
    have hlose := mapCount_lose he hv hn (not_names_zero p)
    by_cases hqp : q = p
    · subst hqp
      rw [setRef_self, show (m₁.pages q).ppRef = m₁.ref q from rfl, hw.vm.count q hp₁,
        hupte₁, hlose]
      exact ofNat_sub_one _
    · rw [setRef_of_ne hqp, hw.vm.count q hq, hupte₁, mapCount_same]
      exact ⟨fun h => absurd (names_unique h hn) hqp, fun h => absurd h (not_names_zero q)⟩
  · -- another page was mapped there
    rw [PTE_ADDR_eq_iff hp20] at hsame
    have hn : Names (upte m₁.phys D e (PGNUM va)) (PGNUM (upte m.phys D e (PGNUM va))) := by
      rw [hupte₁]
      exact ⟨hP, rfl⟩
    obtain ⟨k₂, hrem, hkeeps, hloose, -⟩ := pageRemove_spec hw.vm hd hva hn
      (by rw [hupte₁]; exact hfree _ ⟨hP, rfl⟩ hsame) hm₂
    refine hfinish k₂ hrem.vm.tables hrem.vm.pool hrem.frame (by rw [hkeeps p (Ne.symm hsame), hp₁])
      (fun q hq => hkeeps q ?_) (fun q hq => ?_) (by rw [hrem.entries, setAt_setAt, hupte₁])
        fun q hq => ?_
    · rintro rfl
      exact hq ⟨hP, rfl⟩
    · by_cases hqq : q = PGNUM (upte m.phys D e (PGNUM va))
      · rw [hqq]; exact hloose
      · rwa [hkeeps q hqq]
    · rw [hrem.vm.count q hq, hrem.entries, setAt_setAt]
  · -- nothing was mapped there
    cases hm₂
    refine hfinish k₁ hw.vm.tables hw.vm.pool (Frame.refl _ _) hp₁ (fun _ _ => rfl) (fun _ h => h)
      (by rw [hupte₁])
      fun q hq => ?_
    rw [hw.vm.count q hq, hupte₁, mapCount_same]
    exact ⟨fun hn => absurd hn.1 hP, fun hn => absurd hn (not_names_zero q)⟩

end JOS
