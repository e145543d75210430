import JOS.Memory.Pool

/-!
# Which words the memory code writes

`page_free` and `page_decref` write no page. `page_remove` clears one entry of one table
(`pageRemove_phys`). `page_insert` writes the directory entry of its address, the page
that becomes a new table, and one entry of the table (`pageInsert_phys`). Nothing is
assumed here: what a table is, is what the directory entry names at that moment.

An entry that `page_insert` writes is the one the hardware finds afterwards
(`translate_pageInsert`), unless the directory is its own table.
-/

namespace JOS

open JOS.General

open Function (update)

variable {m m' m₁ : Mem} {d p pp q i : ℕ} {va perm r : Word} {o : Option PtePtr} {z : Bool}

theorem pageFree_phys (h : pageFree m p = .ok m') : m'.phys = m.phys := by
  rw [pageFree] at h
  split_ifs at h
  cases h
  rfl

theorem pageDecref_phys (h : pageDecref m p = .ok m') : m'.phys = m.phys := by
  rw [pageDecref] at h
  split_ifs at h
  · exact (pageFree_phys h).trans (setRef_phys _ _ _)
  · cases h
    rfl

/-- `pgdir_walk` that does not create looks only. -/
theorem pgdirWalk_look (h : pgdirWalk m d va false = .ok (o, m')) : m' = m ∧
    (o = none ∧ test (m.phys d (PDX va)) PTE_P ≠ true ∨
      o = some ⟨PGNUM (m.phys d (PDX va)), PTX va⟩ ∧ test (m.phys d (PDX va)) PTE_P = true) := by
  by_cases hP : test (m.phys d (PDX va)) PTE_P = true
  · simp only [pgdirWalk, hP, if_true, kaddr, PGNUM_PTE_ADDR] at h
    split_ifs at h
    · cases h
    · cases h
      exact ⟨rfl, .inr ⟨rfl, hP⟩⟩
  · simp only [pgdirWalk, hP, if_false, Bool.false_eq_true] at h
    cases h
    exact ⟨rfl, .inl ⟨rfl, hP⟩⟩

/-- `page_lookup` finds the entry of the table that the directory entry names. -/
theorem pageLookup_look {x : Option (ℕ × PtePtr)} (h : pageLookup m d va = .ok x) :
    x = none ∧ test (m.phys d (PDX va)) PTE_P ≠ true ∨
      x = some (PGNUM (m.phys (PGNUM (m.phys d (PDX va))) (PTX va)),
        ⟨PGNUM (m.phys d (PDX va)), PTX va⟩) ∧
        test (m.phys d (PDX va)) PTE_P = true := by
  obtain ⟨⟨o, m'⟩, hwalk, h⟩ := bind_eq_ok.mp h
  obtain ⟨rfl, ⟨rfl, hP⟩ | ⟨rfl, hP⟩⟩ := pgdirWalk_look hwalk
  · cases h
    exact .inl ⟨rfl, hP⟩
  · obtain ⟨pp, hpp, h⟩ := bind_eq_ok.mp h
    rw [pa2page] at hpp
    split_ifs at hpp
    cases hpp
    cases h
    rw [PGNUM_PTE_ADDR]
    exact .inr ⟨rfl, hP⟩

/-- `page_decref` does not look at what is in memory. -/
theorem pageDecref_setWord (t j : ℕ) (w : Word) (hr : pageDecref m q = .ok m') :
    pageDecref (m.setWord t j w) q = .ok (m'.setWord t j w) := by
  simp only [pageDecref, pageFree] at hr ⊢
  have hpages : ((m.setWord t j w).setRef q (((m.setWord t j w).pages q).ppRef - 1)).pages =
    (m.setRef q ((m.pages q).ppRef - 1)).pages := rfl
  rw [hpages]
  split_ifs at hr ⊢ <;> cases hr <;> rfl

/-- `page_remove` clears the entry, and drops the reference of the page that it names. -/
theorem pageRemove_eq_ok (h : pageRemove m d va = .ok m') :
    test (m.phys d (PDX va)) PTE_P ≠ true ∧ m' = m ∨ test (m.phys d (PDX va)) PTE_P = true ∧
      pageDecref (m.setWord (PGNUM (m.phys d (PDX va))) (PTX va) 0)
        (PGNUM (m.phys (PGNUM (m.phys d (PDX va))) (PTX va))) = .ok m' := by
  obtain ⟨x, hlook, h⟩ := bind_eq_ok.mp h
  rcases pageLookup_look hlook with ⟨rfl, hP⟩ | ⟨rfl, hP⟩
  · cases h
    exact .inl ⟨hP, rfl⟩
  · obtain ⟨m₁, hdec, h⟩ := bind_eq_ok.mp h
    cases h
    exact .inr ⟨hP, pageDecref_setWord _ _ _ hdec⟩

/-- The words after `page_remove`. -/
theorem pageRemove_phys (h : pageRemove m d va = .ok m') :
    m'.phys = m.phys ∧ test (m.phys d (PDX va)) PTE_P ≠ true ∨
      m'.phys = setW m.phys (PGNUM (m.phys d (PDX va))) (PTX va) 0 ∧
          test (m.phys d (PDX va)) PTE_P = true := by
  rcases pageRemove_eq_ok h with ⟨hP, rfl⟩ | ⟨hP, hdec⟩
  · exact .inl ⟨rfl, hP⟩
  · rw [pageDecref_phys hdec, setWord_phys]
    exact .inr ⟨rfl, hP⟩

/-- `page_alloc` clears the first free page, if it is to. -/
theorem pageAlloc_phys {x : Option ℕ} (h : pageAlloc m z = .ok (x, m')) : x = none ∧ m' = m ∨
    ∃ p, m.pageFreeList = some p ∧ x = some p ∧ (z = true → PGNUM (page2pa p) < m.npages) ∧
      m'.phys = if z then update m.phys (PGNUM (page2pa p)) fun _ => 0 else m.phys := by
  cases hfl : m.pageFreeList with
  | none =>
    simp only [pageAlloc, hfl] at h
    cases h
    exact .inl ⟨rfl, rfl⟩
  | some p =>
    rw [pageAlloc_of_some hfl] at h
    refine .inr ⟨p, rfl, ?_⟩
    by_cases hz : z = true
    · rw [if_pos hz, kaddr] at h
      split_ifs at h with hlt
      · cases h
      · cases h
        exact ⟨rfl, fun _ => not_le.mp hlt, by rw [if_pos hz]; rfl⟩
    · rw [if_neg hz] at h
      cases h
      exact ⟨rfl, fun hz' => absurd hz' hz, by rw [if_neg hz]; rfl⟩

/-- The table of `va` after `pgdir_walk` with `create`: `t`, which the entry of the directory
names. -/
structure TableAt (m : Mem) (d : ℕ) (va : Word) (t : ℕ) (m' : Mem) : Prop where
  /-- The directory entry. -/
  pde : test (m'.phys d (PDX va)) PTE_P = true ∧ PGNUM (m'.phys d (PDX va)) = t
  /-- It was there, or the first free page has become an empty table. -/
  words : m' = m ∧ test (m.phys d (PDX va)) PTE_P = true ∨
    test (m.phys d (PDX va)) PTE_P ≠ true ∧ ∃ p w, m.pageFreeList = some p ∧ t = PGNUM (page2pa p) ∧
      m'.phys = setW (update m.phys t fun _ => 0) d (PDX va) w

theorem isFlags_table : IsFlags PTE_U ∧ IsFlags PTE_W ∧ IsFlags PTE_P := by decide

theorem pgdirWalk_create (h : pgdirWalk m d va true = .ok (o, m')) :
    o = none ∧ m' = m ∨ ∃ t, o = some ⟨t, PTX va⟩ ∧ TableAt m d va t m' := by
  by_cases hP : test (m.phys d (PDX va)) PTE_P = true
  · simp only [pgdirWalk, hP, if_true, kaddr, PGNUM_PTE_ADDR] at h
    split_ifs at h
    · cases h
    · cases h
      exact .inr ⟨_, rfl, ⟨hP, rfl⟩, .inl ⟨rfl, hP⟩⟩
  · simp only [pgdirWalk, hP, if_false, if_true, Bool.false_eq_true] at h
    obtain ⟨⟨x, m₁⟩, halloc, h₁⟩ := bind_eq_ok.mp h
    rcases pageAlloc_phys halloc with ⟨rfl, hm⟩ | ⟨p, hfl, rfl, -, hphys⟩
    · cases h₁
      exact .inl ⟨rfl, hm⟩
    · obtain ⟨pt, hpt, h₂⟩ := bind_eq_ok.mp h₁
      cases h₂
      rw [if_pos rfl] at hphys
      obtain ⟨hU, hW, hPf⟩ := isFlags_table
      have hpde : PGNUM (page2pa p ||| PTE_U ||| PTE_W ||| PTE_P) = PGNUM (page2pa p) := by
        rw [PGNUM_or hPf, PGNUM_or hW, PGNUM_or hU]
      rw [kaddr] at hpt
      split_ifs at hpt
      cases hpt
      simp only [PGNUM_PTE_ADDR, setWord_phys, setRef_phys, setW_self, hpde]
      refine .inr ⟨_, rfl, ⟨?_, ?_⟩, .inr ⟨hP, p, page2pa p ||| PTE_U ||| PTE_W ||| PTE_P,
        hfl, rfl, ?_⟩⟩
      · simp only [setWord_phys, setW_self, test_or]
        simp [test, PTE_P]
      · simp only [setWord_phys, setW_self, hpde]
      · simp only [setWord_phys, setRef_phys, hphys]

/-- The words after `page_insert`: the directory entry, the entry of the table, and the page that
has become a table. -/
structure Inserted (m : Mem) (d pp : ℕ) (va perm : Word) (t : ℕ) (m₁ m' : Mem) : Prop where
  walked : TableAt m d va t m₁
  /-- The entry is written, and the directory entry gets the permissions. -/
  words : m'.phys = setW (setW m₁.phys t (PTX va) (mkPte pp perm)) d (PDX va)
    (setW m₁.phys t (PTX va) (mkPte pp perm) d (PDX va) ||| perm)

theorem setW_setW {phys : ℕ → ℕ → Word} {t j : ℕ} {w w' : Word} :
    setW (setW phys t j w) t j w' = setW phys t j w' := by
  funext q x
  by_cases hq : q = t
  · subst hq
    by_cases hx : x = j
    · subst hx
      rw [setW_self, setW_self]
    · rw [setW_of_ne_index hx, setW_of_ne_index hx, setW_of_ne_index hx]
  · rw [setW_of_ne hq, setW_of_ne hq, setW_of_ne hq]

/-- What `page_insert` does about the entry `pte` it is going to overwrite. -/
def pageInsertOld (m : Mem) (d pp : ℕ) (va : Word) (pte : PtePtr) : Except Stop Mem :=
  if test (m.word pte) PTE_P then
    if PTE_ADDR (m.word pte) = page2pa pp then .ok (m.setRef pp ((m.pages pp).ppRef - 1))
      else pageRemove m d va
  else .ok m

/-- The end of `page_insert`. -/
def pageInsertNew (m : Mem) (d pp : ℕ) (va perm : Word) (pte : PtePtr) : Mem :=
  ((m.setWord pte.table pte.index (mkPte pp perm)).setRef pp (m.ref pp + 1)).setWord d (PDX va)
    ((m.setWord pte.table pte.index (mkPte pp perm)).phys d (PDX va) ||| perm)

/-- `page_insert` in three parts. -/
theorem pageInsert_eq_ok (h : pageInsert m d pp va perm = .ok (r, m')) :
    r = -E_NO_MEM ∧ pgdirWalk m d va true = .ok (none, m') ∨ r = 0 ∧ ∃ pte m₁ m₂,
      pgdirWalk m d va true = .ok (some pte, m₁) ∧ pageInsertOld m₁ d pp va pte = .ok m₂ ∧
      m' = pageInsertNew m₂ d pp va perm pte := by
  obtain ⟨⟨o, m₁⟩, hwalk, h₁⟩ := bind_eq_ok.mp h
  cases o with
  | none =>
    cases h₁
    exact .inl ⟨rfl, hwalk⟩
  | some pte =>
    dsimp only at h₁
    refine .inr ?_
    unfold pageInsertOld
    split_ifs at h₁ ⊢ with hP hsame
    · cases h₁
      exact ⟨rfl, pte, m₁, _, hwalk, by rw [if_pos hP, if_pos hsame], rfl⟩
    · obtain ⟨m₂, hrem, h₂⟩ := bind_eq_ok.mp h₁
      cases h₂
      exact ⟨rfl, pte, m₁, m₂, hwalk, by rw [if_pos hP, if_neg hsame, hrem], rfl⟩
    · cases h₁
      exact ⟨rfl, pte, m₁, m₁, hwalk, by rw [if_neg hP], rfl⟩

theorem pageInsert_words (h : pageInsert m d pp va perm = .ok (r, m')) :
    r = -E_NO_MEM ∧ m' = m ∨ r = 0 ∧ ∃ t m₁, Inserted m d pp va perm t m₁ m' := by
  rcases pageInsert_eq_ok h with ⟨rfl, hwalk⟩ | ⟨rfl, pte, m₁, m₂, hwalk, hm₂, rfl⟩
  · rcases pgdirWalk_create hwalk with ⟨-, hm⟩ | ⟨t, ht, -⟩
    · exact .inl ⟨rfl, hm⟩
    · cases ht
  · rcases pgdirWalk_create hwalk with ⟨ho, -⟩ | ⟨t, ht, hw⟩
    · cases ho
    cases ht
    refine .inr ⟨rfl, t, m₁, hw, ?_⟩
    -- the old entry is cleared, or is overwritten as it is
    have hphys : ∀ w, setW m₂.phys t (PTX va) w = setW m₁.phys t (PTX va) w := by
      intro w
      unfold pageInsertOld at hm₂
      split_ifs at hm₂
      · cases hm₂
        rfl
      · rcases pageRemove_phys hm₂ with ⟨heq, -⟩ | ⟨heq, -⟩
        · rw [heq]
        · rw [heq, hw.pde.2, setW_setW]
      · cases hm₂
        rfl
    simp only [pageInsertNew, setWord_phys, setRef_phys, hphys]

/-- The directory would be the table that holds its own entry for `va`. -/
def OwnTable (m : Mem) (d : ℕ) (va : Word) : Prop :=
  PTX va = PDX va ∧ (if test (m.phys d (PDX va)) PTE_P then PGNUM (m.phys d (PDX va)) = d
    else ∃ p, m.pageFreeList = some p ∧ PGNUM (page2pa p) = d)

theorem TableAt.ownTable {t : ℕ} (h : TableAt m d va t m') (ht : t = d) (hx : PTX va = PDX va) :
    OwnTable m d va := by
  refine ⟨hx, ?_⟩
  rcases h.words with ⟨rfl, hP⟩ | ⟨hP, p, w, hfl, htp, -⟩
  · rw [if_pos hP, h.pde.2, ht]
  · rw [if_neg hP]
    exact ⟨p, hfl, by rw [← htp, ht]⟩

/-- What the hardware finds: both entries are present. -/
theorem translate_eq_some {w : Word} : translate m d va = some w ↔
    test (m.phys d (PDX va)) PTE_P = true ∧
    m.phys (PGNUM (m.phys d (PDX va))) (PTX va) = w ∧ test w PTE_P = true := by
  simp only [translate]
  constructor
  · intro h
    split_ifs at h with hP hP'
    cases h
    exact ⟨hP, rfl, hP'⟩
  · rintro ⟨hP, rfl, hP'⟩
    rw [if_pos hP, if_pos hP']

/-- **`page_insert` maps the page**: the hardware finds it at `va`, with the permissions. -/
theorem translate_pageInsert (h : pageInsert m d pp va perm = .ok (0, m')) (hf : IsFlags perm)
    (hown : ¬ OwnTable m d va) : translate m' d va = some (mkPte pp perm) := by
  rcases pageInsert_words h with ⟨h0, -⟩ | ⟨-, t, m₁, hw, hwords⟩
  · exact absurd h0 (by decide)
  · have hne : ¬ (t = d ∧ PTX va = PDX va) := fun h => hown (hw.ownTable h.1 h.2)
    have hpde : setW m₁.phys t (PTX va) (mkPte pp perm) d (PDX va) = m₁.phys d (PDX va) := by
      by_cases htd : d = t
      · exact htd ▸ setW_of_ne_index fun hx => hne ⟨htd.symm, hx.symm⟩
      · rw [setW_of_ne htd]
    have hpte : setW (setW m₁.phys t (PTX va) (mkPte pp perm)) d (PDX va)
        (m₁.phys d (PDX va) ||| perm) t (PTX va) =
        mkPte pp perm := by
      by_cases htd : t = d
      · rw [setW_of_ne_index fun hx => hne ⟨htd, hx⟩, setW_self]
      · rw [setW_of_ne htd, setW_self]
    have hP : test (m₁.phys d (PDX va) ||| perm) PTE_P = true := by
      rw [test_or, hw.pde.1, Bool.true_or]
    rw [translate, hwords, hpde]
    simp only [setW_self, hP, if_true, PGNUM_or hf, hw.pde.2, hpte, test_mkPte_P]

end JOS
