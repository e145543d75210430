import JOS.Memory.Directory

/-!
# Whose tables the kernel writes

A call of the memory code is made for one page directory. Here is which words it can
write (`Below`): those of the user half of that directory, those of the tables that the
user half names, and those of pages on the free list. No invariant is assumed but that
the free list is a list. Whether a word belongs to another address space as well is
a matter of how page tables are shared (`Unshared`).
-/

namespace JOS

open JOS.General

open Function (update)

variable {m m' m₁ : Mem} {phys : ℕ → ℕ → Word} {D : ℕ → Option ℕ} {d e i p pp q t x : ℕ}
  {va perm r : Word}
  {o : Option ℕ} {z : Bool} {l : List ℕ}

/-! ### The words of an address space -/

/-- Word `x` of page `q` belongs to the user half of the address space of `d`: to the directory, or
to a table that one of its entries names. -/
def Below (phys : ℕ → ℕ → Word) (d q x : ℕ) : Prop := q = d ∧ x < NUPDX ∨ ∃ i < NUPDX,
    Names (phys d i) q

/-- Since `m`, only words below `UTOP` of `d` and pages of `l` have been written. -/
structure Touched (m : Mem) (l : List ℕ) (d : ℕ) (m' : Mem) : Prop where
  kernPgdir : m'.kernPgdir = m.kernPgdir
  words : ∀ q x, m'.phys q x = m.phys q x ∨ q ∈ l ∨ Below m.phys d q x

theorem Touched.refl (m : Mem) (l : List ℕ) (d : ℕ) : Touched m l d m := ⟨rfl, fun _ _ => .inl rfl⟩

theorem PDX_lt_of_lt (hva : va < UTOP) : PDX va < NUPDX :=
  PDX_lt_of_PGNUM ((PGNUM_lt_iff va).mpr hva)

/-- Where a single word is written. -/
theorem setW_eq_or (phys : ℕ → ℕ → Word) (p i : ℕ) (w : Word) (q x : ℕ) :
    setW phys p i w q x = phys q x ∨ q = p ∧ x = i := by
  by_cases hq : q = p
  · by_cases hx : x = i
    · exact .inr ⟨hq, hx⟩
    · rw [setW_of_ne_index hx]
      exact .inl rfl
  · rw [setW_of_ne hq]
    exact .inl rfl

theorem pageRemove_base (h : pageRemove m d va = .ok m') : SameBase m m' := by
  obtain ⟨o, hlook, h⟩ := bind_eq_ok.mp h
  cases o with
  | none =>
    cases h
    exact SameBase.refl m
  | some y =>
    obtain ⟨m₁, hdec, h⟩ := bind_eq_ok.mp h
    cases h
    rw [pageDecref] at hdec
    split_ifs at hdec
    · rw [pageFree] at hdec
      split_ifs at hdec
      cases hdec
      exact ⟨rfl, rfl, rfl, rfl⟩
    · cases hdec
      exact ⟨rfl, rfl, rfl, rfl⟩

/-- `page_remove` writes one word of a table of `d`. -/
theorem pageRemove_touched (hva : va < UTOP) (h : pageRemove m d va = .ok m') (l : List ℕ) :
    Touched m l d m' := by
  refine ⟨(pageRemove_base h).kernPgdir, fun q x => ?_⟩
  rcases pageRemove_phys h with ⟨hphys, -⟩ | ⟨hphys, hP⟩
  · rw [hphys]
    exact .inl rfl
  · rw [hphys]
    rcases setW_eq_or m.phys (PGNUM (m.phys d (PDX va))) (PTX va) 0 q x with hw | ⟨rfl, -⟩
    · exact .inl hw
    · exact .inr (.inr (.inr ⟨PDX va, PDX_lt_of_lt hva, hP, rfl⟩))

theorem pgdirWalk_base {pte : Option PtePtr} (hl : FreeList m l)
    (h : pgdirWalk m d va true = .ok (pte, m')) :
    SameBase m m' := by
  cases pte with
  | none =>
    rcases pgdirWalk_create h with ⟨-, rfl⟩ | ⟨t, ht, -⟩
    · exact SameBase.refl m'
    · cases ht
  | some pte =>
    rcases pgdirWalk_list hl h with ⟨rfl, -⟩ | ⟨-, p, t, -, -, -, hbase, -⟩
    · exact SameBase.refl m'
    · exact hbase

theorem pageInsert_base (hl : FreeList m l) (h : pageInsert m d pp va perm = .ok (r, m')) :
    SameBase m m' := by
  rcases pageInsert_eq_ok h with ⟨-, hwalk⟩ | ⟨-, pte, m₁, m₂, hwalk, hold, rfl⟩
  · exact pgdirWalk_base hl hwalk
  · refine (pgdirWalk_base hl hwalk).trans ?_
    unfold pageInsertOld at hold
    split_ifs at hold
    · cases hold
      exact ⟨rfl, rfl, rfl, rfl⟩
    · exact (pageRemove_base hold).trans ⟨rfl, rfl, rfl, rfl⟩
    · cases hold
      exact ⟨rfl, rfl, rfl, rfl⟩

/-- `page_insert` writes an entry of `d`, an entry of the table it names, and a page that becomes
this table. -/
theorem pageInsert_touched (hl : FreeList m l) (hva : va < UTOP)
    (h : pageInsert m d pp va perm = .ok (r, m')) :
    Touched m l d m' := by
  refine ⟨(pageInsert_base hl h).kernPgdir, fun q x => ?_⟩
  rcases pageInsert_words h with ⟨-, rfl⟩ | ⟨-, t, m₁, hins⟩
  · exact .inl rfl
  rw [hins.words]
  have hi := PDX_lt_of_lt hva
  rcases setW_eq_or (setW m₁.phys t (PTX va) (mkPte pp perm)) d (PDX va)
    (setW m₁.phys t (PTX va) (mkPte pp perm) d (PDX va) ||| perm) q x with hw | ⟨rfl, rfl⟩
  · rw [hw]
    rcases hins.walked.words with ⟨rfl, hP⟩ | ⟨-, p, w, hfl, htp, hphys⟩
    · rcases setW_eq_or m₁.phys t (PTX va) (mkPte pp perm) q x with hw | ⟨rfl, -⟩
      · exact .inl hw
      · exact .inr (.inr (.inr ⟨PDX va, hi, hP, hins.walked.pde.2⟩))
    · -- the table is the first free page
      have hchain := hl.chain
      rw [hfl] at hchain
      obtain ⟨t', rfl, -⟩ := hchain.of_some
      rw [PGNUM_page2pa (hl.lt p List.mem_cons_self)] at htp
      by_cases hqt : q = t
      · exact .inr (.inl (hqt.trans htp ▸ List.mem_cons_self))
      · rw [setW_of_ne hqt, hphys]
        rcases setW_eq_or (update m.phys t fun _ => 0) d (PDX va) w q x with hw | ⟨rfl, rfl⟩
        · rw [hw, Function.update_of_ne hqt]
          exact .inl rfl
        · exact .inr (.inr (.inl ⟨rfl, hi⟩))
  · exact .inr (.inr (.inl ⟨rfl, hi⟩))

/-! ### `env_free` -/

/-- Words below `UTOP` of `d` have been cleared. -/
structure Cleared (m : Mem) (d : ℕ) (m' : Mem) : Prop where
  kernPgdir : m'.kernPgdir = m.kernPgdir
  words : ∀ q x, m'.phys q x = m.phys q x ∨ m'.phys q x = 0 ∧ Below m.phys d q x

/-- What is still there has been there before. -/
theorem Cleared.names (h : Cleared m d m₁) (hn : Names (m₁.phys q x) p) : Names (m.phys q x) p := by
  rcases h.words q x with hw | ⟨hw, -⟩
  · rwa [hw] at hn
  · rw [hw] at hn
    exact absurd hn (not_names_zero p)

/-- One more word of a table, or of the directory, is cleared. -/
theorem Cleared.clear (h : Cleared m d m₁) (hkern : m'.kernPgdir = m₁.kernPgdir)
    (hphys : m'.phys = setW m₁.phys p i 0)
    (hbelow : Below m₁.phys d p i) : Cleared m d m' := by
  refine ⟨hkern.trans h.kernPgdir, fun q x => ?_⟩
  rw [hphys]
  by_cases hqx : q = p ∧ x = i
  · obtain ⟨rfl, rfl⟩ := hqx
    rw [setW_self]
    refine .inr ⟨rfl, ?_⟩
    rcases hbelow with hd | ⟨j, hj, hn⟩
    · exact .inl hd
    · exact .inr ⟨j, hj, h.names hn⟩
  · rw [(setW_eq_or m₁.phys p i 0 q x).resolve_right hqx]
    exact h.words q x

theorem PDX_PGADDR (hi : i < 1024) (hx : x < 1024) : PDX (PGADDR i x 0) = i := by
  rw [PDX_eq, PGNUM_PGADDR hi hx]
  omega

theorem pageDecref_base (h : pageDecref m p = .ok m') : SameBase m m' := by
  rw [pageDecref] at h
  split_ifs at h
  · rw [pageFree] at h
    split_ifs at h
    cases h
    exact ⟨rfl, rfl, rfl, rfl⟩
  · cases h
    exact ⟨rfl, rfl, rfl, rfl⟩

/-- The inner loop of `env_free`. -/
theorem Cleared.ptes (h : Cleared m d m₁) (hi : i < NUPDX) (hr : envFreePtes d t i m₁ = .ok m') :
    Cleared m d m' := by
  refine foldlM_invariant (I := Cleared m d) hr h fun b b' j hj hb hs => ?_
  split_ifs at hs
  · have hpdx : PDX (PGADDR i j 0) = i :=
      PDX_PGADDR (lt_trans hi (by decide)) (List.mem_range.mp hj)
    have hkern := (pageRemove_base hs).kernPgdir
    rcases pageRemove_phys hs with ⟨hphys, -⟩ | ⟨hphys, hP⟩
    · refine ⟨hkern.trans hb.kernPgdir, ?_⟩
      rw [hphys]
      exact hb.words
    · refine hb.clear hkern hphys (.inr ⟨i, hi, ?_, ?_⟩)
      · rwa [hpdx] at hP
      · rw [hpdx]
  · cases hs
    exact hb

/-- The memory half of `env_free` clears words below `UTOP`, and no others. -/
theorem envFreeVm_cleared (h : envFreeVm m d = .ok m') : Cleared m d m' := by
  obtain ⟨m₁, hloop, h₁⟩ := bind_eq_ok.mp h
  obtain ⟨pp, -, hdec⟩ := bind_eq_ok.mp h₁
  have hcleared : Cleared m d m₁ := by
    refine foldlM_invariant (I := Cleared m d) hloop ⟨rfl, fun _ _ => .inl rfl⟩
      fun b b' i hi hb hs => ?_
    have hi := List.mem_range.mp hi
    rw [envFreePde] at hs
    split_ifs at hs
    · obtain ⟨pt, -, hs₁⟩ := bind_eq_ok.mp hs
      obtain ⟨m₂, hptes, hs₂⟩ := bind_eq_ok.mp hs₁
      obtain ⟨pp, -, hs₃⟩ := bind_eq_ok.mp hs₂
      exact (hb.ptes hi hptes).clear (pageDecref_base hs₃).kernPgdir (pageDecref_phys hs₃)
        (.inl ⟨rfl, hi⟩)
    · cases hs
      exact hb
  refine ⟨(pageDecref_base hdec).kernPgdir.trans hcleared.kernPgdir, ?_⟩
  rw [pageDecref_phys hdec]
  exact hcleared.words

/-! ### Sharing of tables -/

/-- Page `t` is the table for entry `i` of the directory of environment `e`. -/
def TableOf (phys : ℕ → ℕ → Word) (D : ℕ → Option ℕ) (e i t : ℕ) : Prop :=
  ∃ d, D e = some d ∧ i < NUPDX ∧ Names (phys d i) t

/-- Page `p` is a page directory, or a table of the user half of one. -/
def InUse (phys : ℕ → ℕ → Word) (D : ℕ → Option ℕ) (p : ℕ) : Prop := (∃ e, D e = some p) ∨ ∃ e i,
    TableOf phys D e i p

/-- Each table is for entries of one directory, and no directory is a table below `UTOP`. -/
structure Unshared (phys : ℕ → ℕ → Word) (D : ℕ → Option ℕ) : Prop where
  dir : ∀ e e' d, D e = some d → D e' = some d → e = e'
  table : ∀ e e' i i' t, TableOf phys D e i t → TableOf phys D e' i' t → e = e'
  table_dir : ∀ e e' i t, TableOf phys D e i t → D e' ≠ some t

/-- The directory entry names the same table, and the table has the same entry. -/
theorem translate_congr (hd : ∀ t, Names (m'.phys d (PDX va)) t ↔ Names (m.phys d (PDX va)) t)
    (ht : ∀ t, Names (m.phys d (PDX va)) t → m'.phys t (PTX va) = m.phys t (PTX va)) :
    translate m' d va = translate m d va := by
  rw [translate, translate]
  dsimp only
  by_cases hP : test (m.phys d (PDX va)) PTE_P = true
  · obtain ⟨hP', hnum⟩ := (hd _).mpr ⟨hP, rfl⟩
    simp only [hP, hP', hnum, if_true, ht _ ⟨hP, rfl⟩]
  · have hP' : test (m'.phys d (PDX va)) PTE_P ≠ true := fun hP' => hP ((hd _).mp ⟨hP', rfl⟩).1
    simp only [hP, hP', if_false, Bool.false_eq_true]

/-- Words of another address space are not below `UTOP` of this one. -/
theorem Unshared.not_below {e' d' : ℕ} (h : Unshared phys D) (hd : D e = some d)
    (hd' : D e' = some d') (hne : e' ≠ e) :
    (∀ x, ¬ Below phys d d' x) ∧ ∀ i t, TableOf phys D e' i t → ∀ x, ¬ Below phys d t x := by
  refine ⟨?_, ?_⟩
  · rintro x (⟨rfl, -⟩ | ⟨i, hi, hn⟩)
    · exact hne (h.dir _ _ _ hd' hd)
    · exact h.table_dir e e' i d' ⟨d, hd, hi, hn⟩ hd'
  · rintro i t ht x (⟨rfl, -⟩ | ⟨j, hj, hn⟩)
    · exact h.table_dir e' e i t ht hd
    · exact hne (h.table _ _ _ _ _ ht ⟨d, hd, hj, hn⟩)

end JOS
