import JOS.Spaces.Touch
import JOS.General.Count
import Mathlib.Data.Finset.Prod
import Mathlib.Data.Finset.Range

/-!
# References to physical pages

A page is referred to by entries of page tables, by entries of page directories and by
the environments that have it as their directory (`refs`). What counts is the word that
names the page: an entry of a table is one reference, whatever the table is named by.

`env_free` drops references in three ways, by an entry of a table, an entry of the
directory and the directory, and each of them lowers the count of one page by one.
-/

namespace JOS

open JOS.General

open Function (update)

variable {phys phys' : ℕ → ℕ → Word} {D D' : ℕ → Option ℕ} {d e i p q t x : ℕ}

/-- Page `t` is a table of the user half of some address space. -/
def IsTable (phys : ℕ → ℕ → Word) (D : ℕ → Option ℕ) (t : ℕ) : Prop := ∃ e i, TableOf phys D e i t

/-- The entries of all pages, if they are tables. -/
@[irreducible] def tableEntries : Finset (ℕ × ℕ) := Finset.range (2 ^ 20) ×ˢ Finset.range NPTENTRIES

/-- The entries of the user half of the environments' directories. -/
@[irreducible] def dirEntries : Finset (ℕ × ℕ) := Finset.range NENV ×ˢ Finset.range NUPDX

private theorem mem_product_range (a b : ℕ) (y : ℕ × ℕ) : y ∈ Finset.range a ×ˢ Finset.range b ↔
    y.1 < a ∧ y.2 < b := by
  simp

theorem mem_tableEntries {y : ℕ × ℕ} : y ∈ tableEntries ↔ y.1 < 2 ^ 20 ∧ y.2 < NPTENTRIES := by
  unfold tableEntries
  exact mem_product_range _ _ y

theorem mem_dirEntries {y : ℕ × ℕ} : y ∈ dirEntries ↔ y.1 < NENV ∧ y.2 < NUPDX := by
  unfold dirEntries
  exact mem_product_range _ _ y

open Classical in
/-- The entries of tables that name page `p`. -/
noncomputable def pteRefs (phys : ℕ → ℕ → Word) (D : ℕ → Option ℕ) (p : ℕ) : ℕ :=
  (tableEntries.filter fun y => IsTable phys D y.1 ∧ Names (phys y.1 y.2) p).card

open Classical in
/-- The entries of page directories that name page `p`. -/
noncomputable def pdeRefs (phys : ℕ → ℕ → Word) (D : ℕ → Option ℕ) (p : ℕ) : ℕ :=
  (dirEntries.filter fun y => ∃ d, D y.1 = some d ∧ Names (phys d y.2) p).card

/-- The environments with page directory `p`. -/
def dirRefs (D : ℕ → Option ℕ) (p : ℕ) : ℕ :=
  ((Finset.range NENV).filter fun e => D e = some p).card

/-- **The references to page `p`** of all address spaces. -/
noncomputable def refs (phys : ℕ → ℕ → Word) (D : ℕ → Option ℕ) (p : ℕ) : ℕ :=
  pteRefs phys D p + pdeRefs phys D p + dirRefs D p

theorem IsTable.lt (h : IsTable phys D t) : t < 2 ^ 20 := by
  obtain ⟨e, i, d, -, -, -, rfl⟩ := h
  exact PGNUM_lt _

/-- The count depends on the words of directories and tables only. -/
theorem refs_congr (hd : ∀ e d, D e = some d → ∀ i < NUPDX, phys' d i = phys d i)
    (ht : ∀ t, IsTable phys D t → ∀ x, phys' t x = phys t x) (p : ℕ) :
    refs phys' D p = refs phys D p := by
  classical
  have htable : ∀ t, IsTable phys' D t ↔ IsTable phys D t := by
    intro t
    constructor
    · rintro ⟨e, i, d, hD, hi, hn⟩
      exact ⟨e, i, d, hD, hi, hd e d hD i hi ▸ hn⟩
    · rintro ⟨e, i, d, hD, hi, hn⟩
      exact ⟨e, i, d, hD, hi, (hd e d hD i hi).symm ▸ hn⟩
  have hpte : pteRefs phys' D p = pteRefs phys D p := by
    refine congrArg Finset.card (Finset.filter_congr fun y _ => ?_)
    rw [htable]
    exact and_congr_right fun h => by rw [ht _ h]
  have hpde : pdeRefs phys' D p = pdeRefs phys D p := by
    refine congrArg Finset.card (Finset.filter_congr fun y hy => ?_)
    have hi := (mem_dirEntries.mp hy).2
    exact exists_congr fun d => and_congr_right fun h => by rw [hd _ d h _ hi]
  rw [refs, refs, hpte, hpde]

/-! ### Dropping references -/

/-- An entry of a table is cleared. -/
theorem refs_clearPte (hun : Unshared phys D) (ht : IsTable phys D t) (hx : x < NPTENTRIES)
    (hn : Names (phys t x) q) (p : ℕ) :
    refs phys D p = refs (setW phys t x 0) D p + if p = q then 1 else 0 := by
  classical
  -- `t` is not a directory
  have hdir : ∀ e d, D e = some d → ∀ i, setW phys t x 0 d i = phys d i := by
    rintro e d hD i
    refine congrFun (setW_of_ne ?_) i
    rintro rfl
    obtain ⟨e', i', htab⟩ := ht
    exact hun.table_dir e' e i' d htab hD
  have htable : ∀ t', IsTable (setW phys t x 0) D t' ↔ IsTable phys D t' := fun t' =>
    exists_congr fun e => exists_congr fun i => exists_congr fun d => and_congr_right fun hD => by
      rw [hdir e d hD]
  have hpde : pdeRefs (setW phys t x 0) D p = pdeRefs phys D p := by
    refine congrArg Finset.card (Finset.filter_congr fun y _ => ?_)
    exact exists_congr fun d => and_congr_right fun hD => by rw [hdir _ d hD]
  have hmem : (t, x) ∈ tableEntries := mem_tableEntries.mpr ⟨ht.lt, hx⟩
  -- all other entries are the same
  have hothers : ∀ y ∈ tableEntries, y ≠ (t, x) →
      (IsTable phys D y.1 ∧ Names (phys y.1 y.2) p ↔
        IsTable (setW phys t x 0) D y.1 ∧ Names (setW phys t x 0 y.1 y.2) p) := by
    rintro ⟨t', x'⟩ - hne
    rw [htable, (setW_eq_or phys t x 0 t' x').resolve_right fun h => hne (Prod.ext h.1 h.2)]
  have hzero : ¬ (IsTable (setW phys t x 0) D t ∧ Names (setW phys t x 0 t x) p) := by
    rintro ⟨-, h⟩
    rw [setW_self] at h
    exact not_names_zero p h
  rw [refs, refs, hpde]
  by_cases hpq : p = q
  · subst hpq
    have hlose : pteRefs phys D p = pteRefs (setW phys t x 0) D p + 1 :=
      card_filter_lose hothers hmem ⟨ht, hn⟩ hzero
    rw [if_pos rfl, hlose]
    omega
  · have hsame : pteRefs phys D p = pteRefs (setW phys t x 0) D p :=
      card_filter_same hothers fun _ => ⟨fun h => absurd (names_unique h.2 hn) hpq, fun h =>
        absurd h hzero⟩
    rw [if_neg hpq, hsame, Nat.add_zero]

/-- The directory entry of an empty table is cleared. -/
theorem refs_clearPde (hun : Unshared phys D) (he : e < NENV) (hD : D e = some d) (hi : i < NUPDX)
    (hn : Names (phys d i) t)
    (hempty : ∀ x < NPTENTRIES, test (phys t x) PTE_P ≠ true) (p : ℕ) :
    refs phys D p = refs (setW phys d i 0) D p + if p = t then 1 else 0 := by
  classical
  have htab : ∀ {e' i' t'}, TableOf phys D e' i' t' → t' ≠ d := by
    rintro e' i' t' h rfl
    exact hun.table_dir e' e i' t' h hD
  -- a table with an entry is still a table
  have hpte : pteRefs phys D p = pteRefs (setW phys d i 0) D p := by
    refine congrArg Finset.card (Finset.filter_congr fun y hy => ?_)
    have hx := (mem_tableEntries.mp hy).2
    obtain ⟨t', x⟩ := y
    constructor
    · rintro ⟨⟨e', i', htab'⟩, hnx⟩
      have hne : t' ≠ t := by
        rintro rfl
        exact hempty x hx hnx.1
      refine ⟨⟨e', i', ?_⟩, by rwa [setW_of_ne (htab htab')]⟩
      obtain ⟨d', hD', hi', hn'⟩ := htab'
      refine ⟨d', hD', hi', ?_⟩
      rw [(setW_eq_or phys d i 0 d' i').resolve_right]
      · exact hn'
      · rintro ⟨rfl, rfl⟩
        exact hne (names_unique hn' hn)
    · rintro ⟨⟨e', i', d', hD', hi', hn'⟩, hnx⟩
      have hpde : setW phys d i 0 d' i' = phys d' i' := by
        refine (setW_eq_or phys d i 0 d' i').resolve_right ?_
        rintro ⟨rfl, rfl⟩
        rw [setW_self] at hn'
        exact not_names_zero t' hn'
      rw [hpde] at hn'
      have htab' : TableOf phys D e' i' t' := ⟨d', hD', hi', hn'⟩
      rw [setW_of_ne (htab htab')] at hnx
      exact ⟨⟨e', i', htab'⟩, hnx⟩
  have hmem : (e, i) ∈ dirEntries := mem_dirEntries.mpr ⟨he, hi⟩
  have hothers : ∀ y ∈ dirEntries, y ≠ (e, i) →
      ((∃ d, D y.1 = some d ∧ Names (phys d y.2) p) ↔ ∃ d', D y.1 = some d' ∧
        Names (setW phys d i 0 d' y.2) p) := by
    rintro ⟨e', i'⟩ - hne
    refine exists_congr fun d' => and_congr_right fun hD' => ?_
    rw [(setW_eq_or phys d i 0 d' i').resolve_right]
    rintro ⟨rfl, rfl⟩
    exact hne (Prod.ext (hun.dir e' e d' hD' hD) rfl)
  have hzero : ¬ ∃ d', D e = some d' ∧ Names (setW phys d i 0 d' i) p := by
    rintro ⟨d', hD', h⟩
    rw [hD] at hD'
    cases hD'
    rw [setW_self] at h
    exact not_names_zero p h
  rw [refs, refs, hpte]
  by_cases hpt : p = t
  · subst hpt
    have hlose : pdeRefs phys D p = pdeRefs (setW phys d i 0) D p + 1 :=
      card_filter_lose hothers hmem ⟨d, hD, hn⟩ hzero
    rw [if_pos rfl, hlose]
    omega
  · have hsame : pdeRefs phys D p = pdeRefs (setW phys d i 0) D p := by
      refine card_filter_same hothers fun _ => ⟨?_, fun h => absurd h hzero⟩
      rintro ⟨d', hD', h⟩
      rw [hD] at hD'
      cases hD'
      exact absurd (names_unique h hn) hpt
    rw [if_neg hpt, hsame, Nat.add_zero]

/-- The environment gives up its empty directory. -/
theorem refs_dropDir (he : e < NENV) (hD : D e = some d)
    (hempty : ∀ i < NUPDX, test (phys d i) PTE_P ≠ true) (p : ℕ) :
    refs phys D p = refs phys (update D e none) p + if p = d then 1 else 0 := by
  classical
  have hpde : pdeRefs phys D p = pdeRefs phys (update D e none) p := by
    refine congrArg Finset.card (Finset.filter_congr fun y hy => exists_congr fun d' => ?_)
    have hi := (mem_dirEntries.mp hy).2
    by_cases hye : y.1 = e
    · rw [hye, Function.update_self, hD]
      refine ⟨fun ⟨h, hn⟩ => ?_, fun h => by cases h.1⟩
      cases h
      exact absurd hn.1 (hempty _ hi)
    · rw [Function.update_of_ne hye]
  have htable : ∀ t, IsTable phys D t ↔ IsTable phys (update D e none) t := by
    refine fun t => exists_congr fun e' => exists_congr fun i => exists_congr fun d' => ?_
    by_cases hee : e' = e
    · rw [hee, Function.update_self, hD]
      refine ⟨fun ⟨h, hi, hn⟩ => ?_, fun h => by cases h.1⟩
      cases h
      exact absurd hn.1 (hempty _ hi)
    · rw [Function.update_of_ne hee]
  have hpte : pteRefs phys D p = pteRefs phys (update D e none) p :=
    congrArg Finset.card (Finset.filter_congr fun y _ => by rw [htable])
  have hothers : ∀ e' ∈ Finset.range NENV, e' ≠ e →
      (D e' = some p ↔ update D e none e' = some p) := by
    intro e' _ hee
    rw [Function.update_of_ne hee]
  have hnone : update D e none e ≠ some p := by
    rw [Function.update_self]
    simp
  rw [refs, refs, hpte, hpde]
  by_cases hpd : p = d
  · subst hpd
    have hlose : dirRefs D p = dirRefs (update D e none) p + 1 :=
      card_filter_lose hothers (Finset.mem_range.mpr he) hD hnone
    rw [if_pos rfl, hlose]
    omega
  · have hsame : dirRefs D p = dirRefs (update D e none) p := by
      refine card_filter_same hothers fun _ => ⟨fun h => ?_, fun h => absurd h hnone⟩
      rw [hD] at h
      exact absurd (Option.some.inj h).symm hpd
    rw [if_neg hpd, hsame, Nat.add_zero]

end JOS
