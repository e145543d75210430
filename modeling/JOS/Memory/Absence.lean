import JOS.Memory.PageInsert

/-!
# Addresses at which nothing is mapped

`page_lookup` looks for a table, and not whether the entry in it is present: of an empty entry it
takes the page number 0. So `page_lookup` and `page_remove` do what they are there for when the
address is mapped, or has no table, and not when its table has an empty entry.
-/

namespace JOS

open JOS.General

variable {m m' : Mem} {l : List ℕ} {W : ℕ → Prop} {V : Finset ℕ} {x : ℕ → ℕ} {d : ℕ} {va : Word}

/-- `page_lookup` and `page_remove` as they are to be. -/
structure RespectsAbsence (m : Mem) (d : ℕ) (W : ℕ → Prop) (l : List ℕ) (va : Word) : Prop where
  /-- `page_lookup` returns the page that is mapped, with its entry, or null. -/
  lookup : ∃ o, pageLookup m d va = .ok o ∧ o.map Prod.fst = mappedAt m d va ∧
    ∀ pp pte, o = some (pp, pte) → translate m d va = some (m.word pte)
  /-- `page_remove` returns, -/
  remove : ∃ m', pageRemove m d va = .ok m' ∧ translate m' d va = none ∧
    -- other addresses are mapped as before,
    (∀ a, PGNUM a ≠ PGNUM va → W (PDX a) ∨ Names (m.phys d (PDX a)) d →
      translate m' d a = translate m d a) ∧
    -- the page that was mapped has lost a reference, and is free if that was its last,
    (∀ q, mappedAt m d va = some q → (m'.ref q).toNat + 1 = (m.ref q).toNat ∧
      (∀ p, p ≠ q → m'.ref p = m.ref p) ∧
      Chain m'.link m'.pageFreeList (if m.ref q = 1 then q :: l else l)) ∧
    -- and without one there is no change.
    (mappedAt m d va = none → m'.ref = m.ref ∧ Chain m'.link m'.pageFreeList l)

/-- **`page_lookup` and `page_remove` respect absence** exactly for the addresses that do not have
an empty entry in a table. -/
theorem respectsAbsence_iff (h : WellFormed m d W l V x) (hv : PGNUM va ∈ V) :
    RespectsAbsence m d W l va ↔ ¬ EmptyEntry m d va := by
  have hva : W (PDX va) := by
    rw [PDX_eq]
    exact h.tables _ hv
  constructor
  · rintro ⟨⟨o, ho, hfst, -⟩, -⟩ ⟨hP, hempty⟩
    rw [pageLookup_table ⟨hP, rfl⟩ (h.table _ hva _ ⟨hP, rfl⟩).1] at ho
    split_ifs at ho
    cases ho
    rw [mappedAt_eq_none.mpr hempty] at hfst
    cases hfst
  · intro hne
    cases hq : mappedAt m d va with
    | none =>
      have hP : test (m.phys d (PDX va)) PTE_P ≠ true := fun hP => hne ⟨hP, mappedAt_eq_none.mp hq⟩
      have hlook := pageLookup_absent (m := m) hP
      have hrem : pageRemove m d va = .ok m := by
        rw [pageRemove, hlook]
        rfl
      have hnone : translate m d va = none := Option.map_eq_none_iff.mp hq
      refine ⟨⟨none, hlook, hq.symm, fun pp pte ho => ?_⟩, m, hrem, hnone, fun _ _ _ => rfl,
        fun q' hq' => ?_,
        fun _ => ⟨rfl, h.chain⟩⟩
      · cases ho
      · rw [hq] at hq'
        cases hq'
    | some q =>
      have hn := mappedAt_eq_some.mp hq
      obtain ⟨t, ht, hw⟩ := names_of_dirPte hn
      obtain ⟨m', hm', hr⟩ := pageRemove_mapped h hv hn
      have hlook : pageLookup m d va = .ok (some (q, ⟨t, PTX va⟩)) := by
        rw [pageLookup_table ht (h.table _ hva t ht).1, hw, hn.2,
          if_neg (not_le.mpr (h.page _ hv q hn))]
      have hself : dirPte m'.phys d (PGNUM va) = 0 := by
        rw [hr.entries _ (h.tables _ hv), if_pos rfl]
      refine ⟨⟨_, hlook, hq.symm, fun pp pte ho => ?_⟩, m', hm', ?_, fun a ha hWa => ?_,
        fun q' hq' => ?_, fun hnone => ?_⟩
      · cases ho
        exact translate_of_dirPte hw.symm (by rw [Mem.word, hw]; exact hn.1)
      · rw [translate_eq_dirPte, hself, test_zero]
        rfl
      · rcases hWa with hWa | hself
        · rw [PDX_eq] at hWa
          exact translate_of_same_dirPte (by rw [hr.entries _ hWa, if_neg ha])
        · -- the window of the directory shows the directory, which has not changed
          obtain ⟨t', -, hdt, hphys⟩ := hr.words
          rw [translate, translate, hphys, setW_of_ne hdt]
          dsimp only
          rw [hself.2, setW_of_ne hdt]
      · rw [hq] at hq'
        cases hq'
        obtain ⟨hself, hothers⟩ := Removed.ref h hv hn hr
        exact ⟨hself, hothers, hr.well.chain⟩
      · rw [hq] at hnone
        cases hnone

/-- A page of the kernel mapped at `0x1000`: the table has one entry. -/
theorem pageInsert_bootMem : ∃ m' l' x', pageInsert bootMem 0x300 0x200 0x1000 7 = .ok (0, m') ∧
    WellFormed m' 0x300 (fun i => i < NPDENTRIES ∧ i ≠ PDX UVPT) l' (Finset.range NUPAGES) x' := by
  obtain ⟨l, h, hl⟩ := wellFormed_bootMem
  have hfree : 0x200 ∉ l := fun hm => absurd ((hl _).mp hm).2 (by decide)
  rcases h.pageInsert (show PGNUM 0x1000 ∈ Finset.range NUPAGES from Finset.mem_range.mpr
    (by decide)) (by decide) hfree
    (by decide) (show IsFlags 7 by decide) with ⟨hrun, -, -⟩ | ⟨m', t, l₁, x', l', hrun, hi⟩
  · have hok : (pageInsert bootMem 0x300 0x200 0x1000 7).map Prod.fst = .ok 0 := by decide +kernel
    rw [hrun] at hok
    cases hok
  · exact ⟨m', l', x', hrun, hi.well⟩

/-- At `0x1000`. -/
theorem respectsAbsence_mapped : ∃ m' l', pageInsert bootMem 0x300 0x200 0x1000 7 = .ok (0, m') ∧
    mappedAt m' 0x300 0x1000 = some 0x200 ∧
    RespectsAbsence m' 0x300 (fun i => i < NPDENTRIES ∧ i ≠ PDX UVPT) l' 0x1000 := by
  obtain ⟨m', l', x', hrun, h⟩ := pageInsert_bootMem
  have hmap : (pageInsert bootMem 0x300 0x200 0x1000 7).map (fun x => mappedAt x.2 0x300 0x1000) =
      .ok (some 0x200) := by
    decide +kernel
  rw [hrun] at hmap
  have hmapped : mappedAt m' 0x300 0x1000 = some 0x200 := Except.ok.inj hmap
  refine ⟨m', l', hrun, hmapped, (respectsAbsence_iff h (Finset.mem_range.mpr (by decide))).mpr
    fun hempty => ?_⟩
  exact hempty.2 (mappedAt_eq_some.mp hmapped).1

/-- Next to it: `page_lookup` finds page 0. -/
theorem not_respectsAbsence : ∃ m' l' x', pageInsert bootMem 0x300 0x200 0x1000 7 = .ok (0, m') ∧
    WellFormed m' 0x300 (fun i => i < NPDENTRIES ∧ i ≠ PDX UVPT) l' (Finset.range NUPAGES) x' ∧
    ¬ RespectsAbsence m' 0x300 (fun i => i < NPDENTRIES ∧ i ≠ PDX UVPT) l' 0x2000 := by
  obtain ⟨m', l', x', hrun, h⟩ := pageInsert_bootMem
  refine ⟨m', l', x', hrun, h, fun hr => ?_⟩
  obtain ⟨o, ho, hfst, -⟩ := hr.lookup
  have hmap : (pageInsert bootMem 0x300 0x200 0x1000 7).map (fun x => (mappedAt x.2 0x300 0x2000,
      (pageLookup x.2 0x300 0x2000).map (Option.map Prod.fst))) = .ok (none, .ok (some 0)) := by
    decide +kernel
  rw [hrun] at hmap
  obtain ⟨hnone, hlook⟩ := Prod.mk.inj (Except.ok.inj hmap)
  rw [ho] at hlook
  have hsome := Except.ok.inj hlook
  rw [hfst, hnone] at hsome
  cases hsome

end JOS
