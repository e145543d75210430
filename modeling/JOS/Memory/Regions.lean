import JOS.Memory.Paging
import JOS.Memory.UserMem
import JOS.Kern.MemInit
import Mathlib.Data.Finset.Card

/-!
# Regions mapped by `boot_map_region`

`boot_map_region` on any well-formed directory: the pages of the region are mapped as
asked, all other addresses as before, and the only reference counts that change are those
of new tables (`bootMapRegion_exact`). It needs a free page for every entry of the region
without a table (`lacking`), and that is enough.

A directory that is in itself as a page table, as `kern_pgdir` is at `UVPT`, shows its new
tables there; so addresses of that window do not translate as before when tables are made
(`bootMapRegion_window`).
-/

namespace JOS

open JOS.General

open Function (update)

variable {m m' m₁ m₂ : Mem} {l l' l₁ l₂ : List ℕ} {W : ℕ → Prop} {R : Finset ℕ} {d i n p q t v : ℕ}
  {va pa perm size w : Word}

/-! ### One page -/

/-- What is left after the entry of `va` has become `w`: a table has been made for it if there was
none. -/
structure PageSet (m : Mem) (d : ℕ) (W : ℕ → Prop) (l : List ℕ) (va w : Word) (m' : Mem)
    (l' : List ℕ) : Prop where
  paging : Paging m' d W l'
  base : SameBase m m'
  pte : ∀ v, W (v / 1024) → dirPte m'.phys d v = if v = PGNUM va then w else dirPte m.phys d v
  tables : l' = l ∧ (∀ i, m'.phys d i = m.phys d i) ∧ m'.ref = m.ref ∨
    ∃ t, l = t :: l' ∧ test (m.phys d (PDX va)) PTE_P ≠ true ∧ Names (m'.phys d (PDX va)) t ∧
      (∀ i, i ≠ PDX va → m'.phys d i = m.phys d i) ∧ m'.ref t = 1 ∧ ∀ q, q ≠ t → m'.ref q = m.ref q

/-- **One pass of `boot_map_region`** fails only when there is no page for a table. -/
theorem Paging.bootMapPage_cases (h : Paging m d W l) (pa perm : Word) (hva : W (PDX va)) :
    bootMapPage m d va pa perm = .error .undef ∧ l = [] ∧ test (m.phys d (PDX va)) PTE_P ≠ true ∨
      ∃ m' l', bootMapPage m d va pa perm = .ok m' ∧
          PageSet m d W l va (pa ||| perm ||| PTE_P) m' l' := by
  rcases h.pgdirWalk_spec hva with ⟨hwalk, hl, hP⟩ | ⟨t, m₁, l₁, hwalk, hgot⟩
  · refine .inl ⟨?_, hl, hP⟩
    rw [bootMapPage, hwalk]
    rfl
  · obtain ⟨hpaging, hpte, hdir⟩ := hgot.paging.setPte hva hgot.names (pa ||| perm ||| PTE_P)
    refine .inr ⟨m₁.setWord t (PTX va) (pa ||| perm ||| PTE_P), l₁, bind_eq_ok.mpr ⟨_, hwalk, rfl⟩,
      hpaging, ?_,
      fun v hv => by rw [hpte v hv, hgot.pte v hv], ?_⟩
    · rcases hgot.got with ⟨rfl, -⟩ | ⟨-, -, rfl⟩ <;> exact ⟨rfl, rfl, rfl, rfl⟩
    · rcases hgot.got with ⟨rfl, rfl, -⟩ | ⟨rfl, hP, rfl⟩
      · exact .inl ⟨rfl, hdir, rfl⟩
      · have htd : t ≠ d := fun htd => h.dir (htd ▸ List.mem_cons_self)
        refine .inr ⟨t, rfl, hP, by rw [hdir]; exact hgot.names, fun i hi => ?_, ?_, fun q hq => ?_⟩
        · rw [hdir, newTable_phys, setW_of_ne_index hi, Function.update_of_ne (Ne.symm htd)]
        · rw [setWord_ref, newTable_ref_self, h.zero t List.mem_cons_self]
          rfl
        · rw [setWord_ref, newTable_ref hq]

/-! ### A region -/

/-- The directory entries of `n` pages from page `v` on. -/
def pdesOf (v n : ℕ) : Finset ℕ := (Finset.range n).image fun k => (v + k) / 1024

/-- The entries of `R` that have no table. -/
def lacking (m : Mem) (d : ℕ) (R : Finset ℕ) : Finset ℕ :=
  R.filter fun i => test (m.phys d i) PTE_P ≠ true

/-- The pages `taken` have become tables, and no reference count but theirs has changed. -/
structure TablesMade (m : Mem) (d : ℕ) (l : List ℕ) (m' : Mem) (l' : List ℕ) : Prop where
  made : ∃ taken, l = taken ++ l' ∧
    (∀ t ∈ taken, m'.ref t = 1 ∧ ∃ i, test (m.phys d i) PTE_P ≠ true ∧ Names (m'.phys d i) t) ∧
    ∀ q, q ∉ taken → m'.ref q = m.ref q
  /-- Entries that have a table keep it. -/
  kept : ∀ i, test (m.phys d i) PTE_P = true → m'.phys d i = m.phys d i

theorem TablesMade.refl (m : Mem) (d : ℕ) (l : List ℕ) : TablesMade m d l m l :=
  ⟨⟨[], rfl, fun _ ht => absurd ht List.not_mem_nil, fun _ _ => rfl⟩, fun _ _ => rfl⟩

/-- One more page. -/
theorem TablesMade.pass (h : TablesMade m d l m₁ l₁) (hnodup : l.Nodup)
    (hp : PageSet m₁ d W l₁ va w m₂ l₂) :
    TablesMade m d l m₂ l₂ := by
  obtain ⟨⟨taken, hl, htaken, hrest⟩, hkept⟩ := h
  rcases hp.tables with ⟨rfl, hdir, href⟩ | ⟨t, rfl, hP, hn, hdir, hself, hothers⟩
  · refine ⟨⟨taken, hl, fun t ht => ?_, fun q hq => by rw [href, hrest q hq]⟩,
      fun i hi => by rw [hdir, hkept i hi]⟩
    obtain ⟨h1, i, hi, hn⟩ := htaken t ht
    exact ⟨by rw [href, h1], i, hi, by rw [hdir]; exact hn⟩
  · have hPm : test (m.phys d (PDX va)) PTE_P ≠ true :=
      fun hPm => hP (by rw [hkept _ hPm]; exact hPm)
    have htn : t ∉ taken := by
      rw [hl] at hnodup
      exact fun ht => (List.nodup_append.mp hnodup).2.2 t ht t List.mem_cons_self rfl
    refine ⟨⟨taken ++ [t], by rw [hl, List.append_assoc]; rfl, fun q hq => ?_, fun q hq => ?_⟩,
      fun i hi => ?_⟩
    · rcases List.mem_append.mp hq with hq | hq
      · have hqt : q ≠ t := fun hqt => htn (hqt ▸ hq)
        obtain ⟨h1, i, hi, hni⟩ := htaken q hq
        have hiv : i ≠ PDX va := fun hiv => hP (hiv ▸ hni.1)
        exact ⟨by rw [hothers q hqt, h1], i, hi, by rw [hdir i hiv]; exact hni⟩
      · rw [List.mem_singleton.mp hq]
        exact ⟨hself, _, hPm, hn⟩
    · rw [List.mem_append, List.mem_singleton, not_or] at hq
      rw [hothers q hq.2, hrest q hq.1]
    · have hiv : i ≠ PDX va := fun hiv => hPm (hiv ▸ hi)
      rw [hdir i hiv, hkept i hi]

/-- One entry less lacks a table when one has been made. -/
theorem PageSet.lacking_le (h : PageSet m d W l va w m' l') (hR : PDX va ∈ R)
    (hle : (lacking m d R).card ≤ l.length) :
    (lacking m' d R).card ≤ l'.length := by
  rcases h.tables with ⟨rfl, hdir, -⟩ | ⟨t, rfl, hP, hn, hdir, -⟩
  · have hsame : lacking m' d R = lacking m d R := Finset.filter_congr fun i _ => by rw [hdir i]
    rw [hsame]
    exact hle
  · have hmem : PDX va ∈ lacking m d R := Finset.mem_filter.mpr ⟨hR, hP⟩
    have herase : lacking m' d R = (lacking m d R).erase (PDX va) := by
      ext i
      rw [Finset.mem_erase, lacking, lacking, Finset.mem_filter, Finset.mem_filter]
      by_cases hiv : i = PDX va
      · rw [hiv]
        simp [hn.1]
      · rw [hdir i hiv]
        simp [hiv]
    rw [herase, Finset.card_erase_of_mem hmem]
    simp only [List.length_cons] at hle
    omega

/-- What is left after the first `n` pages from `va` on have been mapped to those from `pa` on. -/
structure RegionSet (m : Mem) (d : ℕ) (W : ℕ → Prop) (l : List ℕ) (va pa perm : Word) (n : ℕ)
    (m' : Mem) (l' : List ℕ) :
    Prop where
  paging : Paging m' d W l'
  base : SameBase m m'
  pte : ∀ v, W (v / 1024) → dirPte m'.phys d v =
    if PGNUM va ≤ v ∧ v < PGNUM va + n then (pa + BitVec.ofNat 32 (v - PGNUM va) * PGSIZE) |||
      perm ||| PTE_P
    else dirPte m.phys d v
  tables : TablesMade m d l m' l'

theorem RegionSet.refl (h : Paging m d W l) : RegionSet m d W l va pa perm 0 m l :=
  ⟨h, SameBase.refl m, fun v _ => by rw [if_neg (by omega)], TablesMade.refl m d l⟩

theorem RegionSet.pass (h : RegionSet m d W l va pa perm n m₁ l₁) (hnodup : l.Nodup)
    (hlt : PGNUM va + n < 2 ^ 20)
    (hp : PageSet m₁ d W l₁ (va + BitVec.ofNat 32 n * PGSIZE)
    ((pa + BitVec.ofNat 32 n * PGSIZE) ||| perm ||| PTE_P) m₂ l₂) :
    RegionSet m d W l va pa perm (n + 1) m₂ l₂ := by
  refine ⟨hp.paging, h.base.trans hp.base, fun v hv => ?_, h.tables.pass hnodup hp⟩
  rw [hp.pte v hv, PGNUM_add_pages hlt, h.pte v hv]
  by_cases hvn : v = PGNUM va + n
  · rw [if_pos hvn, if_pos (by omega), hvn, Nat.add_sub_cancel_left]
  · rw [if_neg hvn]
    by_cases hin : PGNUM va ≤ v ∧ v < PGNUM va + n
    · rw [if_pos hin, if_pos (by omega)]
    · rw [if_neg hin, if_neg (by omega)]

/-- The directory entry of a page of the region. -/
theorem PDX_mem_pdesOf {k : ℕ} (hk : k < n) (hlt : PGNUM va + k < 2 ^ 20) :
    PDX (va + BitVec.ofNat 32 k * PGSIZE) ∈ pdesOf (PGNUM va) n := by
  rw [PDX_eq, PGNUM_add_pages hlt]
  exact Finset.mem_image_of_mem _ (Finset.mem_range.mpr hk)

/-- **`boot_map_region`** when it comes to its end. -/
theorem Paging.bootMapRegion_ok (h : Paging m d W l) (hn : PGNUM (ROUNDUP size PGSIZE) = n)
    (hva : PGNUM va + n ≤ 2 ^ 20)
    (hW : ∀ i ∈ pdesOf (PGNUM va) n, W i) (hr : bootMapRegion m d va size pa perm = .ok m') :
    ∃ l', RegionSet m d W l va pa perm n m' l' := by
  let I : ℕ → Mem → Prop := fun k m₁ => ∃ l₁, RegionSet m d W l va pa perm k m₁ l₁
  have hzero : I 0 m := ⟨l, RegionSet.refl h⟩
  rw [bootMapRegion, hn] at hr
  refine foldlM_range (I := I) hr hzero fun k hk m₁ m₂ hI hpass => ?_
  obtain ⟨l₁, h₁⟩ := hI
  have hlt : PGNUM va + k < 2 ^ 20 := by omega
  have hWk := hW _ (PDX_mem_pdesOf hk hlt)
  rcases h₁.paging.bootMapPage_cases (pa + BitVec.ofNat 32 k * PGSIZE) perm hWk with
    ⟨hfail, -⟩ | ⟨m₃, l₃, hm₃, hp⟩
  · rw [hfail] at hpass
    cases hpass
  · rw [hm₃] at hpass
    cases hpass
    exact ⟨l₃, h₁.pass h.chain.nodup hlt hp⟩

/-- **`boot_map_region`** comes to its end when there are pages for the tables. -/
theorem Paging.bootMapRegion_spec (h : Paging m d W l) (pa perm : Word)
    (hn : PGNUM (ROUNDUP size PGSIZE) = n)
    (hva : PGNUM va + n ≤ 2 ^ 20) (hW : ∀ i ∈ pdesOf (PGNUM va) n, W i)
    (hroom : (lacking m d (pdesOf (PGNUM va) n)).card ≤ l.length) :
    ∃ m', bootMapRegion m d va size pa perm = .ok m' ∧ ∃ l', RegionSet m d W l va pa perm n m' l' ∧
      (lacking m' d (pdesOf (PGNUM va) n)).card ≤ l'.length := by
  let I : ℕ → Mem → Prop := fun k m₁ => ∃ l₁, RegionSet m d W l va pa perm k m₁ l₁ ∧
    (lacking m₁ d (pdesOf (PGNUM va) n)).card ≤ l₁.length
  have hzero : I 0 m := ⟨l, RegionSet.refl h, hroom⟩
  rw [bootMapRegion, hn]
  refine foldlM_range_total (I := I) hzero fun k hk m₁ hI => ?_
  obtain ⟨l₁, h₁, hroom₁⟩ := hI
  have hlt : PGNUM va + k < 2 ^ 20 := by omega
  have hR := PDX_mem_pdesOf hk hlt
  rcases h₁.paging.bootMapPage_cases (pa + BitVec.ofNat 32 k * PGSIZE) perm (hW _ hR) with
    ⟨-, rfl, hP⟩ | ⟨m₂, l₂, hm₂, hp⟩
  · -- the entry lacks a table, so there is a page for it
    have hpos : 0 < (lacking m₁ d (pdesOf (PGNUM va) n)).card :=
      Finset.card_pos.mpr ⟨_, Finset.mem_filter.mpr ⟨hR, hP⟩⟩
    simp only [List.length_nil] at hroom₁
    omega
  · exact ⟨m₂, hm₂, l₂, h₁.pass h.chain.nodup hlt hp, hp.lacking_le hR hroom₁⟩

/-- What `boot_map_region` is there for: `va + k` is mapped to `pa + k` for every `k` below `size`,
the other addresses of the entries `S` are mapped as before, and of the reference counts only those
of new tables change. -/
structure MapsRegion (m : Mem) (d : ℕ) (S : ℕ → Prop) (l : List ℕ) (va size pa perm : Word)
    (m' : Mem) (l' : List ℕ) :
    Prop where
  mapped : ∀ k < size.toNat, ∃ pte, translate m' d (va + BitVec.ofNat 32 k) = some pte ∧
    (PTE_ADDR pte).toNat + k % 4096 = pa.toNat + k ∧ pte &&& 0xFFF = perm ||| PTE_P
  others : ∀ a : Word, S (PDX a) → ¬ (va.toNat ≤ a.toNat ∧ a.toNat < va.toNat + size.toNat) →
    translate m' d a = translate m d a
  tables : TablesMade m d l m' l'

/-- **`boot_map_region` maps exactly its range**, when the entries of the range are page tables, and
there is a free page for each that has to be made. -/
theorem bootMapRegion_exact (h : Paging m d W l) (hva : va.toNat % 4096 = 0)
    (hpa : pa.toNat % 4096 = 0)
    (hsize : size.toNat % 4096 = 0) (hvs : va.toNat + size.toNat ≤ 2 ^ 32)
    (hps : pa.toNat + size.toNat ≤ 2 ^ 32)
    (hperm : IsFlags perm) (hW : ∀ i ∈ pdesOf (PGNUM va) (PGNUM size), W i)
    (hroom : (lacking m d (pdesOf (PGNUM va) (PGNUM size))).card ≤ l.length) :
    ∃ m', bootMapRegion m d va size pa perm = .ok m' ∧ ∃ l',
        MapsRegion m d W l va size pa perm m' l' := by
  have hs := size.isLt
  have hround : PGNUM (ROUNDUP size PGSIZE) = PGNUM size := by
    rw [PGNUM_eq, PGNUM_eq, ROUNDUP_toNat]
    omega
  have hfit : PGNUM va + PGNUM size ≤ 2 ^ 20 := by
    rw [PGNUM_eq, PGNUM_eq]
    omega
  obtain ⟨m', hm', l', hset, -⟩ := h.bootMapRegion_spec pa perm hround hfit hW hroom
  refine ⟨m', hm', l', ⟨fun k hk => ?_, fun a ha hout => ?_, hset.tables⟩⟩
  · have hnum : PGNUM (va + BitVec.ofNat 32 k) = PGNUM va + k / 4096 := by
      rw [PGNUM_eq, PGNUM_eq, BitVec.toNat_add, BitVec.toNat_ofNat]
      omega
    have hk' : k / 4096 < PGNUM size := by
      rw [PGNUM_eq]
      omega
    have hpage : PGNUM pa + k / 4096 < 2 ^ 20 := by
      rw [PGNUM_eq]
      omega
    have hpde : (PGNUM va + k / 4096) / 1024 ∈ pdesOf (PGNUM va) (PGNUM size) :=
      Finset.mem_image_of_mem _ (Finset.mem_range.mpr hk')
    have hpte : dirPte m'.phys d (PGNUM (va + BitVec.ofNat 32 k)) =
        mkPte (PGNUM pa + k / 4096) perm := by
      rw [hnum, hset.pte _ (hW _ hpde), if_pos (by omega), Nat.add_sub_cancel_left,
        mkPte, ← page2pa_add hpage,
        page2pa_PGNUM hpa]
    refine ⟨_, translate_of_dirPte hpte (test_mkPte_P _ _), ?_, mkPte_and hperm⟩
    rw [PTE_ADDR_eq, PGNUM_mkPte hpage hperm, page2pa_toNat hpage, PGNUM_eq]
    omega
  · refine translate_of_same_dirPte ?_
    rw [PDX_eq] at ha
    rw [hset.pte _ ha, if_neg]
    rw [PGNUM_eq, PGNUM_eq, PGNUM_eq]
    omega

/-- Page 1 is free after boot. -/
theorem bootMem_free_pos (hl : ∀ p, p ∈ l ↔ bootMem.Managed p ∧ ∀ i, bootMem.KernTable i →
    bootMem.kernTable i ≠ p) :
    1 ≤ l.length := by
  have h1 : 1 ∈ l := (hl 1).mpr (free_bootMem.mpr (by decide))
  exact List.length_pos_of_mem h1

/-- Two pages on both sides of `UTOP`, the first of which needs a table. -/
theorem bootMapRegion_exact_bootMem : ∃ m' l l',
    bootMapRegion bootMem 0x300 0xeebff000 0x2000 0x5000 PTE_W = .ok m' ∧
    MapsRegion bootMem 0x300 (fun i => i < NPDENTRIES ∧ i ≠ PDX UVPT) l 0xeebff000 0x2000 0x5000
      PTE_W m' l' := by
  obtain ⟨l, h, hl⟩ := bootMem_booted.paging
  have hR : pdesOf (PGNUM 0xeebff000) (PGNUM 0x2000) = {954, 955} := by decide
  have hcard : (lacking bootMem 0x300 (pdesOf (PGNUM 0xeebff000) (PGNUM 0x2000))).card = 1 := by
    rw [hR]; decide
  have hlen := bootMem_free_pos hl
  have hW : ∀ i ∈ pdesOf (PGNUM 0xeebff000) (PGNUM 0x2000), i < NPDENTRIES ∧ i ≠ PDX UVPT := by
    rw [hR]; decide
  obtain ⟨m', hm', l', hmaps⟩ : ∃ m', bootMapRegion bootMem 0x300 0xeebff000 0x2000 0x5000 PTE_W =
    .ok m' ∧ ∃ l', MapsRegion bootMem 0x300
      (fun i => i < NPDENTRIES ∧ i ≠ PDX UVPT) l 0xeebff000 0x2000 0x5000 PTE_W m' l' :=
    bootMapRegion_exact h (by decide) (by decide) (by decide) (by decide) (by decide) (by decide) hW
      (le_of_eq_of_le hcard hlen)
  exact ⟨m', l, l', hm', hmaps⟩

/-- **The window of a directory that names itself**: all entries of `kern_pgdir` have tables of
their own, the one at `UVPT` the directory; and a table made for the first entry can be seen at
`UVPT` afterwards. -/
theorem bootMapRegion_window :
    (∀ i < NPDENTRIES, ∀ j < NPDENTRIES, ∀ t, Names (bootMem.phys 0x300 i) t →
    Names (bootMem.phys 0x300 j) t → i = j) ∧
      (∃ m', bootMapRegion bootMem 0x300 0 PGSIZE 0 PTE_W = .ok m') ∧
      ∀ m' l l', bootMapRegion bootMem 0x300 0 PGSIZE 0 PTE_W = .ok m' →
        ¬ MapsRegion bootMem 0x300 (fun _ => True) l 0 PGSIZE 0 PTE_W m' l' := by
  have hrun : (bootMapRegion bootMem 0x300 0 PGSIZE 0 PTE_W).map
      (fun m' => (translate m' 0x300 UVPT).isSome) = .ok true := by
    decide +kernel
  obtain ⟨l₀, h, -⟩ := bootMem_booted.paging
  have hself : ∀ t, Names (bootMem.phys 0x300 (PDX UVPT)) t → t = bootMem.kernPgdir := fun t hn =>
    names_unique hn (show Names (bootMem.phys 0x300 (PDX UVPT)) 0x300 by decide)
  refine ⟨fun i hi j hj t hn hn' => ?_, ?_, fun m' l l' hm' hmaps => ?_⟩
  · by_cases hiv : i = PDX UVPT
    · by_cases hjv : j = PDX UVPT
      · rw [hiv, hjv]
      · rw [hiv] at hn
        rw [hself t hn] at hn'
        exact absurd hn' (h.own.ne j ⟨hj, hjv⟩)
    · by_cases hjv : j = PDX UVPT
      · rw [hjv] at hn'
        rw [hself t hn'] at hn
        exact absurd hn (h.own.ne i ⟨hi, hiv⟩)
      · exact h.own.inj i j t ⟨hi, hiv⟩ ⟨hj, hjv⟩ hn hn'
  · cases h : bootMapRegion bootMem 0x300 0 PGSIZE 0 PTE_W with
    | error e =>
      rw [h] at hrun
      cases hrun
    | ok m' => exact ⟨m', rfl⟩
  · rw [hm'] at hrun
    have hothers := hmaps.others UVPT trivial (by decide)
    have hnone : translate bootMem 0x300 UVPT = none := by decide +kernel
    simp [Except.map, hothers, hnone] at hrun

end JOS
