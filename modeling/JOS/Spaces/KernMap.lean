import JOS.Memory.Directory
import JOS.Kern.MemInit
import Mathlib.Data.Finset.Card
import Mathlib.Order.Interval.Finset.Nat

/-!
# What `boot_map_region` maps

The kernel's half of `kern_pgdir` while `mem_init` fills it: its tables come from the
free list, one for each entry of the directory (`KernMap`). `bootMapRegion_maps` says
which entry the directory has for every page of the half after a region is mapped: the
entries of the region are the ones asked for, and all others are as they were. A region
can be mapped as long as there is a free page for each entry that has no table yet
(`Room`).
-/

namespace JOS

open JOS.General

open Function (update)

variable {m m' : Mem} {l l' : List ℕ} {i n p t v : ℕ} {va size pa perm : Word}

/-- The entries of the kernel's half, without the one for the directory itself. -/
def InKern (i : ℕ) : Prop := NUPDX ≤ i ∧ i < NPDENTRIES ∧ i ≠ PDX UVPT

instance (i : ℕ) : Decidable (InKern i) := inferInstanceAs (Decidable (_ ∧ _ ∧ _))

/-- The free list is `l`, and the kernel's half has tables of its own. -/
structure KernMap (m : Mem) (l : List ℕ) : Prop where
  list : FreeList m l
  dir : m.kernPgdir ∉ l
  own : OwnTables m.phys m.kernPgdir InKern
  /-- A table is not free. -/
  fresh : ∀ i, InKern i → ∀ t ∈ l, ¬ Names (m.phys m.kernPgdir i) t
  /-- The entries are those of `pgdir_walk`. -/
  pde : ∀ i, InKern i → test (m.phys m.kernPgdir i) PTE_P = true → ∃ t < 2 ^ 20,
    m.phys m.kernPgdir i = newPde t

/-! ### One page -/

/-- What is left after the entry of `va` has become `w`: if there was no table, the first free page
is one. -/
structure PageMapped (m : Mem) (l : List ℕ) (va w : Word) (m' : Mem) (l' : List ℕ) : Prop where
  map : KernMap m' l'
  base : SameBase m m'
  pte : ∀ v, InKern (v / 1024) → dirPte m'.phys m'.kernPgdir v = if v = PGNUM va then w
    else dirPte m.phys m.kernPgdir v
  /-- The other entries of the directory stay. -/
  pde : ∀ i, i ≠ PDX va → m'.phys m'.kernPgdir i = m.phys m.kernPgdir i
  taken : l' = l ∧ m'.phys m'.kernPgdir (PDX va) = m.phys m.kernPgdir (PDX va) ∨
    ∃ p, l = p :: l' ∧ test (m.phys m.kernPgdir (PDX va)) PTE_P ≠ true ∧
    Names (m'.phys m'.kernPgdir (PDX va)) p

/-- An entry of a table that is there is written. -/
theorem KernMap.setPte (hk : KernMap m l) (hva : InKern (PDX va))
    (ht : Names (m.phys m.kernPgdir (PDX va)) t) (w : Word) :
    PageMapped m l va w (m.setWord t (PTX va) w) l := by
  have hne : m.kernPgdir ≠ t := fun he => hk.own.ne _ hva (he ▸ ht)
  have hdir : ∀ i, (m.setWord t (PTX va) w).phys m.kernPgdir i = m.phys m.kernPgdir i := by
    intro i
    rw [setWord_phys, setW_of_ne hne]
  exact {
    map := {
      list := hk.list.congr rfl rfl
      dir := hk.dir
      own := hk.own.setPte hne
      fresh := fun i hi q hq hn => hk.fresh i hi q hq (by rwa [← hdir i])
      pde := fun i hi hP => by
        obtain ⟨q, hq, h⟩ := hk.pde i hi (by rwa [← hdir i])
        exact ⟨q, hq, (hdir i).trans h⟩ }
    base := ⟨rfl, rfl, rfl, rfl⟩
    pte := fun v hv => by
      rw [PDX_eq] at hva ht
      rw [setWord_phys, PTX_eq]
      exact hk.own.dirPte_setPte hva hv ht
    pde := fun i _ => hdir i
    taken := .inl ⟨rfl, hdir _⟩ }

/-- The first free page becomes the table of an entry. -/
theorem KernMap.newTable (hk : KernMap m (p :: l))
    (hP : test (m.phys m.kernPgdir (PDX va)) PTE_P ≠ true)
    (hl : FreeList m' l) (hbase : SameBase m m')
    (hphys : m'.phys = setW (update m.phys p fun _ => 0) m.kernPgdir (PDX va) (newPde p)) :
    KernMap m' l ∧ Names (m'.phys m'.kernPgdir (PDX va)) p ∧
      (∀ i, i ≠ PDX va → m'.phys m'.kernPgdir i = m.phys m.kernPgdir i) ∧
      ∀ v, InKern (v / 1024) → dirPte m'.phys m'.kernPgdir v = dirPte m.phys m.kernPgdir v := by
  have hp20 := hk.list.lt p List.mem_cons_self
  have hpd : p ≠ m.kernPgdir := fun he => hk.dir (he ▸ List.mem_cons_self)
  have hpl : p ∉ l := (List.nodup_cons.mp hk.list.chain.nodup).1
  have hfresh : ∀ j, InKern j → ¬ Names (m.phys m.kernPgdir j) p :=
    fun j hj => hk.fresh j hj p List.mem_cons_self
  have hdir : ∀ i, i ≠ PDX va → m'.phys m'.kernPgdir i = m.phys m.kernPgdir i := by
    intro i hi
    rw [hphys, hbase.kernPgdir, setW_of_ne_index hi, Function.update_of_ne (Ne.symm hpd)]
  have hself : m'.phys m'.kernPgdir (PDX va) = newPde p := by rw [hphys, hbase.kernPgdir, setW_self]
  refine ⟨{ list := hl, dir := ?_, own := ?_, fresh := ?_, pde := ?_ }, ?_, hdir, ?_⟩
  · rw [hbase.kernPgdir]
    exact fun hd => hk.dir (List.mem_cons_of_mem _ hd)
  · rw [hphys, hbase.kernPgdir]
    exact hk.own.newTable hpd hfresh (names_newPde hp20)
  · intro i hi q hq hn
    by_cases hiv : i = PDX va
    · rw [hiv, hself] at hn
      exact hpl (names_unique (names_newPde hp20) hn ▸ hq)
    · rw [hdir i hiv] at hn
      exact hk.fresh i hi q (List.mem_cons_of_mem _ hq) hn
  · intro i hi hPi
    by_cases hiv : i = PDX va
    · exact ⟨p, hp20, by rw [hiv, hself]⟩
    · rw [hdir i hiv] at hPi ⊢
      exact hk.pde i hi hPi
  · rw [hself]
    exact names_newPde hp20
  · intro v hv
    rw [hphys, hbase.kernPgdir]
    exact hk.own.dirPte_newTable hv hP hpd hfresh (names_newPde hp20)

/-- **One pass of `boot_map_region`** writes the entry of its page and no other. -/
theorem KernMap.bootMapPage (hk : KernMap m l) (hva : InKern (PDX va))
    (h : bootMapPage m m.kernPgdir va pa perm = .ok m') :
    ∃ l', PageMapped m l va (pa ||| perm ||| PTE_P) m' l' := by
  obtain ⟨⟨o, m₁⟩, hwalk, h⟩ := bind_eq_ok.mp h
  cases o with
  | none => cases h
  | some pte =>
    cases h
    rcases pgdirWalk_list hk.list hwalk with ⟨rfl, rfl, hP⟩ |
      ⟨hP, p, t, rfl, rfl, hl, hbase, -, -, hphys⟩
    · exact ⟨l, hk.setPte hva ⟨hP, rfl⟩ _⟩
    · obtain ⟨hk₁, hn, hdir, hpte⟩ := hk.newTable hP hl hbase hphys
      have hmap := hk₁.setPte hva hn (pa ||| perm ||| PTE_P)
      refine ⟨t, hmap.map, hbase.trans hmap.base, fun v hv => ?_, fun i hi => ?_,
        .inr ⟨p, rfl, hP, ?_⟩⟩
      · rw [hmap.pte v hv, hpte v hv]
      · rw [hmap.pde i hi, hdir i hi]
      · rcases hmap.taken with ⟨-, h⟩ | ⟨q, h, -⟩
        · rw [h]
          exact hn
        · simp at h

/-! ### A region -/

/-- What is left after the first `n` pages from `va` on have been mapped to those from `pa` on. -/
structure RegionMapped (m : Mem) (va pa perm : Word) (n : ℕ) (m' : Mem) : Prop where
  map : ∃ l, KernMap m' l
  base : SameBase m m'
  pte : ∀ v, InKern (v / 1024) → dirPte m'.phys m'.kernPgdir v =
    if PGNUM va ≤ v ∧ v < PGNUM va + n then (pa + BitVec.ofNat 32 (v - PGNUM va) * PGSIZE) |||
      perm ||| PTE_P
    else dirPte m.phys m.kernPgdir v

theorem RegionMapped.pass {w : Word} {m₁ : Mem} (h : RegionMapped m va pa perm n m₁)
    (hva : PGNUM va + n < 2 ^ 20)
    (hw : w = (pa + BitVec.ofNat 32 n * PGSIZE) ||| perm ||| PTE_P)
    (hp : PageMapped m₁ l (va + BitVec.ofNat 32 n * PGSIZE) w m' l') :
    RegionMapped m va pa perm (n + 1) m' := by
  refine ⟨⟨l', hp.map⟩, h.base.trans hp.base, fun v hv => ?_⟩
  rw [hp.pte v hv, PGNUM_add_pages hva, h.pte v hv, hw]
  by_cases hvn : v = PGNUM va + n
  · rw [if_pos hvn, if_pos (by omega), hvn, Nat.add_sub_cancel_left]
  · rw [if_neg hvn]
    by_cases hin : PGNUM va ≤ v ∧ v < PGNUM va + n
    · rw [if_pos hin, if_pos (by omega)]
    · rw [if_neg hin, if_neg (by omega)]

/-- **`boot_map_region`**: the pages of the region are mapped as asked, and nothing else of the
kernel's half changes. -/
theorem bootMapRegion_maps (hk : KernMap m l) (hn : PGNUM (ROUNDUP size PGSIZE) = n)
    (hva : PGNUM va + n ≤ 2 ^ 20)
    (hin : ∀ i < n, InKern ((PGNUM va + i) / 1024))
    (h : bootMapRegion m m.kernPgdir va size pa perm = .ok m') :
    RegionMapped m va pa perm n m' := by
  rw [bootMapRegion, hn] at h
  let I : ℕ → Mem → Prop := fun k m₁ => RegionMapped m va pa perm k m₁
  have hzero : I 0 m := ⟨⟨l, hk⟩, SameBase.refl m, fun v _ => by rw [if_neg (by omega)]⟩
  refine foldlM_range (I := I) h hzero fun k hk' m₁ m₂ hI hpage => ?_
  obtain ⟨l₁, hk₁⟩ := hI.map
  have hlt : PGNUM va + k < 2 ^ 20 := by omega
  rw [← hI.base.kernPgdir] at hpage
  obtain ⟨l₂, hmap⟩ := hk₁.bootMapPage (by rw [PDX_eq, PGNUM_add_pages hlt]; exact hin k hk') hpage
  exact hI.pass hlt rfl hmap

/-! ### Room for the tables -/

/-- The entries that have no table yet. -/
def absentPdes (m : Mem) : Finset ℕ :=
  (Finset.range NPDENTRIES).filter fun i => InKern i ∧ test (m.phys m.kernPgdir i) PTE_P ≠ true

theorem mem_absentPdes : i ∈ absentPdes m ↔ InKern i ∧
    test (m.phys m.kernPgdir i) PTE_P ≠ true := by
  rw [absentPdes, Finset.mem_filter, Finset.mem_range]
  exact ⟨fun h => h.2, fun h => ⟨h.1.2.1, h⟩⟩

/-- There are more free pages than entries without a table, and all of these pages are there. -/
structure Room (m : Mem) (l : List ℕ) : Prop where
  free_lt : ∀ p ∈ l, p < m.npages
  table_lt : ∀ i, InKern i → ∀ t, Names (m.phys m.kernPgdir i) t → t < m.npages
  absent : (absentPdes m).card < l.length

theorem PageMapped.room {w : Word} (hr : Room m l) (h : PageMapped m l va w m' l')
    (hva : InKern (PDX va)) : Room m' l' := by
  rcases h.taken with ⟨rfl, hself⟩ | ⟨p, rfl, hP, hn⟩
  · have hdir : ∀ i, m'.phys m'.kernPgdir i = m.phys m.kernPgdir i := by
      intro i
      by_cases hi : i = PDX va
      · rw [hi, hself]
      · exact h.pde i hi
    have habs : absentPdes m' = absentPdes m := by
      ext i
      rw [mem_absentPdes, mem_absentPdes, hdir i]
    refine ⟨fun p hp => by rw [h.base.npages]; exact hr.free_lt p hp, fun i hi t hn => ?_, ?_⟩
    · rw [hdir i] at hn
      rw [h.base.npages]
      exact hr.table_lt i hi t hn
    · rw [habs]
      exact hr.absent
  · refine ⟨fun q hq => by rw [h.base.npages]; exact hr.free_lt q (List.mem_cons_of_mem _
      hq), fun i hi t ht => ?_, ?_⟩
    · rw [h.base.npages]
      by_cases hiv : i = PDX va
      · rw [hiv] at ht
        rw [← names_unique hn ht]
        exact hr.free_lt p List.mem_cons_self
      · rw [h.pde i hiv] at ht
        exact hr.table_lt i hi t ht
    · -- the entry of `va` had no table, and has one now
      have habs : absentPdes m' = (absentPdes m).erase (PDX va) := by
        ext i
        rw [Finset.mem_erase, mem_absentPdes, mem_absentPdes]
        by_cases hiv : i = PDX va
        · rw [hiv]
          simp [hn.1]
        · rw [h.pde i hiv]
          simp [hiv]
      have hcard := hr.absent
      rw [habs, Finset.card_erase_of_mem (mem_absentPdes.mpr ⟨hva, hP⟩)]
      have hpos : 0 < (absentPdes m).card := Finset.card_pos.mpr ⟨_, mem_absentPdes.mpr ⟨hva, hP⟩⟩
      simp only [List.length_cons] at hcard
      omega

/-- `boot_map_region` does not fail when there is room. -/
theorem bootMapRegion_total (hk : KernMap m l) (hr : Room m l)
    (hn : PGNUM (ROUNDUP size PGSIZE) = n)
    (hva : PGNUM va + n ≤ 2 ^ 20) (hin : ∀ i < n, InKern ((PGNUM va + i) / 1024)) :
    ∃ m', bootMapRegion m m.kernPgdir va size pa perm = .ok m' ∧ SameBase m m' ∧ ∃ l',
        KernMap m' l' ∧ Room m' l' := by
  rw [bootMapRegion, hn]
  let I : ℕ → Mem → Prop := fun _ m₁ => SameBase m m₁ ∧ ∃ l₁, KernMap m₁ l₁ ∧ Room m₁ l₁
  have hzero : I 0 m := ⟨SameBase.refl m, l, hk, hr⟩
  refine foldlM_range_total (I := I) hzero fun k hk' m₁ hI => ?_
  obtain ⟨hbase, l₁, hk₁, hr₁⟩ := hI
  have hlt : PGNUM va + k < 2 ^ 20 := by omega
  have hva₁ : InKern (PDX (va + BitVec.ofNat 32 k * PGSIZE)) := by
    rw [PDX_eq, PGNUM_add_pages hlt]
    exact hin k hk'
  obtain ⟨m₂, hm₂⟩ : ∃ m₂, bootMapPage m₁ m₁.kernPgdir (va + BitVec.ofNat 32 k * PGSIZE)
      (pa + BitVec.ofNat 32 k * PGSIZE) perm = .ok m₂ := by
    cases l₁ with
    | nil => exact absurd hr₁.absent (Nat.not_lt_zero _)
    | cons p l₁ =>
      obtain ⟨pte, m₂, hwalk⟩ : ∃ pte m₂,
        pgdirWalk m₁ m₁.kernPgdir (va + BitVec.ofNat 32 k * PGSIZE) true = .ok (some pte, m₂) :=
        pgdirWalk_total hk₁.list (hr₁.free_lt p List.mem_cons_self) (hr₁.table_lt _ hva₁)
      exact ⟨_, bind_eq_ok.mpr ⟨_, hwalk, rfl⟩⟩
  obtain ⟨l₂, hmap⟩ := hk₁.bootMapPage hva₁ hm₂
  exact ⟨m₂, by rw [← hbase.kernPgdir]; exact hm₂, hbase.trans hmap.base, l₂, hmap.map,
    hmap.room hr₁ hva₁⟩

end JOS
