import JOS.Spaces.KernMap
import JOS.Memory.Allocator
import JOS.Memory.UserMem

/-!
# The read-only windows above `UTOP`

`mem_init` maps the arrays `pages` and `envs` for user programs to read, at `UPAGES` and
`UENVS`. `memInitAlloc_arrays` says where `boot_alloc` places the arrays, and
`memInitMap_windows` which entry the directory has for every page of the two windows. The
window at `UENVS` has the length of a whole table, so it goes on behind the array
(`memInit_exposes`), into the pages that `page_init` makes free.

The self-tests of the page allocator, which `mem_init` runs in between, are described by
what they leave (`Checked`).
-/

namespace JOS

open JOS.General

open Function (update)

variable {m m' m₁ : Mem} {l l' : List ℕ} {i n p v : ℕ} {fin pages envs bootstack va : Word}
  {percpuKstacks : ℕ → Word}

/-! ### Where the arrays are -/

/-- The kernel's image ends in the four megabytes that the entry page directory maps, and behind the
I/O hole; memory is detected, and nothing is allocated. -/
structure Layout (fin : Word) (m : Mem) : Prop where
  fin_ge : KERNBASE + EXTPHYSMEM ≤ fin
  fin_le : fin ≤ KERNBASE + PTSIZE
  npages_le : m.npages ≤ 2 ^ 20
  basemem_le : m.npagesBasemem ≤ PGNUM IOPHYSMEM
  nextfree : m.nextfree = 0
  pageFreeList : m.pageFreeList = none

/-- Page number of an address of the kernel at which memory is mapped. -/
def kpage (kva : Word) : ℕ := PGNUM (kva - KERNBASE)

/-- The number of pages of an array of `size` bytes. -/
def numPages (size : Word) : ℕ := (size.toNat + 4095) / 4096

/-- What `mem_init` has allocated when `page_init` is done. -/
structure BootArrays (m : Mem) (pages envs : Word) (m' : Mem) : Prop where
  npages : m'.npages = m.npages
  npagesBasemem : m'.npagesBasemem = m.npagesBasemem
  npages_lt : m.npages < 65536
  dir_ge : PGNUM EXTPHYSMEM ≤ m'.kernPgdir
  dir_le : m'.kernPgdir ≤ 1024
  /-- The arrays are behind the directory, one behind the other. -/
  pages_at : pages.toNat = KERNBASE.toNat + (m'.kernPgdir + 1) * 4096
  envs_at : envs.toNat = pages.toNat + numPages (pageInfoSize m) * 4096
  nextfree_at : m'.nextfree.toNat = envs.toNat + numPages envSize * 4096
  /-- The free list is that of `page_init`. -/
  free : ∃ l, FreeList m' l ∧ ∀ p, p ∈ l ↔ m'.Managed p
  /-- The directory has its own entry only. -/
  dir : ∀ i, i ≠ PDX UVPT → m'.phys m'.kernPgdir i = 0
  uvpt : m'.phys m'.kernPgdir (PDX UVPT) = page2pa m'.kernPgdir ||| PTE_U ||| PTE_P

/-- What `boot_alloc` of `n` bytes does: `nextfree` moves on, and memory is as it was. -/
structure BootAllocated (m : Mem) (n a : Word) (m' : Mem) : Prop where
  addr : a = m.nextfree
  le : m.nextfree ≤ KERNBASE + BitVec.ofNat 32 m.npages * PGSIZE
  nextfree : m'.nextfree = ROUNDUP (m.nextfree + n) PGSIZE
  npages : m'.npages = m.npages
  npagesBasemem : m'.npagesBasemem = m.npagesBasemem
  kernPgdir : m'.kernPgdir = m.kernPgdir
  pageFreeList : m'.pageFreeList = m.pageFreeList
  phys : m'.phys = m.phys

theorem bootAlloc_eq {n a : Word} (h : bootAlloc fin m n = .ok (a, m')) (hm : m.nextfree ≠ 0)
    (hn : 0 < n) :
    BootAllocated m n a m' := by
  simp only [bootAlloc, if_neg hm, gt_iff_lt, if_pos hn] at h
  split_ifs at h with hfree
  cases h
  exact ⟨rfl, BitVec.not_lt.mp hfree, rfl, rfl, rfl, rfl, rfl, rfl⟩

theorem bootAlloc_zero (hm : m.nextfree ≠ 0) : bootAlloc fin m 0 = .ok (m.nextfree, m) := by
  simp only [bootAlloc, if_neg hm]
  rw [if_neg (by decide)]

theorem pageInitPage_phys (m : Mem) (i : ℕ) : (pageInitPage m i).phys = m.phys := by
  unfold pageInitPage
  split_ifs <;> rfl

theorem pageInit_phys (m : Mem) : (pageInit m).phys = m.phys := by
  rw [pageInit]
  induction m.npages with
  | zero => rfl
  | succ n ih => rw [List.range_succ, List.foldl_append, List.foldl_cons, List.foldl_nil,
    pageInitPage_phys, ih]

theorem numPages_envSize : numPages envSize = 31 := by decide

theorem pageInfoSize_toNat (h : m.npages < 65536) : (pageInfoSize m).toNat = 8 * m.npages := by
  rw [pageInfoSize, sizeofPageInfo, BitVec.toNat_mul, BitVec.toNat_ofNat, BitVec.toNat_ofNat]
  omega

/-- The next allocation begins at the next page. -/
theorem ROUNDUP_add_pages {a s : Word} (ha : a.toNat % 4096 = 0)
    (h : a.toNat + s.toNat + 4095 < 2 ^ 32) :
    (ROUNDUP (a + s) PGSIZE).toNat = a.toNat + numPages s * 4096 := by
  rw [ROUNDUP_add_toNat, numPages]
  omega

/-- The first call of `boot_alloc` finds `nextfree` null. -/
theorem bootAlloc_first (hm : m.nextfree = 0) (hfin : ROUNDUP fin PGSIZE ≠ 0) (n : Word) :
    bootAlloc fin m n = bootAlloc fin { m with nextfree := ROUNDUP fin PGSIZE } n := by
  simp only [bootAlloc, hm, if_true, if_neg hfin]

/-- Memory that `boot_alloc` finds enough ends below the top of the address space. -/
theorem npages_lt_of_alloc {a : Word} (hn : m.npages ≤ 2 ^ 20) (ha : 0xf0100000 ≤ a.toNat)
    (h : a ≤ KERNBASE + BitVec.ofNat 32 m.npages * PGSIZE) : m.npages < 65536 := by
  have hle := BitVec.le_def.mp h
  rw [BitVec.toNat_add, BitVec.toNat_mul, BitVec.toNat_ofNat, PGSIZE_toNat,
    show KERNBASE.toNat = 0xf0000000 from rfl] at hle
  omega

theorem ne_zero_of_lt_toNat {w : Word} (h : 0 < w.toNat) : w ≠ 0 := by
  rintro rfl
  simp at h

/-- The next allocation goes on behind the array. -/
theorem BootAllocated.next {n a : Word} (h : BootAllocated m n a m')
    (hround : m.nextfree.toNat % 4096 = 0)
    (hfit : m.nextfree.toNat + n.toNat + 4095 < 2 ^ 32) :
    m'.nextfree.toNat = a.toNat + numPages n * 4096 := by
  rw [h.nextfree, h.addr]
  exact ROUNDUP_add_pages hround hfit

/-- The directory is the first page behind the kernel's image. -/
theorem bootAlloc_dir {kva : Word} (hl : Layout fin m)
    (h : bootAlloc fin m PGSIZE = .ok (kva, m₁)) :
    BootAllocated { m with nextfree := kva } PGSIZE kva m₁ ∧ 0 < m.npages ∧ m.npages < 65536 ∧
      kva.toNat % 4096 = 0 ∧
      0xf0100000 ≤ kva.toNat ∧ kva.toNat ≤ 0xf0400000 ∧ m₁.nextfree.toNat = kva.toNat + 4096 := by
  have hfin := BitVec.le_def.mp hl.fin_ge
  have hfin' := BitVec.le_def.mp hl.fin_le
  rw [show (KERNBASE + EXTPHYSMEM).toNat = 0xf0100000 by decide] at hfin
  rw [show (KERNBASE + PTSIZE).toNat = 0xf0400000 by decide] at hfin'
  have hK : (ROUNDUP fin PGSIZE).toNat = (fin.toNat + 4095) / 4096 * 4096 := by
    rw [ROUNDUP_toNat]
    omega
  have hK₀ : ROUNDUP fin PGSIZE ≠ 0 := ne_zero_of_lt_toNat (by omega)
  rw [bootAlloc_first hl.nextfree hK₀] at h
  have ha := bootAlloc_eq h hK₀ (by decide)
  have hkva : ROUNDUP fin PGSIZE = kva := ha.addr.symm
  rw [hkva] at ha hK
  have hfree : kva ≤ KERNBASE + BitVec.ofNat 32 m.npages * PGSIZE := ha.le
  have hpos : 0 < m.npages := by
    have hle := BitVec.le_def.mp hfree
    rw [BitVec.toNat_add, BitVec.toNat_mul, BitVec.toNat_ofNat, PGSIZE_toNat,
      show KERNBASE.toNat = 0xf0000000 from rfl] at hle
    omega
  refine ⟨ha, hpos, npages_lt_of_alloc hl.npages_le
    (by omega) hfree, by omega, by omega, by omega, ?_⟩
  rw [ha.next (show kva.toNat % 4096 = 0 by omega)
    (by rw [PGSIZE_toNat]; show kva.toNat + 4096 + 4095 < _; omega),
    show numPages PGSIZE = 1 by decide]

/-- The physical address of the directory. -/
theorem paddr_dir {kva pa : Word} (h : paddr kva = .ok pa) (hround : kva.toNat % 4096 = 0)
    (hge : 0xf0100000 ≤ kva.toNat) :
    pa = page2pa (kpage kva) ∧ kva.toNat = 0xf0000000 + kpage kva * 4096 := by
  have hlt := kva.isLt
  have hsub : (kva - KERNBASE).toNat = kva.toNat - 0xf0000000 := by
    rw [BitVec.toNat_sub_of_le
      (BitVec.le_def.mpr (by rw [show KERNBASE.toNat = 0xf0000000 from rfl]; omega))]
    rfl
  have hkva : kva.toNat = 0xf0000000 + kpage kva * 4096 := by
    rw [kpage, PGNUM_eq, hsub]
    omega
  refine ⟨?_, hkva⟩
  rw [paddr] at h
  split_ifs at h
  cases h
  refine BitVec.eq_of_toNat_eq ?_
  rw [page2pa_toNat (by omega), hsub]
  omega

/-- `page_init` puts the pages on the list that it manages. -/
theorem pageInit_list (hfl : m.pageFreeList = none) (hnp : m.npages < 65536) :
    SameBase m (pageInit m) ∧ ∃ l, FreeList (pageInit m) l ∧ ∀ p, p ∈ l ↔
        (pageInit m).Managed p := by
  obtain ⟨hbase, hchain⟩ := pageInit_passes hfl m.npages
  rw [← pageInit] at hbase hchain
  refine ⟨hbase, _, ⟨hchain, fun p hp => ?_⟩, fun p => ?_⟩
  · rw [List.mem_reverse, List.mem_filter, List.mem_range] at hp
    omega
  · rw [List.mem_reverse, List.mem_filter, List.mem_range, Mem.Managed, hbase.npages,
      hbase.npagesBasemem, hbase.nextfree]

/-- **`mem_init` up to `page_init`** places the directory and the arrays one behind the other. -/
theorem memInitAlloc_arrays (hl : Layout fin m) (h : memInitAlloc fin m = .ok (pages, envs, m')) :
    BootArrays m pages envs m' := by
  obtain ⟨⟨kva, m₁⟩, h₁, h⟩ := bind_eq_ok.mp h
  obtain ⟨pa, hpa, h⟩ := bind_eq_ok.mp h
  obtain ⟨⟨pages', m₂⟩, h₂, h⟩ := bind_eq_ok.mp h
  obtain ⟨⟨envs', m₃⟩, h₃, h⟩ := bind_eq_ok.mp h
  obtain ⟨⟨x, m₄⟩, h₄, h⟩ := bind_eq_ok.mp h
  dsimp only at h₂ h₃ h₄
  -- the directory
  obtain ⟨a₁, hpos, hnp, hround, hge, hle, hN₁⟩ := bootAlloc_dir hl h₁
  obtain ⟨rfl, hkva⟩ := paddr_dir hpa hround hge
  have hnp₁ : m₁.npages = m.npages := a₁.npages
  -- the array `pages`
  have hsize : (pageInfoSize m₁).toNat = 8 * m.npages := by
    rw [pageInfoSize_toNat (hnp₁ ▸ hnp), hnp₁]
  have hsize_pos : 0 < pageInfoSize m₁ := by
    rw [BitVec.lt_def, hsize]
    show 0 < 8 * m.npages
    omega
  have a₂ := bootAlloc_eq h₂ (ne_zero_of_lt_toNat (show 0 < m₁.nextfree.toNat by omega)) hsize_pos
  have hpages : pages' = m₁.nextfree := a₂.addr
  have hN₂ : m₂.nextfree.toNat = pages'.toNat + numPages (pageInfoSize m₁) * 4096 :=
    a₂.next (show m₁.nextfree.toNat % 4096 = 0 by omega)
      (show m₁.nextfree.toNat + (pageInfoSize m₁).toNat + 4095 < _ by omega)
  have hsame : pageInfoSize m₁ = pageInfoSize m := by rw [pageInfoSize, pageInfoSize, hnp₁]
  rw [← hpages] at hN₁
  have hcount : numPages (pageInfoSize m₁) ≤ 128 := by
    rw [numPages, hsize]
    omega
  -- the array `envs`
  have a₃ := bootAlloc_eq h₃ (ne_zero_of_lt_toNat (show 0 < m₂.nextfree.toNat by omega)) (by decide)
  have henvs : envs' = m₂.nextfree := a₃.addr
  have hN₃ : m₃.nextfree.toNat = envs'.toNat + numPages envSize * 4096 :=
    a₃.next (show m₂.nextfree.toNat % 4096 = 0 by omega)
      (show m₂.nextfree.toNat + envSize.toNat + 4095 <
        _ by rw [show envSize.toNat = 126976 by decide]; omega)
  rw [← henvs] at hN₂
  rw [numPages_envSize] at hN₃
  rw [bootAlloc_zero (ne_zero_of_lt_toNat (by omega))] at h₄
  cases h₄
  cases h
  -- `page_init`
  have hkd : m₃.kernPgdir = kpage kva := a₃.kernPgdir.trans a₂.kernPgdir
  have hphys : m₃.phys = setW (update m₁.phys (kpage kva) fun _ => 0) (kpage kva) (PDX UVPT)
      (page2pa (kpage kva) ||| PTE_U ||| PTE_P) := a₃.phys.trans a₂.phys
  have hnp₃ : m₃.npages = m.npages := (a₃.npages.trans a₂.npages).trans hnp₁
  have hbm₃ : m₃.npagesBasemem = m.npagesBasemem :=
    (a₃.npagesBasemem.trans a₂.npagesBasemem).trans a₁.npagesBasemem
  have hfl : m₃.pageFreeList = none :=
    ((a₃.pageFreeList.trans a₂.pageFreeList).trans a₁.pageFreeList).trans hl.pageFreeList
  obtain ⟨hbase, hfree⟩ := pageInit_list hfl (hnp₃ ▸ hnp)
  exact {
    npages := hbase.npages.trans hnp₃
    npagesBasemem := hbase.npagesBasemem.trans hbm₃
    npages_lt := hnp
    dir_ge := by
      rw [hbase.kernPgdir, hkd, show PGNUM EXTPHYSMEM = 256 by decide]
      omega
    dir_le := by
      rw [hbase.kernPgdir, hkd]
      omega
    pages_at := by
      rw [hbase.kernPgdir, hkd, hN₁, hkva, show KERNBASE.toNat = 0xf0000000 from rfl]
      omega
    envs_at := by
      rw [hN₂, hsame]
    nextfree_at := by
      rw [hbase.nextfree, hN₃, numPages_envSize]
    free := hfree
    dir := fun i hi => by
      rw [pageInit_phys, hbase.kernPgdir, hkd, hphys, setW_of_ne_index hi, Function.update_self]
    uvpt := by
      rw [pageInit_phys, hbase.kernPgdir, hkd, hphys, setW_self] }

/-! ### The windows -/

/-- What the self-tests between `page_init` and the first mapping leave: they permute the free list,
write to free pages, and keep one of these as the table of the window for devices. -/
structure Checked (m m' : Mem) : Prop where
  base : SameBase m m'
  list : ∃ l, FreeList m' l ∧ ∀ p ∈ l, m.OnFreeList p ∧
    ¬ Names (m'.phys m'.kernPgdir (PDX MMIOBASE)) p
  mmio : ∃ t < 2 ^ 20, m.OnFreeList t ∧ m'.phys m'.kernPgdir (PDX MMIOBASE) = newPde t
  pde : ∀ i, i ≠ PDX MMIOBASE → m'.phys m'.kernPgdir i = m.phys m.kernPgdir i

theorem kpage_of_toNat {a : Word} (h : a.toNat = KERNBASE.toNat + n * 4096) : kpage a = n := by
  have hk : KERNBASE.toNat = 0xf0000000 := rfl
  rw [kpage, PGNUM_eq, BitVec.toNat_sub_of_le (BitVec.le_def.mpr (by omega))]
  omega

theorem BootArrays.kpage_pages (ha : BootArrays m pages envs m') : kpage pages = m'.kernPgdir + 1 :=
  kpage_of_toNat ha.pages_at

theorem BootArrays.kpage_envs (ha : BootArrays m pages envs m') :
    kpage envs = kpage pages + numPages (pageInfoSize m) := by
  rw [ha.kpage_pages]
  refine kpage_of_toNat ?_
  rw [ha.envs_at, ha.pages_at]
  omega

/-- The frontier is right behind the array `envs`. -/
theorem BootArrays.kpage_nextfree (ha : BootArrays m pages envs m') :
    kpage m'.nextfree = kpage envs + 31 := by
  rw [ha.kpage_envs, ha.kpage_pages]
  refine kpage_of_toNat ?_
  rw [ha.nextfree_at, ha.envs_at, ha.pages_at, numPages_envSize]
  omega

theorem BootArrays.numPages_le (ha : BootArrays m pages envs m') :
    numPages (pageInfoSize m) ≤ 128 := by
  have := ha.npages_lt
  rw [numPages, pageInfoSize_toNat ha.npages_lt]
  omega

/-- What `page_init` decides about a page behind the I/O hole. -/
theorem pageInitFree_ext {b : ℕ} {w : Word} (hb : b ≤ PGNUM IOPHYSMEM) (hp : PGNUM EXTPHYSMEM ≤ p) :
    pageInitFree b w p = decide (kpage w ≤ p) := by
  have h₁ : PGNUM MPENTRY_PADDR = 7 := by decide
  have h₂ : PGNUM IOPHYSMEM = 160 := by decide
  have h₃ : PGNUM EXTPHYSMEM = 256 := by decide
  rw [h₂] at hb
  rw [h₃] at hp
  rw [pageInitFree, h₁, h₂, h₃, ← kpage, if_neg (by omega), if_neg (by omega), if_neg (by omega),
    if_neg (by omega)]
  by_cases hw : kpage w ≤ p
  · rw [if_neg (by omega), decide_eq_true hw]
  · rw [if_pos (by omega), decide_eq_false hw]

theorem not_managed_kernPgdir (ha : BootArrays m pages envs m')
    (hb : m.npagesBasemem ≤ PGNUM IOPHYSMEM) :
    ¬ m'.Managed m'.kernPgdir := by
  rintro ⟨-, h⟩
  rw [ha.npagesBasemem, pageInitFree_ext hb ha.dir_ge, decide_eq_true_eq, ha.kpage_nextfree,
    ha.kpage_envs, ha.kpage_pages] at h
  omega

/-- The directory before anything is mapped. -/
theorem Checked.kernMap (hc : Checked m m₁) (hdir : ∀ i, i ≠ PDX UVPT → m.phys m.kernPgdir i = 0)
    (hkd : ¬ m.OnFreeList m.kernPgdir) : ∃ l, KernMap m₁ l ∧
      ∀ v, v / 1024 < PDX UVPT → dirPte m₁.phys m₁.kernPgdir v = 0 := by
  obtain ⟨l, hl, hsub⟩ := hc.list
  obtain ⟨t, ht20, ht, hmmio⟩ := hc.mmio
  have hpde : ∀ i, InKern i → test (m₁.phys m₁.kernPgdir i) PTE_P = true → i = PDX MMIOBASE := by
    intro i hi hP
    by_contra hne
    rw [hc.pde i hne, hdir i hi.2.2, test_zero] at hP
    cases hP
  refine ⟨l, { list := hl, dir := ?_, own := ⟨?_, ?_⟩, fresh := ?_, pde := ?_ }, ?_⟩
  · rw [hc.base.kernPgdir]
    exact fun h => hkd (hsub _ h).1
  · intro i j q hi hj hn hn'
    rw [hpde i hi hn.1, hpde j hj hn'.1]
  · intro i hi hn
    rw [hpde i hi hn.1, hmmio] at hn
    rw [names_unique (names_newPde ht20) hn, hc.base.kernPgdir] at ht
    exact hkd ht
  · intro i hi q hq hn
    rw [hpde i hi hn.1] at hn
    exact (hsub q hq).2 hn
  · intro i hi hP
    rw [hpde i hi hP]
    exact ⟨t, ht20, hmmio⟩
  · intro v hv
    refine dirPte_of_absent ?_
    have hne : PDX MMIOBASE = 958 := by decide
    have hne' : PDX UVPT = 957 := by decide
    rw [hc.pde _ (by omega), hdir _ (by omega), test_zero]
    simp

/-! ### The mappings -/

/-- The mappings below `UVPT` are as they were. -/
structure SameWindows (m m' : Mem) : Prop where
  map : ∃ l, KernMap m' l
  base : SameBase m m'
  pte : ∀ v, InKern (v / 1024) → v < PGNUM UVPT →
    dirPte m'.phys m'.kernPgdir v = dirPte m.phys m.kernPgdir v

theorem SameWindows.trans (h : SameWindows m m₁) (h' : SameWindows m₁ m') : SameWindows m m' :=
  ⟨h'.map, h.base.trans h'.base, fun v hv hlt => (h'.pte v hv hlt).trans (h.pte v hv hlt)⟩

/-- A region above `UVPT`. -/
theorem bootMapRegion_above {size pa perm : Word} (hk : KernMap m l)
    (hn : PGNUM (ROUNDUP size PGSIZE) = n)
    (hva : PGNUM MMIOBASE ≤ PGNUM va ∧ PGNUM va + n ≤ 2 ^ 20)
    (h : bootMapRegion m m.kernPgdir va size pa perm = .ok m') : SameWindows m m' := by
  have hm : PGNUM MMIOBASE = 0xef800 := by decide
  have hu : PGNUM UVPT = 0xef400 := by decide
  have hmap := bootMapRegion_maps hk hn hva.2 (fun i hi => by
    refine ⟨?_, ?_, ?_⟩
    · rw [NUPDX]
      omega
    · rw [NPDENTRIES]
      omega
    · rw [PDX_eq, hu]
      omega) h
  refine ⟨hmap.map, hmap.base, fun v hv hlt => ?_⟩
  rw [hmap.pte v hv, if_neg (by omega)]

theorem memInitMp_windows (hk : KernMap m l) (h : memInitMp m percpuKstacks = .ok m') :
    SameWindows m m' := by
  let I : Mem → Prop := fun m₁ => SameWindows m m₁
  have hzero : I m := ⟨⟨l, hk⟩, SameBase.refl m, fun _ _ _ => rfl⟩
  refine foldlM_invariant (I := I) h hzero fun m₁ m₂ i hi hI hpass => ?_
  obtain ⟨l₁, hk₁⟩ := hI.map
  obtain ⟨pa, -, hpass⟩ := bind_eq_ok.mp hpass
  have hi : i < 8 := List.mem_range.mp hi
  have hva : ∀ i < 8, PGNUM MMIOBASE ≤
      PGNUM (KSTACKTOP - KSTKSIZE - BitVec.ofNat 32 i * (KSTKSIZE + KSTKGAP)) ∧
      PGNUM (KSTACKTOP - KSTKSIZE - BitVec.ofNat 32 i * (KSTKSIZE + KSTKGAP)) + 8 ≤
        2 ^ 20 := by decide
  exact hI.trans (bootMapRegion_above hk₁ (by decide) (hva i hi) hpass)

theorem paddr_eq_ok {a pa : Word} (h : paddr a = .ok pa) (ha : a.toNat % 4096 = 0) :
    pa = page2pa (kpage a) := by
  have hk : KERNBASE.toNat = 0xf0000000 := rfl
  rw [paddr] at h
  split_ifs at h with hlt
  cases h
  have hle := BitVec.le_def.mp (BitVec.not_lt.mp hlt)
  rw [hk] at hle
  refine BitVec.eq_of_toNat_eq ?_
  rw [kpage, page2pa_toNat (PGNUM_lt _), PGNUM_eq,
    BitVec.toNat_sub_of_le (BitVec.le_def.mpr (by omega))]
  omega

/-- **The windows**: `UPAGES` maps the array `pages`, `UENVS` maps 1024 pages from the array `envs`
on, and nothing else is mapped. -/
theorem memInitMap_windows (hk : KernMap m l)
    (hzero : ∀ v, v / 1024 < PDX UVPT → dirPte m.phys m.kernPgdir v = 0)
    (hnp : m.npages < 65536) (hpages : pages.toNat % 4096 = 0) (henvs : envs.toNat % 4096 = 0)
    (h : memInitMap m pages envs bootstack percpuKstacks = .ok m') :
    (∃ l, KernMap m' l) ∧ SameBase m m' ∧ ∀ v, PGNUM UENVS ≤ v → v < PGNUM UVPT →
      dirPte m'.phys m'.kernPgdir v =
      if v < PGNUM UPAGES then page2pa (kpage envs) + BitVec.ofNat 32 (v - PGNUM UENVS) * PGSIZE |||
        PTE_U ||| PTE_P
      else if v < PGNUM UPAGES + numPages (pageInfoSize m) then
        page2pa (kpage pages) + BitVec.ofNat 32 (v - PGNUM UPAGES) * PGSIZE |||
          (PTE_U ||| PTE_P) ||| PTE_P
      else 0 := by
  have hue : PGNUM UENVS = 0xeec00 := by decide
  have hup : PGNUM UPAGES = 0xef000 := by decide
  have huv : PGNUM UVPT = 0xef400 := by decide
  have hdx : PDX UVPT = 957 := by decide
  have hin : ∀ v, 0xeec00 ≤ v → v < 0xef400 → InKern (v / 1024) := by
    intro v hlo hhi
    refine ⟨?_, ?_, ?_⟩
    · rw [NUPDX]
      omega
    · rw [NPDENTRIES]
      omega
    · omega
  have hsize : PGNUM (ROUNDUP (pageInfoSize m) PGSIZE) = numPages (pageInfoSize m) := by
    have := pageInfoSize_toNat hnp
    rw [PGNUM_eq, ROUNDUP_toNat, numPages]
    omega
  have hnum : numPages (pageInfoSize m) ≤ 128 := by
    rw [numPages, pageInfoSize_toNat hnp]
    omega
  obtain ⟨pa, hpa, h⟩ := bind_eq_ok.mp h
  obtain ⟨m₁, h₁, h⟩ := bind_eq_ok.mp h
  obtain ⟨ea, hea, h⟩ := bind_eq_ok.mp h
  obtain ⟨m₂, h₂, h⟩ := bind_eq_ok.mp h
  obtain ⟨sa, -, h⟩ := bind_eq_ok.mp h
  obtain ⟨m₃, h₃, h⟩ := bind_eq_ok.mp h
  obtain ⟨m₄, h₄, h⟩ := bind_eq_ok.mp h
  have hr₁ := bootMapRegion_maps hk hsize (by omega) (fun i hi => hin _ (by omega) (by omega)) h₁
  obtain ⟨l₁, hk₁⟩ := hr₁.map
  have hr₂ := bootMapRegion_maps hk₁ (n := 1024) (by decide) (by omega)
    (fun i hi => hin _ (by omega) (by omega)) h₂
  obtain ⟨l₂, hk₂⟩ := hr₂.map
  have hw₃ := bootMapRegion_above hk₂ (n := 8) (by decide) (by decide) h₃
  obtain ⟨l₃, hk₃⟩ := hw₃.map
  have hw₄ := bootMapRegion_above hk₃ (n := 65536) (by decide) (by decide) h₄
  obtain ⟨l₄, hk₄⟩ := hw₄.map
  have hw := (hw₃.trans hw₄).trans (memInitMp_windows hk₄ h)
  refine ⟨hw.map, (hr₁.base.trans hr₂.base).trans hw.base, fun v hlo hhi => ?_⟩
  rw [hw.pte v (hin v (by omega) (by omega)) hhi, hr₂.pte v (hin v (by omega) (by omega)),
    hr₁.pte v (hin v (by omega) (by omega)), paddr_eq_ok hpa hpages, paddr_eq_ok hea henvs]
  by_cases hwin : v < PGNUM UPAGES
  · rw [if_pos (by omega), if_pos hwin]
  · rw [if_neg (by omega), if_neg hwin]
    by_cases harr : v < PGNUM UPAGES + numPages (pageInfoSize m)
    · rw [if_pos (by omega), if_pos harr]
    · rw [if_neg (by omega), if_neg harr, hzero v (by omega)]

/-! ### What user programs can read there -/

/-- The page that a user program can read at `va`, if there is one. -/
def userReads (m : Mem) (pgdir : ℕ) (va : Word) : Option ℕ :=
  if test (m.phys pgdir (PDX va)) PTE_U then
    (translate m pgdir va).bind fun pte => if test pte PTE_U then some (PGNUM pte) else none
  else none

/-- Page `p` is mapped with `PTE_U` in the windows of `kern_pgdir`, the one of the directory itself
apart. -/
def Exposed (m : Mem) (p : ℕ) : Prop :=
  ∃ va, UTOP ≤ va ∧ va < ULIM ∧ PDX va ≠ PDX UVPT ∧ userReads m m.kernPgdir va = some p

/-- Page `p` holds a byte of the array of `size` bytes at the kernel address `a`. -/
def HoldsArray (a size : Word) (p : ℕ) : Prop := ∃ k < size.toNat, kpage (a + BitVec.ofNat 32 k) = p

/-- The windows show nothing but the two arrays. -/
def OnlyArrays (m : Mem) (pages envs : Word) : Prop :=
  ∀ p, Exposed m p → HoldsArray pages (pageInfoSize m) p ∨ HoldsArray envs envSize p

/-- A page that `mem_init` maps in the window can be read. -/
theorem userReads_of_dirPte (hk : KernMap m l) (hi : InKern (PDX va)) {perm : Word}
    (hf : IsFlags perm) (hU : test perm PTE_U = true)
    (hp : p < 2 ^ 20) (hd : dirPte m.phys m.kernPgdir (PGNUM va) = mkPte p perm) :
    userReads m m.kernPgdir va = some p := by
  have hP : test (m.phys m.kernPgdir (PDX va)) PTE_P = true := by
    by_contra hP
    rw [dirPte_of_absent (by rwa [← PDX_eq])] at hd
    have := test_mkPte_P p perm
    rw [← hd, test_zero] at this
    cases this
  obtain ⟨t, -, ht⟩ := hk.pde _ hi hP
  have hPU : test (m.phys m.kernPgdir (PDX va)) PTE_U = true := by
    rw [ht, newPde, test_or, test_or, test_or, show test PTE_U PTE_U = true by decide]
    simp
  have htr : translate m m.kernPgdir va = some (mkPte p perm) := by
    rw [translate_eq_dirPte, hd, if_pos (test_mkPte_P p perm)]
  have hUpte : test (mkPte p perm) PTE_U = true := by
    rw [test_mkPte p perm isFlags_U (by decide), hU]
  rw [userReads, if_pos hPU, htr, Option.bind_some, if_pos hUpte, PGNUM_mkPte hp hf]

/-- The pages of an array are those from its first page on. -/
theorem HoldsArray.bounds {a s : Word} (h : HoldsArray a s p)
    (ha : a.toNat = KERNBASE.toNat + n * 4096)
    (hs : a.toNat + s.toNat ≤ 2 ^ 32) : n ≤ p ∧ p < n + numPages s := by
  obtain ⟨k, hk, rfl⟩ := h
  have hkb : KERNBASE.toNat = 0xf0000000 := rfl
  have hsum : (a + BitVec.ofNat 32 k).toNat = a.toNat + k := by
    rw [BitVec.toNat_add, BitVec.toNat_ofNat]
    omega
  rw [kpage, PGNUM_eq, BitVec.toNat_sub_of_le (BitVec.le_def.mpr (by omega)), hsum, numPages]
  omega

/-- `mem_init`: between its two parts it runs the self-tests of the page allocator. -/
def MemInit (fin bootstack : Word) (percpuKstacks : ℕ → Word) (m : Mem) (pages envs : Word)
    (m' : Mem) : Prop :=
  ∃ m₁ m₂, memInitAlloc fin m = .ok (pages, envs, m₁) ∧ Checked m₁ m₂ ∧
    memInitMap m₂ pages envs bootstack percpuKstacks = .ok m'

/-- The page right behind the array `envs` is in the window, and holds neither array. If there is a
free page in extended memory, this one was free. -/
theorem MemInit.behind (hl : Layout fin m)
    (h : MemInit fin bootstack percpuKstacks m pages envs m') :
    Exposed m' (kpage envs + 31) ∧
      ¬ (HoldsArray pages (pageInfoSize m') (kpage envs + 31) ∨
        HoldsArray envs envSize (kpage envs + 31)) ∧
      ((∃ q, PGNUM EXTPHYSMEM ≤ q ∧ m'.Managed q) → m'.Managed (kpage envs + 31)) := by
  obtain ⟨m₁, m₂, halloc, hcheck, hmap⟩ := h
  have ha := memInitAlloc_arrays hl halloc
  have hkd : KERNBASE.toNat = 0xf0000000 := rfl
  have hpages := ha.pages_at
  have henvs := ha.envs_at
  have hnum := ha.numPages_le
  have hdir := ha.dir_le
  -- the directory
  obtain ⟨l₁, -, hl₁⟩ := ha.free
  have hon : ∀ p, m₁.OnFreeList p → m₁.Managed p := by
    intro p hp
    obtain ⟨lf, hlf, hpl⟩ := ha.free
    exact (hpl p).mp (hlf.chain.onChain_iff.mp hp)
  obtain ⟨l, hk, hzero⟩ := hcheck.kernMap ha.dir fun h =>
    not_managed_kernPgdir ha hl.basemem_le (hon _ h)
  have hnp : m₂.npages = m.npages := hcheck.base.npages.trans ha.npages
  have hsize : pageInfoSize m₂ = pageInfoSize m := by rw [pageInfoSize, pageInfoSize, hnp]
  obtain ⟨⟨l', hk'⟩, hbase, hpte⟩ := memInitMap_windows hk hzero (by rw [hnp]; exact ha.npages_lt)
    (by omega) (by omega) hmap
  have hsize' : pageInfoSize m' = pageInfoSize m := by
    rw [pageInfoSize, hbase.npages, ← pageInfoSize, hsize]
  -- the page right behind the array `envs`
  have hexp : Exposed m' (kpage envs + 31) := by
    have hke := ha.kpage_envs
    have hkp := ha.kpage_pages
    have hd := hpte (PGNUM UENVS + 31) (by omega) (by decide)
    rw [if_pos (by decide), Nat.add_sub_cancel_left, page2pa_add (by omega)] at hd
    rw [show PGNUM UENVS + 31 = PGNUM (UENVS + 31 * PGSIZE) by decide] at hd
    exact ⟨UENVS + 31 * PGSIZE, by decide, by decide, by decide,
      userReads_of_dirPte hk' (by decide) isFlags_U (by decide) (by omega) hd⟩
  refine ⟨hexp, fun hholds => ?_, fun ⟨q, hq, hqm⟩ => ?_⟩
  · have hke := ha.kpage_envs
    have hkp := ha.kpage_pages
    have hlt := ha.npages_lt
    rcases hholds with hh | hh
    · rw [hsize'] at hh
      have hb := hh.bounds ha.pages_at (by rw [pageInfoSize_toNat ha.npages_lt]; omega)
      omega
    · have hb := hh.bounds (n := m₁.kernPgdir + 1 + numPages (pageInfoSize m)) (by omega)
        (by rw [show envSize.toNat = 126976 by decide]; omega)
      rw [numPages_envSize] at hb
      omega
  · have hb : m₁.npagesBasemem ≤ PGNUM IOPHYSMEM := by
      rw [ha.npagesBasemem]
      exact hl.basemem_le
    have hmanaged : ∀ p, PGNUM EXTPHYSMEM ≤ p →
        (m'.Managed p ↔ p < m₁.npages ∧ kpage envs + 31 ≤ p) := by
      intro p hp
      rw [Mem.Managed, hbase.npages, hbase.npagesBasemem, hbase.nextfree, hcheck.base.npages,
        hcheck.base.npagesBasemem,
        hcheck.base.nextfree, pageInitFree_ext hb hp, decide_eq_true_eq, ha.kpage_nextfree]
    obtain ⟨hq₁, hq₂⟩ := (hmanaged q hq).mp hqm
    have hke := ha.kpage_envs
    have hkp := ha.kpage_pages
    have hge := ha.dir_ge
    exact (hmanaged _ (by omega)).mpr ⟨by omega, le_rfl⟩

/-! ### A machine -/

/-- A region of the half is mapped when there is room, and there is room left. -/
theorem bootMapRegion_room (va size pa perm : Word) (n : ℕ) (hn : PGNUM (ROUNDUP size PGSIZE) = n)
    (hva : PGNUM UENVS ≤ PGNUM va ∧ PGNUM va + n ≤ 2 ^ 20)
    (huv : PGNUM va + n ≤ PGNUM UVPT ∨ PGNUM MMIOBASE ≤ PGNUM va)
    (hr : ∃ l, KernMap m l ∧ Room m l) : ∃ m',
    bootMapRegion m m.kernPgdir va size pa perm = .ok m' ∧ SameBase m m' ∧
      ∃ l, KernMap m' l ∧ Room m' l := by
  have hue : PGNUM UENVS = 0xeec00 := by decide
  have huv' : PGNUM UVPT = 0xef400 := by decide
  have hm : PGNUM MMIOBASE = 0xef800 := by decide
  obtain ⟨l, hk, hr⟩ := hr
  refine bootMapRegion_total hk hr hn hva.2 fun i hi => ⟨?_, ?_, ?_⟩
  · rw [NUPDX]
    omega
  · rw [NPDENTRIES]
    omega
  · rw [PDX_eq, huv']
    omega

/-- `mem_init` maps the half when there is room, and the kernel's own addresses are above
`KERNBASE`. -/
theorem memInitMap_total (hr : ∃ l, KernMap m l ∧ Room m l) (hnp : m.npages < 65536)
    (hp : ¬ pages < KERNBASE)
    (he : ¬ envs < KERNBASE) (hb : ¬ bootstack < KERNBASE)
    (hs : ∀ i, ¬ percpuKstacks i < KERNBASE) :
    ∃ m', memInitMap m pages envs bootstack percpuKstacks = .ok m' := by
  have hpaddr : ∀ {a : Word}, ¬ a < KERNBASE → paddr a = .ok (a - KERNBASE) := fun ha => if_neg ha
  have hsize : PGNUM (ROUNDUP (pageInfoSize m) PGSIZE) ≤ 128 := by
    have := pageInfoSize_toNat hnp
    rw [PGNUM_eq, ROUNDUP_toNat]
    omega
  have hup : PGNUM UPAGES = 0xef000 := by decide
  have huv : PGNUM UVPT = 0xef400 := by decide
  obtain ⟨m₁, h₁, -, hr₁⟩ := bootMapRegion_room UPAGES (pageInfoSize m) (pages - KERNBASE)
    (PTE_U ||| PTE_P) _ rfl
    ⟨by decide, by omega⟩ (.inl (by omega)) hr
  obtain ⟨m₂, h₂, -, hr₂⟩ := bootMapRegion_room UENVS PTSIZE (envs - KERNBASE) PTE_U 1024
    (by decide) (by decide) (by decide) hr₁
  obtain ⟨m₃, h₃, -, hr₃⟩ :=
    bootMapRegion_room (KSTACKTOP - KSTKSIZE) KSTKSIZE (bootstack - KERNBASE) (PTE_W ||| PTE_P) 8
    (by decide) (by decide) (by decide) hr₂
  obtain ⟨m₄, h₄, -, hr₄⟩ :=
    bootMapRegion_room KERNBASE (0xffffffff - KERNBASE) 0 (PTE_W ||| PTE_P) 65536
    (by decide) (by decide) (by decide) hr₃
  let I : ℕ → Mem → Prop := fun _ m₅ => ∃ l, KernMap m₅ l ∧ Room m₅ l
  have hstep : ∀ i < NCPU, ∀ m₅, I i m₅ → ∃ m₆, (do
      bootMapRegion m₅ m₅.kernPgdir (KSTACKTOP - KSTKSIZE - BitVec.ofNat 32 i *
        (KSTKSIZE + KSTKGAP)) KSTKSIZE
        (← paddr (percpuKstacks i)) (PTE_W ||| PTE_P)) = .ok m₆ ∧ I (i + 1) m₆ := by
    intro i hi m₅ hm₅
    have hva : ∀ i < 8, (PGNUM UENVS ≤
        PGNUM (KSTACKTOP - KSTKSIZE - BitVec.ofNat 32 i * (KSTKSIZE + KSTKGAP)) ∧
        PGNUM (KSTACKTOP - KSTKSIZE - BitVec.ofNat 32 i * (KSTKSIZE + KSTKGAP)) + 8 ≤ 2 ^ 20) ∧
        PGNUM MMIOBASE ≤ PGNUM (KSTACKTOP - KSTKSIZE - BitVec.ofNat 32 i *
          (KSTKSIZE + KSTKGAP)) := by decide
    obtain ⟨m₆, h₆, -, hr₆⟩ :=
      bootMapRegion_room (KSTACKTOP - KSTKSIZE - BitVec.ofNat 32 i * (KSTKSIZE + KSTKGAP)) KSTKSIZE
      (percpuKstacks i - KERNBASE) (PTE_W ||| PTE_P) 8 (by decide) (hva i hi).1
        (.inr (hva i hi).2) hm₅
    exact ⟨m₆, by rw [hpaddr (hs i)]; exact h₆, hr₆⟩
  obtain ⟨m', hm', -⟩ := foldlM_range_total (I := I) hr₄ hstep
  refine ⟨m', ?_⟩
  rw [memInitMap, hpaddr hp, ok_bind, h₁, ok_bind, hpaddr he, ok_bind, h₂, ok_bind, hpaddr hb,
    ok_bind, h₃, ok_bind, h₄, ok_bind]
  exact hm'

/-- A machine of 64 MB before `mem_init`. -/
def bareMem : Mem where
  npages := 16384
  npagesBasemem := 160
  nextfree := 0
  kernPgdir := 0
  pages _ := ⟨none, 0⟩
  pageFreeList := none
  phys _ _ := 0
  userData _ := false

theorem bareMem_layout : Layout 0xf0100000 bareMem :=
  ⟨by decide, by decide, by decide, by decide, rfl, rfl⟩

theorem bareMem_alloc : ∃ m₁, memInitAlloc 0xf0100000 bareMem = .ok (0xf0101000, 0xf0121000, m₁) :=
  ⟨_, rfl⟩

/-- There are a thousand free pages after `page_init`. -/
theorem bareMem_free (ha : BootArrays bareMem 0xf0101000 0xf0121000 m₁)
    (hl : ∀ p, p ∈ l ↔ m₁.Managed p) : 2000 ≤ l.length := by
  have hsub : Finset.Ico 1000 3000 ⊆ l.toFinset := by
    intro p hp
    rw [Finset.mem_Ico] at hp
    rw [List.mem_toFinset, hl, Mem.Managed, ha.npages, ha.npagesBasemem,
      pageInitFree_ext (by decide) (by rw [show PGNUM EXTPHYSMEM = 256 by decide]; omega),
      decide_eq_true_eq, ha.kpage_nextfree,
      show kpage 0xf0121000 = 289 by decide, show bareMem.npages = 16384 from rfl]
    omega
  calc 2000 = (Finset.Ico 1000 3000).card := by rw [Nat.card_Ico]
    _ ≤ l.toFinset.card := Finset.card_le_card hsub
    _ ≤ l.length := List.toFinset_card_le l

/-- A table for the window of the devices is all that the self-tests have to take. -/
theorem exists_checked (hl : FreeList m (p :: l)) (hfree : ∀ q ∈ p :: l, q < m.npages)
    (hlen : NPDENTRIES < l.length)
    (hkd : m.kernPgdir ∉ p :: l) (hdir : ∀ i, i ≠ PDX UVPT → m.phys m.kernPgdir i = 0) :
    ∃ m₁, Checked m m₁ ∧ ∃ l, KernMap m₁ l ∧ Room m₁ l := by
  have habs : ∀ i, InKern i → test (m.phys m.kernPgdir i) PTE_P ≠ true := by
    intro i hi
    rw [hdir i hi.2.2, test_zero]
    simp
  have hk : KernMap m (p :: l) := {
    list := hl
    dir := hkd
    own := ⟨fun i j q hi _ hn => absurd hn.1 (habs i hi), fun i hi hn => habs i hi hn.1⟩
    fresh := fun i hi q _ hn => habs i hi hn.1
    pde := fun i hi hP => absurd hP (habs i hi) }
  have hP := habs (PDX MMIOBASE) (by decide)
  obtain ⟨pte, m₁, hwalk⟩ : ∃ pte m₁, pgdirWalk m m.kernPgdir MMIOBASE true = .ok (some pte, m₁) :=
    pgdirWalk_total hl (hfree p List.mem_cons_self) fun q hn => absurd hn.1 hP
  rcases pgdirWalk_list hl hwalk with ⟨-, -, hP'⟩ | ⟨-, q, t, hcons, -, hl₁, hbase, -, -, hphys⟩
  · exact absurd hP' hP
  · cases hcons
    obtain ⟨hk₁, hn, hpde, -⟩ := hk.newTable hP hl₁ hbase hphys
    have hself : m₁.phys m₁.kernPgdir (PDX MMIOBASE) = newPde p := by
      rw [hphys, hbase.kernPgdir, setW_self]
    have hon : ∀ q ∈ p :: l, m.OnFreeList q := fun q hq => hl.chain.onChain_iff.mpr hq
    have hnot : p ∉ l := (List.nodup_cons.mp hl.chain.nodup).1
    refine ⟨m₁, ⟨hbase, ⟨l, hl₁, fun q hq => ⟨hon q (List.mem_cons_of_mem _ hq), fun hnq => ?_⟩⟩,
      ⟨p, hl.lt p List.mem_cons_self, hon p List.mem_cons_self, hself⟩, hpde⟩, l, hk₁,
      ⟨fun q hq => ?_, fun i hi q hnq => ?_, ?_⟩⟩
    · exact hnot (names_unique hn hnq ▸ hq)
    · rw [hbase.npages]
      exact hfree q (List.mem_cons_of_mem _ hq)
    · rw [hbase.npages]
      by_cases him : i = PDX MMIOBASE
      · rw [him] at hnq
        rw [← names_unique hn hnq]
        exact hfree p List.mem_cons_self
      · rw [hpde i him] at hnq
        exact absurd hnq.1 (habs i hi)
    · calc (absentPdes m₁).card ≤ (Finset.range NPDENTRIES).card := Finset.card_filter_le _ _
        _ = NPDENTRIES := Finset.card_range _
        _ < l.length := hlen

theorem bareMem_memInit : ∃ m',
    MemInit 0xf0100000 0xf0100000 (fun _ => 0xf0100000) bareMem 0xf0101000 0xf0121000 m' := by
  obtain ⟨m₁, halloc⟩ := bareMem_alloc
  have ha := memInitAlloc_arrays bareMem_layout halloc
  obtain ⟨l, hl, hmem⟩ := ha.free
  have hlen := bareMem_free ha hmem
  cases l with
  | nil => exact absurd hlen (by decide)
  | cons p l =>
    have hkd : m₁.kernPgdir ∉ p :: l := fun h =>
      not_managed_kernPgdir ha bareMem_layout.basemem_le ((hmem _).mp h)
    rw [List.length_cons] at hlen
    obtain ⟨m₂, hcheck, hr⟩ :=
      exists_checked hl (fun q hq => ((hmem q).mp hq).1) (by rw [NPDENTRIES]; omega) hkd ha.dir
    have hnp : m₂.npages < 65536 := by
      rw [hcheck.base.npages, ha.npages]
      decide
    obtain ⟨m', hm'⟩ : ∃ m', memInitMap m₂ 0xf0101000 0xf0121000 0xf0100000
      (fun _ => 0xf0100000) = .ok m' :=
      memInitMap_total hr hnp (by decide) (by decide) (by decide) fun _ => by decide
    exact ⟨m', m₁, m₂, halloc, hcheck, hm'⟩

/-- **The window at `UENVS` shows more than `envs`**, whatever the memory size and the layout: the
page behind the array can be read, which may later be any environment's. -/
theorem memInit_exposes (hl : Layout fin m)
    (h : MemInit fin bootstack percpuKstacks m pages envs m') :
    ¬ OnlyArrays m' pages envs ∧ ((∃ q, PGNUM EXTPHYSMEM ≤ q ∧ m'.Managed q) → ∃ p, Exposed m' p ∧
        m'.Managed p) := by
  obtain ⟨hexp, hholds, hfree⟩ := h.behind hl
  exact ⟨fun honly => hholds (honly _ hexp), fun hq => ⟨_, hexp, hfree hq⟩⟩

/-- On a machine of 64 MB. -/
theorem memInit_exposes_bareMem : ∃ m', ¬ OnlyArrays m' 0xf0101000 0xf0121000 := by
  obtain ⟨m', hm'⟩ := bareMem_memInit
  exact ⟨m', (memInit_exposes bareMem_layout hm').1⟩

theorem not_onlyArrays : ¬ ∀ fin bootstack percpuKstacks m pages envs m', Layout fin m →
    MemInit fin bootstack percpuKstacks m pages envs m' → OnlyArrays m' pages envs := by
  intro hall
  obtain ⟨m', hm'⟩ := bareMem_memInit
  obtain ⟨hexp, hholds, -⟩ := hm'.behind bareMem_layout
  exact hholds (hall _ _ _ _ _ _ _ bareMem_layout hm' _ hexp)

end JOS
