import JOS.Spaces.Load
import JOS.Kern.MemInit

/-!
# All address spaces share one kernel half

A directory gets its entries from `PDX(UTOP)` on from `kern_pgdir` when `env_setup_vm`
makes it, and nobody writes them later (`good_of_op`). That is so because the
functions that take a user address write the user half of a directory, and tables: as
long as no table below `UTOP` is itself a page directory, and no page directory is on
the free list, no entry of the other half is among the words they write.

A state in which an entry of one environment's directory names the directory of
another shows that the condition is needed (`not_good_of_op`).
-/

namespace JOS

open JOS.General

variable {s s' : KState} {m : Mem} {l : List ℕ} {c d e i t : ℕ} {va base pa size y z : Word}

/-! ### Memory-mapped devices -/

/-- The region that `mmio_map_region` is about to reserve fits its window. -/
def MmioFits (base size : Word) : Prop :=
  MMIOBASE ≤ base ∧ base.toNat + (ROUNDUP size PGSIZE).toNat ≤ MMIOLIM.toNat

theorem PGNUM_ROUNDUP (size : Word) :
    PGNUM (ROUNDUP (ROUNDUP size PGSIZE) PGSIZE) * 4096 ≤ (ROUNDUP size PGSIZE).toNat + 4095 := by
  rw [PGNUM_eq, ROUNDUP_toNat (ROUNDUP size PGSIZE)]
  have := Nat.mod_le ((ROUNDUP size PGSIZE).toNat + 4095) (2 ^ 32)
  omega

/-- Every page of the region is in the window's 4 MB. -/
theorem PDX_mmio {i : ℕ} (h : MmioFits base size)
    (hi : i < PGNUM (ROUNDUP (ROUNDUP size PGSIZE) PGSIZE)) :
    PDX (base + BitVec.ofNat 32 i * PGSIZE) = PDX MMIOBASE := by
  obtain ⟨hlo, hhi⟩ := h
  have hsz := PGNUM_ROUNDUP size
  have hmul : (ROUNDUP size PGSIZE).toNat % 4096 = 0 := by
    rw [ROUNDUP_toNat]
    exact Nat.mul_mod_left _ _
  have hlo' : 0xef800000 ≤ base.toNat := BitVec.le_def.mp hlo
  have hhi' : base.toNat + (ROUNDUP size PGSIZE).toNat ≤ 0xefc00000 := hhi
  have hprod : (BitVec.ofNat 32 i * PGSIZE).toNat = i * 4096 := by
    rw [BitVec.toNat_mul, BitVec.toNat_ofNat, show PGSIZE.toNat = 4096 from rfl]
    omega
  have hva : (base + BitVec.ofNat 32 i * PGSIZE).toNat = base.toNat + i * 4096 := by
    rw [BitVec.toNat_add, hprod]
    omega
  rw [PDX_eq, PGNUM_eq, hva, show PDX MMIOBASE = 958 by decide]
  omega

/-- When there is a table for the address, `boot_map_region` writes an entry of it. -/
theorem bootMapPage_words {m' : Mem} {perm : Word} (ht : Names (m.phys d (PDX va)) t)
    (h : bootMapPage m d va pa perm = .ok m') :
    m' = m.setWord t (PTX va) (pa ||| perm ||| PTE_P) := by
  obtain ⟨⟨o, m₁⟩, hwalk, h⟩ := bind_eq_ok.mp h
  simp only [pgdirWalk, ht.1, if_true, kaddr, PGNUM_PTE_ADDR, ht.2] at hwalk
  split_ifs at hwalk
  · cases hwalk
  · cases hwalk
    cases h
    rfl

/-- When the window has its table, `mmio_map_region` writes this table only. -/
theorem mmioMapRegion_words (ht : Names (s.mem.phys s.mem.kernPgdir (PDX MMIOBASE)) t)
    (htk : t ≠ s.mem.kernPgdir)
    (hfits : MmioFits base size) (h : mmioMapRegion s.mem base pa size = .ok (y, z, m)) :
    m.kernPgdir = s.mem.kernPgdir ∧ ∀ q, q ≠ t → m.phys q = s.mem.phys q := by
  simp only [mmioMapRegion] at h
  split_ifs at h
  obtain ⟨m₁, hmap, h⟩ := bind_eq_ok.mp h
  have hm : m₁ = m := (Prod.mk.inj (Prod.mk.inj (Except.ok.inj h)).2).2
  subst hm
  let I : Mem → Prop := fun m => m.kernPgdir = s.mem.kernPgdir ∧ ∀ q, q ≠ t →
    m.phys q = s.mem.phys q
  have hstep : ∀ m₁ m₂ : Mem, ∀ i ∈ List.range (PGNUM (ROUNDUP (ROUNDUP size PGSIZE) PGSIZE)),
      I m₁ →
      bootMapPage m₁ s.mem.kernPgdir (base + BitVec.ofNat 32 i * PGSIZE)
        (pa + BitVec.ofNat 32 i * PGSIZE)
        (PTE_PCD ||| PTE_PWT ||| PTE_W) = .ok m₂ → I m₂ := by
    rintro m₁ m₂ i hi ⟨hkern, hwords⟩ hpage
    have hpdx := PDX_mmio hfits (List.mem_range.mp hi)
    have hnames : Names (m₁.phys s.mem.kernPgdir (PDX (base + BitVec.ofNat 32 i * PGSIZE))) t := by
      rw [hpdx, hwords _ (Ne.symm htk)]
      exact ht
    rw [bootMapPage_words hnames hpage]
    refine ⟨hkern, fun q hq => ?_⟩
    rw [setWord_phys, setW_of_ne hq]
    exact hwords q hq
  exact foldlM_invariant hmap (I := I) ⟨rfl, fun _ _ => rfl⟩ hstep

/-! ### Good states -/

/-- **All address spaces have the kernel's half of `kern_pgdir`**, and themselves at `UVPT`. The
environments meant are those that have a page directory: `env_free` takes it away. -/
structure Good (s : KState) : Prop where
  upper : ∀ e d i, s.dirs e = some d → NUPDX ≤ i → i < NPDENTRIES → i ≠ PDX UVPT →
    s.mem.phys d i = s.mem.phys s.mem.kernPgdir i
  uvpt : ∀ e d, s.dirs e = some d → Names (s.mem.phys d (PDX UVPT)) d ∧
    test (s.mem.phys d (PDX UVPT)) PTE_U = true ∧ test (s.mem.phys d (PDX UVPT)) PTE_W = false

/-- Page `t` is a page directory. -/
def IsDir (s : KState) (t : ℕ) : Prop := t = s.mem.kernPgdir ∨ ∃ e, s.dirs e = some t

/-- No page on the free list serves as a page directory or a page table, and `kern_pgdir` has the
table for devices that `mem_init` gives it. -/
structure FreeApart (s : KState) : Prop where
  free : ∃ l, Apart s l ∧ ∀ i t, KernEntry s.mem.phys s.mem.kernPgdir i t → t ∉ l
  mmio : ∃ t, Names (s.mem.phys s.mem.kernPgdir (PDX MMIOBASE)) t ∧ ¬ IsDir s t

/-- No table below `UTOP` is a page directory. -/
def NoDirTable (s : KState) : Prop := ∀ e i t, TableOf s.mem.phys s.dirs e i t → ¬ IsDir s t

/-- The entry `env_setup_vm` writes at `UVPT`. -/
theorem names_uvpt (hd : d < 2 ^ 20) : Names (page2pa d ||| PTE_P ||| PTE_U) d ∧
    test (page2pa d ||| PTE_P ||| PTE_U) PTE_U = true ∧
    test (page2pa d ||| PTE_P ||| PTE_U) PTE_W = false := by
  have h₁ : test PTE_U PTE_P = false := by decide
  have h₂ : test PTE_P PTE_P = true := by decide
  have h₃ : test PTE_P PTE_W = false := by decide
  have h₄ : test PTE_U PTE_W = false := by decide
  have h₅ : test PTE_U PTE_U = true := by decide
  refine ⟨⟨?_, ?_⟩, ?_, ?_⟩
  · rw [test_or, test_or, h₂, Bool.or_true, Bool.true_or]
  · rw [PGNUM_or isFlags_U, PGNUM_or isFlags_P, PGNUM_page2pa hd]
  · rw [test_or, h₅, Bool.or_true]
  · rw [test_or, test_or, test_page2pa isFlags_W, h₃, h₄]
    rfl

/-- A word of the kernel's half of a directory is not written. -/
theorem Affects.upper_eq {T : ℕ → Prop} (h : Affects T l s s') (hno : NoDirTable s) (hd : IsDir s d)
    (hdl : d ∉ l)
    (hi : NUPDX ≤ i) : s'.mem.phys d i = s.mem.phys d i := by
  rcases h.words d i with hw | hdl' | ⟨e, d', -, hd', ⟨-, hi'⟩ | ⟨j, hj, hn⟩⟩
  · exact hw
  · exact absurd hdl' hdl
  · exact absurd hi' (not_lt.mpr hi)
  · exact absurd hd (hno e j d ⟨d', hd', hj, hn⟩)

/-- What writes below `UTOP` only, and pages of the free list, leaves a good state. -/
theorem Affects.good {T : ℕ → Prop} (h : Affects T l s s') (hl : Apart s l) (hno : NoDirTable s)
    (hg : Good s) : Good s' := by
  have hkern : ∀ i, NUPDX ≤ i → s'.mem.phys s'.mem.kernPgdir i = s.mem.phys s.mem.kernPgdir i := by
    intro i hi
    rw [h.kernPgdir]
    exact h.upper_eq hno (.inl rfl) hl.kernPgdir hi
  have hold : ∀ e d i, s.dirs e = some d → NUPDX ≤ i → s'.mem.phys d i = s.mem.phys d i :=
      fun e d i hd hi =>
    h.upper_eq hno (.inr ⟨e, hd⟩) (hl.used d (.inl ⟨e, hd⟩)) hi
  refine ⟨fun e d i hd hi hi' hne => ?_, fun e d hd => ?_⟩
  · rcases h.dirs e d hd with hd | ⟨-, hnew⟩
    · rw [hkern i hi, hold e d i hd hi]
      exact hg.upper e d i hd hi hi' hne
    · rw [hkern i hi]
      exact hnew.kern i hi hne
  · rcases h.dirs e d hd with hd | ⟨hdl, hnew⟩
    · rw [hold e d _ hd (by decide)]
      exact hg.uvpt e d hd
    · rw [hnew.uvpt]
      exact names_uvpt (hl.list.lt d hdl)

/-! ### The operations -/

/-- One operation of the kernel takes `s` to `s'`. -/
inductive KernelOp (s : KState) : KState → Prop where
  /-- `env_alloc`. -/
  | envAlloc {parentId : Word} {r : Except Word ℕ} {s' : KState} : envAlloc s parentId =
    .ok (r, s') → KernelOp s s'
  /-- `load_icode` of segments below `UTOP`, into the empty address space that `env_alloc` has
  made. -/
  | loadIcode {c e d : ℕ} {elf : Elf} {s' : KState} : s.dirs e = some d →
      (∀ i < NUPDX, test (s.mem.phys d i) PTE_P ≠ true) → elf.BelowUTOP →
      loadIcode s c e elf = .ok s' → KernelOp s s'
  /-- A system call that returns. -/
  | syscall {c cur : ℕ} {a : SysArgs} {r : Word} {s' : KState} : syscall s c cur a = .ok (r, s') →
    KernelOp s s'
  /-- A system call that leaves the kernel without returning. -/
  | leaves {c cur : ℕ} {a : SysArgs} {s' : KState} : JOS.syscall s c cur a = .error (.gone s') →
    KernelOp s s'
  /-- `env_free`. -/
  | envFree {c e : ℕ} {s' : KState} : envFree s c e = .ok s' → KernelOp s s'
  /-- `mmio_map_region` that fits its window. -/
  | mmioMapRegion {base pa size y z : Word} {m : Mem} : MmioFits base size →
      mmioMapRegion s.mem base pa size = .ok (y, z, m) → KernelOp s { s with mem := m }

/-- One operation, in terms of what it writes. -/
theorem KernelOp.good (hop : KernelOp s s') (hfree : FreeApart s) (hno : NoDirTable s)
    (hg : Good s) : Good s' := by
  obtain ⟨l, hl, -⟩ := hfree.free
  cases hop with
  | envAlloc h => exact (envAlloc_affects (T := fun _ => True) hl h).good hl hno hg
  | loadIcode hd hempty helf h => exact (loadIcode_affects hl hd hempty helf h).good hl hno hg
  | syscall h => exact (syscall_affects hl h).good hl hno hg
  | leaves h => exact (syscall_gone_affects (l := l) h).good hl hno hg
  | envFree h => exact (envFree_affects (l := l) h).good hl hno hg
  | mmioMapRegion hfits h =>
    obtain ⟨t, ht, htd⟩ := hfree.mmio
    obtain ⟨hkern, hwords⟩ := mmioMapRegion_words ht (fun h => htd (.inl h)) hfits h
    have hdir : ∀ e d, s.dirs e = some d → d ≠ t := by
      rintro e d hd rfl
      exact htd (.inr ⟨e, hd⟩)
    refine ⟨fun e d i hd hi hi' hne => ?_, fun e d hd => ?_⟩
    · rw [hkern, hwords d (hdir e d hd), hwords s.mem.kernPgdir fun h => htd (.inl h.symm)]
      exact hg.upper e d i hd hi hi' hne
    · rw [hwords d (hdir e d hd)]
      exact hg.uvpt e d hd

/-- In a good state an address from `UTOP` on is the same in every address space, but in the window
at `UVPT`. -/
theorem Good.translate_eq (hg : Good s) (hd : s.dirs e = some d) (hva : UTOP ≤ va)
    (hne : PDX va ≠ PDX UVPT) :
    translate s.mem d va = translate s.mem s.mem.kernPgdir va := by
  have hpdx : NUPDX ≤ PDX va ∧ PDX va < NPDENTRIES := by
    have hle : 0xeec00000 ≤ va.toNat := BitVec.le_def.mp hva
    have := va.isLt
    rw [PDX_eq, PGNUM_eq, NUPDX, NPDENTRIES]
    omega
  rw [translate, translate, hg.upper e d _ hd hpdx.1 hpdx.2 hne]

/-! ### Two address spaces -/

/-- Two environments with page directories in pages 4 and 5; `kern_pgdir` is page 2, its table for
devices page 3, and pages 6 and 7 are free. Entry 0 of the first environment's directory is `w`. -/
def twoSpaces (w : Word) : KState where
  mem := {
    npages := 16
    npagesBasemem := 16
    nextfree := 0xf0100000
    kernPgdir := 2
    pages := fun p => if p = 6 then ⟨some 7, 0⟩ else if p = 7 then ⟨none, 0⟩ else ⟨none, 1⟩
    pageFreeList := some 6
    phys := fun p i =>
      if p = 2 ∨ p = 4 ∨ p = 5 then
        if i = 957 then page2pa p ||| PTE_P ||| PTE_U
        else if i = 958 then mkPte 3 (PTE_U ||| PTE_W)
        else if p = 4 ∧ i = 0 then w else 0
      else 0
    userData := fun _ => false }
  envs := fun e =>
    if e = 0 then { unusedEnv 0 with envId := 0x1000, envStatus := .running, envPgdir := some 4 }
    else if e = 1 then { unusedEnv 1 with
      envId := 0x1001, envStatus := .runnable, envPgdir := some 5 }
    else unusedEnv e
  envFreeList := some 2
  cpus := fun _ => ⟨.started, some 0, 4⟩
  acts := []

/-- `sys_page_alloc` by the first of them, at an address with directory index 0 and table index
959. -/
def twoSpacesArgs : SysArgs := ⟨4, 0, 0x3bf000, 7, 0, 0, 0⟩

theorem twoSpaces_dirs {w : Word} (h : (twoSpaces w).dirs e = some d) : e = 0 ∧ d = 4 ∨
    e = 1 ∧ d = 5 := by
  unfold KState.dirs twoSpaces at h
  dsimp only at h
  split_ifs at h with h₀ h₁
  · cases h
    exact .inl ⟨h₀, rfl⟩
  · cases h
    exact .inr ⟨h₁, rfl⟩
  · cases h

theorem twoSpaces_good (w : Word) : Good (twoSpaces w) := by
  refine ⟨fun e d i hd hi hi' hne => ?_, fun e d hd => ?_⟩
  · have h0 : i ≠ 0 := by
      rintro rfl
      exact absurd hi (by decide)
    have h957 : i ≠ 957 := fun h => hne (h.trans (by decide))
    rcases twoSpaces_dirs hd with ⟨-, rfl⟩ | ⟨-, rfl⟩ <;> simp [twoSpaces, h0, h957]
  · have hword : ∀ d, d = 4 ∨ d = 5 → (twoSpaces w).mem.phys d (PDX UVPT) = page2pa d |||
        PTE_P ||| PTE_U := by
      have hpdx : PDX UVPT = 957 := by decide
      rintro d (rfl | rfl) <;> simp [twoSpaces, hpdx]
    rcases twoSpaces_dirs hd with ⟨-, rfl⟩ | ⟨-, rfl⟩
    · rw [hword 4 (.inl rfl)]
      exact names_uvpt (by decide)
    · rw [hword 5 (.inr rfl)]
      exact names_uvpt (by decide)

theorem twoSpaces_tables {w : Word} (h : TableOf (twoSpaces w).mem.phys (twoSpaces w).dirs e i t) :
    Names w t := by
  obtain ⟨d, hd, hi, hn⟩ := h
  have h957 : i ≠ 957 := by
    rintro rfl
    exact absurd hi (by decide)
  have h958 : i ≠ 958 := by
    rintro rfl
    exact absurd hi (by decide)
  rcases twoSpaces_dirs hd with ⟨-, rfl⟩ | ⟨-, rfl⟩
  · by_cases h0 : i = 0
    · simpa [twoSpaces, h0] using hn
    · simp only [twoSpaces, h957, h958, h0] at hn
      exact absurd hn (not_names_zero t)
  · simp only [twoSpaces, h957, h958] at hn
    exact absurd hn (not_names_zero t)

theorem twoSpaces_unshared : Unshared (twoSpaces 0).mem.phys (twoSpaces 0).dirs := by
  refine ⟨fun e e' d hd hd' => ?_, fun _ _ _ _ t ht _ => ?_, fun _ _ _ t ht => ?_⟩
  · rcases twoSpaces_dirs hd with ⟨rfl, rfl⟩ |
      ⟨rfl, rfl⟩ <;> rcases twoSpaces_dirs hd' with ⟨rfl, h⟩ | ⟨rfl, h⟩
    · rfl
    · cases h
    · cases h
    · rfl
  · exact absurd (twoSpaces_tables ht) (not_names_zero t)
  · exact absurd (twoSpaces_tables ht) (not_names_zero t)

theorem twoSpaces_mmio (w : Word) :
    (twoSpaces w).mem.phys (twoSpaces w).mem.kernPgdir 958 = mkPte 3 (PTE_U ||| PTE_W) := by
      simp [twoSpaces]

/-- Pages 6 and 7 are in use for nothing. -/
theorem twoSpaces_freeApart {w : Word} (hw : ∀ t, Names w t → t = 5) : FreeApart (twoSpaces w) := by
  have hkern : (twoSpaces w).mem.kernPgdir = 2 := rfl
  have hmmio : Names (mkPte 3 (PTE_U ||| PTE_W)) 3 := by decide
  refine ⟨⟨[6, 7], ⟨⟨.cons (.cons .nil), by decide⟩, by rw [hkern]; decide, ?_⟩, ?_⟩, 3, ?_, ?_⟩
  · rintro p (⟨e, hd⟩ | ⟨e, i, ht⟩)
    · rcases twoSpaces_dirs hd with ⟨-, rfl⟩ | ⟨-, rfl⟩ <;> decide
    · rw [hw p (twoSpaces_tables ht)]
      decide
  · rintro i t ⟨hi, -, hne, hn⟩
    have h957 : i ≠ 957 := fun h => hne (h.trans (by decide))
    by_cases h958 : i = 958
    · rw [h958, twoSpaces_mmio] at hn
      rw [names_unique hn hmmio]
      decide
    · have h0 : i ≠ 0 := by
        rintro rfl
        exact absurd hi (by decide)
      simp only [twoSpaces, h957, h958, h0, and_false, if_false, ite_self] at hn
      exact absurd hn (not_names_zero t)
  · rw [show PDX MMIOBASE = 958 by decide, twoSpaces_mmio]
    exact hmmio
  · rintro (h | ⟨e, hd⟩)
    · rw [hkern] at h
      exact absurd h (by decide)
    · rcases twoSpaces_dirs hd with ⟨-, h⟩ | ⟨-, h⟩ <;> exact absurd h (by decide)

theorem twoSpaces_noDirTable : NoDirTable (twoSpaces 0) :=
  fun _ _ t ht _ => not_names_zero t (twoSpaces_tables ht)

/-! ### The kernel's half is kept, unless a table is a directory -/

/-- **Every operation keeps the kernel's half**: from a good state, in which no page on the free
list serves as a page directory or page table and no table below `UTOP` is a page directory, it
comes to a good state, in which every address from `UTOP` on but those of the `UVPT` window
translates alike in all address spaces. -/
theorem good_of_op (hop : KernelOp s s') (hfree : FreeApart s) (hno : NoDirTable s) (hg : Good s) :
    Good s' ∧ ∀ e d va, s'.dirs e = some d → UTOP ≤ va → PDX va ≠ PDX UVPT →
      translate s'.mem d va = translate s'.mem s'.mem.kernPgdir va := by
  have hg' := hop.good hfree hno hg
  exact ⟨hg', fun e d va hd hva hne => hg'.translate_eq hd hva hne⟩

/-- `sys_page_alloc` by one of two environments. -/
theorem good_of_op_twoSpaces : ∃ r s', syscall (twoSpaces 0) 0 0 twoSpacesArgs = .ok (r, s') ∧
    r = 0 ∧ Good s' := by
  have hrun : ((syscall (twoSpaces 0) 0 0 twoSpacesArgs).toOption.map Prod.fst) = some 0 := by
    decide +kernel
  cases h : syscall (twoSpaces 0) 0 0 twoSpacesArgs with
  | error lv =>
    rw [h] at hrun
    cases hrun
  | ok x =>
    rw [h] at hrun
    obtain ⟨r, s'⟩ := x
    exact ⟨r, s', rfl, Option.some.inj hrun,
      (good_of_op (.syscall h) (twoSpaces_freeApart fun t ht => absurd ht (not_names_zero t))
        twoSpaces_noDirTable
        (twoSpaces_good 0)).1⟩

/-- **An entry that names another environment's directory** lets `sys_page_alloc` write an entry of
its kernel's half. -/
theorem not_good_of_op : ¬ ∀ s s', FreeApart s → Good s → KernelOp s s' → Good s' := by
  intro hall
  have hrun : ((syscall (twoSpaces (mkPte 5 (PTE_U ||| PTE_W))) 0 0 twoSpacesArgs).toOption.map
      fun x =>
      (x.2.dirs 1, x.2.mem.kernPgdir, x.2.mem.phys 5 959 == x.2.mem.phys 2 959)) =
          some (some 5, 2, false) := by
    decide +kernel
  cases h : syscall (twoSpaces (mkPte 5 (PTE_U ||| PTE_W))) 0 0 twoSpacesArgs with
  | error lv =>
    rw [h] at hrun
    cases hrun
  | ok x =>
    obtain ⟨r, s'⟩ := x
    rw [h] at hrun
    simp only [Except.toOption, Option.map_some, Option.some.injEq, Prod.mk.injEq,
      beq_eq_false_iff_ne] at hrun
    obtain ⟨hd, hkern, hne⟩ := hrun
    have hnames : Names (mkPte 5 (PTE_U ||| PTE_W)) 5 := by decide
    have hg := hall _ s' (twoSpaces_freeApart fun t ht => names_unique ht hnames) (twoSpaces_good _)
      (.syscall h)
    have := hg.upper 1 5 959 hd (by decide) (by decide) (by decide)
    rw [hkern] at this
    exact hne this

end JOS
