import JOS.Kern.Machine
import JOS.General.Chain

/-!
# The state the kernel boots into

`page_init` (`kern/pmap.c`) and `env_init` (`kern/env.c`), and what `mem_init` and
`env_init` leave (`Booted`): every page that `page_init` does not reserve is on the
free list or is a page table of the kernel's half of `kern_pgdir`, no environment
exists, and no CPU runs one.

`mem_init` is described by what it leaves: which tables the kernel's half of the
address space has, and what they map, depends on the machine, and the checks it calls
permute the free list. `bootState` is one such state.
-/

namespace JOS

open JOS.General

/-! ### `page_init` -/

/-- The pages `page_init` puts on the free list, by its branches in order. -/
def pageInitFree (npagesBasemem : ℕ) (nextfree : Word) (i : ℕ) : Bool :=
  if i = 0 then false
  else if i = PGNUM MPENTRY_PADDR then false
  else if i < npagesBasemem then true
  else if i ≥ PGNUM IOPHYSMEM ∧ i < PGNUM EXTPHYSMEM then false
  else if i ≥ PGNUM IOPHYSMEM ∧ i < PGNUM (nextfree - KERNBASE) then false
  else true

/-- A page that the page allocator manages. -/
def Mem.Managed (m : Mem) (p : ℕ) : Prop := p < m.npages ∧ pageInitFree m.npagesBasemem m.nextfree p

instance (m : Mem) (p : ℕ) : Decidable (m.Managed p) := inferInstanceAs (Decidable (_ ∧ _))

/-- One pass of the loop of `page_init`. -/
def pageInitPage (m : Mem) (i : ℕ) : Mem :=
  if i = 0 then m.setInfo i ⟨none, 1⟩
  else if i = PGNUM MPENTRY_PADDR then m
  else if i < m.npagesBasemem then { m.setInfo i ⟨m.pageFreeList, 0⟩ with pageFreeList := some i }
  else if i ≥ PGNUM IOPHYSMEM ∧ i < PGNUM EXTPHYSMEM then m.setRef i 1
  else if i ≥ PGNUM IOPHYSMEM ∧ i < PGNUM (m.nextfree - KERNBASE) then m.setInfo i ⟨none, 1⟩
  else { m.setInfo i ⟨m.pageFreeList, 0⟩ with pageFreeList := some i }

/-- `page_init`. -/
def pageInit (m : Mem) : Mem := (List.range m.npages).foldl pageInitPage m

/-! ### `env_init` -/

/-- `env_init`: the loop runs from the last environment down. -/
def envInit (s : KState) : KState :=
  (List.range NENV).foldr (fun i s =>
    { s.setEnv i { s.envs i with envId := 0, envLink := s.envFreeList, envStatus := .free } with
      envFreeList := some i }) { s with envFreeList := none }

/-! ### After boot -/

/-- Entry `i` of `kern_pgdir` names a page table of the kernel's half. -/
def Mem.KernTable (m : Mem) (i : ℕ) : Prop :=
  NUPDX ≤ i ∧ i < NPDENTRIES ∧ i ≠ PDX UVPT ∧ test (m.phys m.kernPgdir i) PTE_P

instance (m : Mem) (i : ℕ) : Decidable (m.KernTable i) :=
  inferInstanceAs (Decidable (_ ∧ _ ∧ _ ∧ _))

/-- The table that entry `i` of `kern_pgdir` names. -/
def Mem.kernTable (m : Mem) (i : ℕ) : ℕ := PGNUM (m.phys m.kernPgdir i)

/-- What `mem_init` leaves. -/
structure Mem.Booted (m : Mem) : Prop where
  /-- Physical addresses have 32 bits. -/
  npages_le : m.npages ≤ 2 ^ 20
  /-- Base memory ends where the I/O hole begins. -/
  basemem_le : m.npagesBasemem ≤ PGNUM IOPHYSMEM
  /-- `kern_pgdir` comes from `boot_alloc`. -/
  kernPgdir : m.kernPgdir < m.npages ∧ ¬ m.Managed m.kernPgdir
  /-- The user's half of `kern_pgdir` is empty. -/
  user : ∀ i < NUPDX, m.phys m.kernPgdir i = 0
  /-- A table of the kernel's half was handed out by `page_alloc`, for one reference. -/
  table : ∀ i, m.KernTable i → m.Managed (m.kernTable i) ∧ m.pages (m.kernTable i) = ⟨none, 1⟩
  /-- Different entries name different tables. -/
  table_inj : ∀ i j, m.KernTable i → m.KernTable j → m.kernTable i = m.kernTable j → i = j
  /-- All other pages that `page_init` does not reserve are free. -/
  free : ∃ l, Chain m.link m.pageFreeList l ∧
    ∀ p, p ∈ l ↔ m.Managed p ∧ ∀ i, m.KernTable i → m.kernTable i ≠ p
  /-- A free page has no references. -/
  free_ref : ∀ p, m.Managed p → (∀ i, m.KernTable i → m.kernTable i ≠ p) → (m.pages p).ppRef = 0
  /-- No page holds user data. -/
  userData : ∀ p, m.userData p = false

/-- The state after boot. -/
structure Booted (s : KState) : Prop where
  /-- Memory is as `mem_init` leaves it. -/
  mem : s.mem.Booted
  /-- No environment exists. -/
  envs : ∀ e, s.status e = .free ∧ (s.envs e).envPgdir = none
  /-- All environments are on the free list. -/
  envList : ∃ l, Chain (fun e => (s.envs e).envLink) s.envFreeList l ∧ ∀ e, e ∈ l ↔ e < NENV
  /-- No CPU runs an environment. -/
  cpus : ∀ c, s.curenv c = none

/-! ### A machine -/

/-- The greatest page below `n` that is on the free list of `page_init`. -/
def topFree (npagesBasemem : ℕ) (nextfree : Word) : ℕ → Option ℕ
  | 0 => none
  | n + 1 => if pageInitFree npagesBasemem nextfree n then some n
      else topFree npagesBasemem nextfree n

/-- The table that entry `i` of the kernel's half names, on a machine of 64 MB. -/
def bootTable (i : ℕ) : ℕ := if i < 957 then i + 15429 else i + 15428

/-- The kernel's half of a page directory on that machine: `UENVS`, `UPAGES`, the directory itself
at `UVPT`, memory-mapped devices, the kernel stacks, and 256 MB at `KERNBASE`. -/
def bootPde (i : ℕ) : Word :=
  if i = 957 then 0x300005
  else if 955 ≤ i ∧ i < 1024 then mkPte (bootTable i) (PTE_U ||| PTE_W)
  else 0

/-- Memory of 64 MB after boot, the kernel being in the first four megabytes. -/
def bootMem : Mem where
  npages := 16452
  npagesBasemem := 160
  nextfree := 0xf0400000
  kernPgdir := 0x300
  pages p :=
    if 16384 ≤ p then ⟨none, 1⟩
    else if pageInitFree 160 0xf0400000 p then ⟨topFree 160 0xf0400000 p, 0⟩
    else ⟨none, if p = PGNUM MPENTRY_PADDR then 0 else 1⟩
  pageFreeList := topFree 160 0xf0400000 16384
  phys p i := if p = 0x300 then bootPde i else 0
  userData _ := false

/-- An environment that has never been used. -/
def unusedEnv (e : ℕ) : Env where
  envTf := ⟨⟨0, 0, 0, 0, 0, 0, 0, 0⟩, 0, 0, 0, 0, 0, 0, 0, 0, 0⟩
  envLink := if e + 1 < NENV then some (e + 1) else none
  envId := 0
  envParentId := 0
  envStatus := .free
  envRuns := 0
  envCpunum := 0
  envPgdir := none
  envPgfaultUpcall := 0
  envIpcRecving := false
  envIpcDstva := 0
  envIpcValue := 0
  envIpcFrom := 0
  envIpcPerm := 0

/-- A machine with `ncpu` CPUs after boot. -/
def bootState (ncpu : ℕ) : KState where
  mem := bootMem
  envs := unusedEnv
  envFreeList := some 0
  cpus := fun c => ⟨if c < ncpu then .started else .unused, none, 0x300⟩
  acts := []

/-- The list from the greatest free page below `n` down, when links are as `page_init` makes
them. -/
theorem chain_topFree {b : ℕ} {w : Word} {next : ℕ → Option ℕ} :
    ∀ n, (∀ p < n, pageInitFree b w p → next p = topFree b w p) →
      Chain next (topFree b w n) (((List.range n).filter fun p => pageInitFree b w p).reverse) := by
  intro n
  induction n with
  | zero => exact fun _ => .nil
  | succ n ih =>
    intro hnext
    have ih := ih fun p hp => hnext p (by omega)
    rw [List.range_succ, List.filter_append, List.reverse_append, topFree]
    by_cases hn : pageInitFree b w n
    · simp only [hn, if_true, List.filter_cons_of_pos, List.filter_nil, List.reverse_singleton,
        List.singleton_append]
      exact .cons (by rw [hnext n (by omega) hn]; exact ih)
    · simp only [hn, List.filter_nil, List.reverse_nil, List.nil_append,
        Bool.false_eq_true, if_false,
        not_false_eq_true, List.filter_cons_of_neg]
      exact ih

theorem managed_bootMem {p : ℕ} : bootMem.Managed p ↔ p < 16452 ∧ p ≠ 0 ∧ p ≠ 7 ∧
    (p < 160 ∨ 1024 ≤ p) := by
  have h₁ : PGNUM MPENTRY_PADDR = 7 := by decide
  have h₂ : PGNUM IOPHYSMEM = 160 := by decide
  have h₃ : PGNUM EXTPHYSMEM = 256 := by decide
  have h₄ : PGNUM (bootMem.nextfree - KERNBASE) = 1024 := by decide
  have h₅ : bootMem.npagesBasemem = 160 := rfl
  have h₆ : bootMem.npages = 16452 := rfl
  simp only [Mem.Managed, pageInitFree, h₁, h₂, h₃, h₄, h₅, h₆]
  grind

theorem bootPde_eq {i : ℕ} (h₁ : 955 ≤ i) (h₂ : i < 1024) (h₃ : i ≠ 957) :
    bootPde i = mkPte (bootTable i) (PTE_U ||| PTE_W) := by
  rw [bootPde, if_neg h₃, if_pos ⟨h₁, h₂⟩]

theorem bootTable_bounds {i : ℕ} (h₁ : 955 ≤ i) (h₂ : i < 1024) :
    16384 ≤ bootTable i ∧ bootTable i < 16452 := by
  rw [bootTable]; split_ifs <;> omega

/-- The tables of the kernel's half are the pages from 16384 on. -/
theorem kernTable_bootMem {i : ℕ} : bootMem.KernTable i ↔ 955 ≤ i ∧ i < 1024 ∧ i ≠ 957 := by
  constructor
  · rintro ⟨h₁, h₂, h₃, -⟩
    exact ⟨h₁, h₂, h₃⟩
  · rintro ⟨h₁, h₂, h₃⟩
    refine ⟨h₁, h₂, h₃, ?_⟩
    rw [show bootMem.phys bootMem.kernPgdir i = bootPde i from rfl, bootPde_eq h₁ h₂ h₃]
    exact test_mkPte_P _ _

theorem kernTable_bootMem_eq {i : ℕ} (hi : bootMem.KernTable i) :
    bootMem.kernTable i = bootTable i := by
  obtain ⟨h₁, h₂, h₃⟩ := kernTable_bootMem.mp hi
  have := bootTable_bounds h₁ h₂
  rw [Mem.kernTable, show bootMem.phys bootMem.kernPgdir i = bootPde i from rfl,
    bootPde_eq h₁ h₂ h₃,
    PGNUM_mkPte (by omega) (by decide)]

/-- The pages below 16384 are those that are not tables. -/
theorem free_bootMem {p : ℕ} :
    (bootMem.Managed p ∧ ∀ i, bootMem.KernTable i → bootMem.kernTable i ≠ p) ↔
      p < 16384 ∧ pageInitFree 160 0xf0400000 p := by
  constructor
  · rintro ⟨⟨h₁, h₂⟩, h₃⟩
    refine ⟨lt_of_not_ge fun hge => ?_, h₂⟩
    have h₁ : p < 16452 := h₁
    -- the entry that names a page from 16384 on
    obtain ⟨i, hi, hp⟩ : ∃ i, bootMem.KernTable i ∧ bootTable i = p := by
      simp only [kernTable_bootMem, bootTable]
      by_cases h : p < 16386
      · exact ⟨p - 15429, by omega, by rw [if_pos (by omega)]; omega⟩
      · exact ⟨p - 15428, by omega, by rw [if_neg (by omega)]; omega⟩
    exact h₃ i hi (by rw [kernTable_bootMem_eq hi, hp])
  · rintro ⟨h₁, h₂⟩
    refine ⟨⟨lt_trans h₁ (by decide), h₂⟩, fun i hi => ?_⟩
    have hb := kernTable_bootMem.mp hi
    have := bootTable_bounds hb.1 hb.2.1
    rw [kernTable_bootMem_eq hi]
    omega

/-- A machine of 64 MB is one that `mem_init` can leave. -/
theorem bootMem_booted : bootMem.Booted := by
  have hpages : ∀ p < 16384, pageInitFree 160 0xf0400000 p →
      bootMem.pages p = ⟨topFree 160 0xf0400000 p, 0⟩ := by
    intro p hp h
    rw [bootMem]
    simp only [h, if_true, if_neg (show ¬ 16384 ≤ p by omega)]
  exact {
    npages_le := by decide
    basemem_le := by decide
    kernPgdir := ⟨by decide, by decide⟩
    user := fun i hi => by
      simp only [NUPDX] at hi
      rw [show bootMem.phys bootMem.kernPgdir i = bootPde i from rfl, bootPde, if_neg (by omega),
        if_neg (by omega)]
    table := fun i hi => by
      have hb := kernTable_bootMem.mp hi
      have := bootTable_bounds hb.1 hb.2.1
      rw [kernTable_bootMem_eq hi]
      refine ⟨managed_bootMem.mpr (by omega), ?_⟩
      rw [bootMem]
      simp only [this.1, if_true]
    table_inj := fun i j hi hj h => by
      rw [kernTable_bootMem_eq hi, kernTable_bootMem_eq hj] at h
      have hi := kernTable_bootMem.mp hi
      have hj := kernTable_bootMem.mp hj
      simp only [bootTable] at h
      split_ifs at h <;> omega
    free := by
      have hchain : Chain bootMem.link bootMem.pageFreeList _ :=
        chain_topFree 16384 fun p hp h => congrArg PageInfo.ppLink (hpages p hp h)
      refine ⟨_, hchain, fun p => ?_⟩
      rw [List.mem_reverse, List.mem_filter, List.mem_range, free_bootMem]
    free_ref := fun p h₁ h₂ => by
      obtain ⟨h₁, h₂⟩ := free_bootMem.mp ⟨h₁, h₂⟩
      rw [hpages p h₁ h₂]
    userData := fun _ => rfl }

/-- The list of the environments from `e` on, which `n` are left of. -/
theorem chain_unusedEnv : ∀ n e, e + n = NENV →
    Chain (fun e => (unusedEnv e).envLink) (if e < NENV then some e else none)
      (List.range' e n) := by
  intro n
  induction n with
  | zero =>
    intro e he
    rw [if_neg (by omega)]
    exact .nil
  | succ n ih =>
    intro e he
    rw [if_pos (by omega), List.range'_succ]
    exact .cons (ih (e + 1) (by omega))

/-- A machine with any number of CPUs can boot. -/
theorem bootState_booted (ncpu : ℕ) : Booted (bootState ncpu) := by
  refine ⟨bootMem_booted, fun e => ⟨rfl, rfl⟩,
    ⟨List.range' 0 NENV, chain_unusedEnv NENV 0 (zero_add _), fun e => ?_⟩,
    fun c => rfl⟩
  rw [List.mem_range'_1]
  omega

/-- An image with nothing in it but an entry point. -/
def emptyElf : Elf := ⟨ELF_MAGIC, 0x800020, [], fun _ => 0⟩

/-- The trap of a system call. -/
def sysTrap (no a1 a2 a3 a4 a5 : Word) : TrapIn where
  tf := { Trapframe.fresh with tfRegs := ⟨a4, a5, 0, 0, a3, a1, a2, no⟩, tfTrapno := T_SYSCALL }
  cr2 := 0
  getc := 0

/-- An image of four bytes at the end of the page at `0x800000`. -/
def tinyElf : Elf := ⟨ELF_MAGIC, 0x800ffc, [⟨ELF_PROG_LOAD, 0, 0x800ffc, 4, 4⟩], fun _ => 0x41⟩

/-- One environment, made from `tinyElf`, runs on CPU 0. -/
def tinyState : KState := ([.create 0 tinyElf, .start 0].foldlM step (bootState 1)).getD
    (bootState 1)

end JOS
