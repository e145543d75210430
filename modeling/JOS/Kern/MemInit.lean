import JOS.Kern.Boot

/-!
# Mapping the kernel's half

`boot_map_region` and `mmio_map_region` of `kern/pmap.c`: the static mappings above
`UTOP`, which have no reference counts. `pgdir_walk` may return null there, and
`boot_map_region` stores through what it returns.

`mem_init` is in two parts, before and after the checks of the page allocator that it
calls. A kernel address is a word here, since where the arrays are is what matters; the
directory `kern_pgdir` is named by its page number, as everywhere.
-/

namespace JOS

/-- One pass of the loop of `boot_map_region`. -/
def bootMapPage (m : Mem) (pgdir : ℕ) (va pa perm : Word) : Except Stop Mem := do
  match ← pgdirWalk m pgdir va true with
  | (none, _) => .error .undef
  | (some pte, m) => return m.setWord pte.table pte.index (pa ||| perm ||| PTE_P)

/-- `boot_map_region`. -/
def bootMapRegion (m : Mem) (pgdir : ℕ) (va size pa perm : Word) : Except Stop Mem :=
  (List.range (PGNUM (ROUNDUP size PGSIZE))).foldlM (fun m i =>
    bootMapPage m pgdir (va + BitVec.ofNat 32 i * PGSIZE) (pa + BitVec.ofNat 32 i * PGSIZE) perm) m

/-- `mmio_map_region`, when the static variable `base` is `base`: the base of the reserved region,
and the new value of the variable. -/
def mmioMapRegion (m : Mem) (base pa size : Word) : Except Stop (Word × Word × Mem) :=
  let mmioSize := ROUNDUP size PGSIZE
  if base + mmioSize > MMIOLIM then .error .panic
  else do
    let m ← bootMapRegion m m.kernPgdir base mmioSize pa (PTE_PCD ||| PTE_PWT ||| PTE_W)
    return (base, base + mmioSize, m)

/-! ### `mem_init` -/

/-- `PADDR(kva)`. -/
def paddr (kva : Word) : Except Stop Word := if kva < KERNBASE then .error .panic
    else .ok (kva - KERNBASE)

/-- `boot_alloc`; `fin` is the linker's symbol `end`. The static variable `nextfree` is null at
first. -/
def bootAlloc (fin : Word) (m : Mem) (n : Word) : Except Stop (Word × Mem) :=
  let m := if m.nextfree = 0 then { m with nextfree := ROUNDUP fin PGSIZE } else m
  if n > 0 then
    if m.nextfree > KERNBASE + BitVec.ofNat 32 m.npages * PGSIZE then .error .panic
    else .ok (m.nextfree, { m with nextfree := ROUNDUP (m.nextfree + n) PGSIZE })
  else .ok (m.nextfree, m)

/-- `sizeof(struct PageInfo)`. -/
def sizeofPageInfo : Word := 8#32

/-- `sizeof(struct Env)`. -/
def sizeofEnv : Word := 124#32

/-- `PageInfo_Size` and `Env_size` of `mem_init`. -/
def pageInfoSize (m : Mem) : Word := sizeofPageInfo * BitVec.ofNat 32 m.npages
def envSize : Word := sizeofEnv * BitVec.ofNat 32 NENV

/-- `mem_init` up to `page_init`: the addresses of `pages` and `envs`. -/
def memInitAlloc (fin : Word) (m : Mem) : Except Stop (Word × Word × Mem) := do
  let (kernPgdir, m) ← bootAlloc fin m PGSIZE
  let m := { m with kernPgdir := PGNUM (kernPgdir - KERNBASE) }
  let m := m.setPage m.kernPgdir fun _ => 0
  let m := m.setWord m.kernPgdir (PDX UVPT) ((← paddr kernPgdir) ||| PTE_U ||| PTE_P)
  let (pages, m) ← bootAlloc fin m (pageInfoSize m)
  let m := { m with pages := fun p => if p < m.npages then ⟨none, 0⟩ else m.pages p }
  let (envs, m) ← bootAlloc fin m envSize
  -- `page_init` calls `boot_alloc(0)` for the value of `nextfree`
  let (_, m) ← bootAlloc fin m 0
  return (pages, envs, pageInit m)

/-- `NCPU` of `kern/cpu.h`. -/
def NCPU : ℕ := 8

/-- `mem_init_mp`: in pass `i`, `kstacktop_i` has been decremented `i` times. -/
def memInitMp (m : Mem) (percpuKstacks : ℕ → Word) : Except Stop Mem :=
  (List.range NCPU).foldlM (fun m i => do
    bootMapRegion m m.kernPgdir (KSTACKTOP - KSTKSIZE - BitVec.ofNat 32 i *
      (KSTKSIZE + KSTKGAP)) KSTKSIZE
      (← paddr (percpuKstacks i)) (PTE_W ||| PTE_P)) m

/-- `mem_init` from the mapping of `pages` to `mem_init_mp`. -/
def memInitMap (m : Mem) (pages envs bootstack : Word) (percpuKstacks : ℕ → Word) :
    Except Stop Mem := do
  let m ← bootMapRegion m m.kernPgdir UPAGES (pageInfoSize m) (← paddr pages) (PTE_U ||| PTE_P)
  let m ← bootMapRegion m m.kernPgdir UENVS PTSIZE (← paddr envs) PTE_U
  let m ← bootMapRegion m m.kernPgdir (KSTACKTOP - KSTKSIZE) KSTKSIZE (← paddr bootstack)
    (PTE_W ||| PTE_P)
  let m ← bootMapRegion m m.kernPgdir KERNBASE (0xffffffff - KERNBASE) 0 (PTE_W ||| PTE_P)
  memInitMp m percpuKstacks

/-! ### `check_page_free_list` -/

/-- A `struct PageInfo **`: `&pp1`, `&pp2`, or the address of the link of a page. -/
inductive LinkPtr where
  | pp1
  | pp2
  | ppLink (pp : ℕ)
  deriving DecidableEq

/-- The variables of the loop that moves the pages with lower addresses to the front. -/
structure Relink where
  m : Mem
  pp1 : Option ℕ
  pp2 : Option ℕ
  /-- The array `tp`, for `pagetype` 0 and 1. -/
  tp : Bool → LinkPtr

/-- `*p = pp`. -/
def Relink.store (s : Relink) (p : LinkPtr) (pp : Option ℕ) : Relink :=
  match p with
  | .pp1 => { s with pp1 := pp }
  | .pp2 => { s with pp2 := pp }
  | .ppLink q => { s with m := s.m.setInfo q { s.m.pages q with ppLink := pp } }

/-- One pass of the loop. -/
def relinkPass (pdxLimit : ℕ) (s : Relink) (pp : ℕ) : Relink :=
  let pagetype : Bool := PDX (page2pa pp) ≥ pdxLimit
  let s := s.store (s.tp pagetype) (some pp)
  { s with tp := Function.update s.tp pagetype (.ppLink pp) }

/-- `for (pp = page_free_list; pp; pp = pp->pp_link)`. The link is read after the pass. -/
def relinkLoop (pdxLimit : ℕ) : ℕ → Option ℕ → Relink → Except Stop Relink
  | _, none, s => .ok s
  | 0, some _, _ => .error .diverge
  | f + 1, some pp, s =>
    let s := relinkPass pdxLimit s pp
    relinkLoop pdxLimit f (s.m.link pp) s

/-- The branch `only_low_memory`; `pp1` and `pp2` have no values at first. -/
def relinkFreeList (pdxLimit f : ℕ) (m : Mem) (pp1 pp2 : Option ℕ) : Except Stop Mem := do
  let s ← relinkLoop pdxLimit f m.pageFreeList ⟨m, pp1, pp2, fun pagetype =>
    if pagetype then .pp2 else .pp1⟩
  let s := s.store (s.tp true) none
  let s := s.store (s.tp false) s.pp2
  return { s.m with pageFreeList := s.pp1 }

/-- The pages that `for (pp = page_free_list; pp; pp = pp->pp_link)` goes through, when the body
leaves the links alone. -/
def freeListPages (m : Mem) : ℕ → Option ℕ → Except Stop (List ℕ)
  | _, none => .ok []
  | 0, some _ => .error .diverge
  | f + 1, some pp => do return pp :: (← freeListPages m f (m.link pp))

/-- `memset(page2kva(pp), 0x97, 128)`, if the page is below the limit. -/
def markFreePage (pdxLimit : ℕ) (m : Mem) (pp : ℕ) : Except Stop Mem :=
  if PDX (page2pa pp) < pdxLimit then do
    let kva ← kaddr m (page2pa pp)
    return m.setPage kva fun i => if i < 32 then 0x97979797 else m.phys kva i
  else return m

/-- The assertions on one page of the list. The address of a `struct PageInfo` that is named by a
page number is in the array, and at the beginning of an element, when the number is in range. -/
def freePageOk (m : Mem) (firstFreePage : Word) (pp : ℕ) : Bool :=
  pp < m.npages ∧
    page2pa pp ≠ 0 ∧ page2pa pp ≠ IOPHYSMEM ∧ page2pa pp ≠ EXTPHYSMEM - PGSIZE ∧
    page2pa pp ≠ EXTPHYSMEM ∧
    (page2pa pp < EXTPHYSMEM ∨ page2pa pp + KERNBASE ≥ firstFreePage) ∧ page2pa pp ≠ MPENTRY_PADDR

/-- `check_page_free_list`. A loop that takes more than `f` passes has come back to a page. -/
def checkPageFreeList (f : ℕ) (fin : Word) (m : Mem) (onlyLowMemory : Bool) (pp1 pp2 : Option ℕ) :
    Except Stop Mem := do
  let pdxLimit := if onlyLowMemory then 1 else NPDENTRIES
  if m.pageFreeList = none then .error .panic
  else do
    let m ← if onlyLowMemory then relinkFreeList pdxLimit f m pp1 pp2 else return m
    let m ← (← freeListPages m f m.pageFreeList).foldlM (markFreePage pdxLimit) m
    let (firstFreePage, m) ← bootAlloc fin m 0
    let l ← freeListPages m f m.pageFreeList
    let basemem := l.filter fun pp => page2pa pp < EXTPHYSMEM
    let extmem := l.filter fun pp => ¬ page2pa pp < EXTPHYSMEM
    if l.all (freePageOk m firstFreePage) ∧ basemem.length > 0 ∧ extmem.length > 0 then return m
      else .error .panic

end JOS
