import JOS.Inc.Mmu
import Mathlib.Logic.Function.Basic

/-!
# Physical pages and page tables

The memory half of `kern/pmap.c`: the page allocator (`page_alloc`, `page_free`,
`page_decref`), the two-level page tables (`pgdir_walk`, `page_insert`,
`page_lookup`, `page_remove`) and the check of user addresses (`user_mem_check`).

## The model

Physical memory is words in pages: `phys p i` is word `i` of the page with number
`p`. A page directory and a page table are such pages, and what a user program keeps
in its pages is there as well, so nothing but the code keeps them apart. A
`struct PageInfo *` is a page number; the kernel virtual address of a page, which
`KADDR` computes, is its page number too; and a `pte_t *` is a page number and an
index (`PtePtr`). `pp_ref` has its sixteen bits.

A function returns in `Except Stop`: a failed assertion or a call of `panic` is
`Stop.panic`; reading through a null or uninitialised pointer is `Stop.undef`.

`userData` is not in the source. It records which pages were obtained for user data
(by `sys_page_alloc` or `region_alloc`) and not freed since; nothing reads it.
-/

namespace JOS

/-- Why the kernel does not go on. -/
inductive Stop where
  /-- `panic`, or an assertion that fails. -/
  | panic
  /-- A null or uninitialised pointer is used. -/
  | undef
  /-- The kernel monitor has the machine. -/
  | monitor
  /-- A loop that does not end. -/
  | diverge
  deriving DecidableEq, Repr

/-- `struct PageInfo`. -/
structure PageInfo where
  /-- Next page on the free list. -/
  ppLink : Option ℕ
  /-- The count of pointers to this page. -/
  ppRef : BitVec 16
  deriving DecidableEq, Repr

/-- The memory state of the kernel. -/
structure Mem where
  /-- Amount of physical memory, in pages. -/
  npages : ℕ
  /-- Amount of base memory, in pages. -/
  npagesBasemem : ℕ
  /-- `boot_alloc`'s next byte of free memory. -/
  nextfree : Word
  /-- The page of the kernel's page directory. -/
  kernPgdir : ℕ
  /-- The array `pages`. -/
  pages : ℕ → PageInfo
  /-- The head of the free list. -/
  pageFreeList : Option ℕ
  /-- Physical memory: word `i` of page `p`. -/
  phys : ℕ → ℕ → Word
  /-- Which pages hold user data. -/
  userData : ℕ → Bool

/-- A `pte_t *`: entry `index` of the table in page `table`. -/
structure PtePtr where
  /-- The page the table is in. -/
  table : ℕ
  /-- The index in the table. -/
  index : ℕ
  deriving DecidableEq, Repr

namespace Mem

/-- `*pte`. -/
def word (m : Mem) (pte : PtePtr) : Word := m.phys pte.table pte.index

/-- `*pte = w`. -/
def setWord (m : Mem) (p i : ℕ) (w : Word) : Mem :=
  { m with phys := Function.update m.phys p (Function.update (m.phys p) i w) }

/-- Overwrite a whole page. -/
def setPage (m : Mem) (p : ℕ) (f : ℕ → Word) : Mem :=
  { m with phys := Function.update m.phys p f }

/-- Overwrite `pages[p]`. -/
def setInfo (m : Mem) (p : ℕ) (i : PageInfo) : Mem :=
  { m with pages := Function.update m.pages p i }

/-- `pages[p].pp_ref = r`. -/
def setRef (m : Mem) (p : ℕ) (r : BitVec 16) : Mem := m.setInfo p { m.pages p with ppRef := r }

/-- Record whether page `p` holds user data. -/
def markUser (m : Mem) (p : ℕ) (b : Bool) : Mem :=
  { m with userData := Function.update m.userData p b }

/-- The link of page `p` on the free list. -/
def link (m : Mem) (p : ℕ) : Option ℕ := (m.pages p).ppLink

end Mem

/-! ### Error codes, `inc/error.h` -/

def E_BAD_ENV : Word := 2#32
def E_INVAL : Word := 3#32
def E_NO_MEM : Word := 4#32
def E_NO_FREE_ENV : Word := 5#32
def E_FAULT : Word := 6#32
def E_NO_SYS : Word := 7#32
def E_IPC_NOT_RECV : Word := 8#32

/-! ### The page allocator -/

/-- `KADDR(pa)`, and so `page2kva`. -/
def kaddr (m : Mem) (pa : Word) : Except Stop ℕ :=
  if PGNUM pa ≥ m.npages then .error .panic else .ok (PGNUM pa)

/-- `pa2page(pa)`. -/
def pa2page (m : Mem) (pa : Word) : Except Stop ℕ :=
  if PGNUM pa ≥ m.npages then .error .panic else .ok (PGNUM pa)

/-- `page_alloc`; `zero` is `alloc_flags & ALLOC_ZERO`. -/
def pageAlloc (m : Mem) (zero : Bool) : Except Stop (Option ℕ × Mem) :=
  match m.pageFreeList with
  | none => .ok (none, m)
  | some newPage => do
    let m := { m with pageFreeList := (m.pages newPage).ppLink }
    let m := m.setInfo newPage { m.pages newPage with ppLink := none }
    if zero then
      let kva ← kaddr m (page2pa newPage)
      return (some newPage, m.setPage kva fun _ => 0)
    else
      return (some newPage, m)

/-- `page_free`. -/
def pageFree (m : Mem) (pp : ℕ) : Except Stop Mem :=
  if (m.pages pp).ppRef ≠ 0 then .error .panic
  else if (m.pages pp).ppLink ≠ none then .error .panic
  else
    let m := (m.setInfo pp { m.pages pp with ppLink := m.pageFreeList }).markUser pp false
    .ok { m with pageFreeList := some pp }

/-- `page_decref`. -/
def pageDecref (m : Mem) (pp : ℕ) : Except Stop Mem :=
  let m := m.setRef pp ((m.pages pp).ppRef - 1)
  if (m.pages pp).ppRef = 0 then pageFree m pp else .ok m

/-! ### Page tables -/

/-- `pgdir_walk`. -/
def pgdirWalk (m : Mem) (pgdir : ℕ) (va : Word) (create : Bool) :
    Except Stop (Option PtePtr × Mem) :=
  if test (m.phys pgdir (PDX va)) PTE_P then do
    let pt ← kaddr m (PTE_ADDR (m.phys pgdir (PDX va)))
    return (some ⟨pt, PTX va⟩, m)
  else if create then do
    match ← pageAlloc m true with
    | (none, m) => return (none, m)
    | (some newPt, m) =>
      let m := m.setRef newPt ((m.pages newPt).ppRef + 1)
      let m := m.setWord pgdir (PDX va) (page2pa newPt ||| PTE_U ||| PTE_W ||| PTE_P)
      let pt ← kaddr m (PTE_ADDR (m.phys pgdir (PDX va)))
      return (some ⟨pt, PTX va⟩, m)
  else return (none, m)

/-- `page_lookup`: the page, and the entry stored through `pte_store`. The entry is not
looked at before the page it names is returned. -/
def pageLookup (m : Mem) (pgdir : ℕ) (va : Word) : Except Stop (Option (ℕ × PtePtr)) := do
  match ← pgdirWalk m pgdir va false with
  | (none, _) => return none
  | (some pte, _) =>
    let pp ← pa2page m (PTE_ADDR (m.word pte))
    return some (pp, pte)

/-- `page_remove`. -/
def pageRemove (m : Mem) (pgdir : ℕ) (va : Word) : Except Stop Mem := do
  match ← pageLookup m pgdir va with
  | none => return m
  | some (pp, pte) =>
    let m ← pageDecref m pp
    return m.setWord pte.table pte.index 0

/-- `page_insert`. -/
def pageInsert (m : Mem) (pgdir pp : ℕ) (va perm : Word) : Except Stop (Word × Mem) := do
  match ← pgdirWalk m pgdir va true with
  | (none, m) => return (-E_NO_MEM, m)
  | (some pte, m) =>
    let m ←
      if test (m.word pte) PTE_P then
        -- the same page again: the old reference goes, the new one comes below
        if PTE_ADDR (m.word pte) = page2pa pp then pure (m.setRef pp ((m.pages pp).ppRef - 1))
        else pageRemove m pgdir va
      else pure m
    let m := m.setWord pte.table pte.index (mkPte pp perm)
    let m := m.setRef pp ((m.pages pp).ppRef + 1)
    let m := m.setWord pgdir (PDX va) (m.phys pgdir (PDX va) ||| perm)
    return (0, m)

/-! ### Checking user addresses -/

/-- The loop of `user_mem_check` from page address `i`: `none` when every page up to `fin`
passes, else what is stored in `user_mem_check_addr`. A 32-bit space has `2 ^ 20` pages,
so that much fuel is enough. -/
def userMemCheckLoop (m : Mem) (pgdir : ℕ) (va fin perm : Word) : ℕ → Word →
    Except Stop (Option Word)
  | 0, _ => .ok none
  | n + 1, i =>
    if i < fin then do
      let bad ← match ← pgdirWalk m pgdir i false with
        | (none, _) => pure true
        | (some pte, _) =>
          pure (decide (i ≥ ULIM) || !test (m.word pte) PTE_P || m.word pte &&& perm != perm)
      if bad then return some (if i < va then va else i)
      else userMemCheckLoop m pgdir va fin perm n (i + PGSIZE)
    else .ok none

/-- `user_mem_check`, for the environment with directory `pgdir`: the result, and the value
`user_mem_check_addr` gets when the result is `-E_FAULT`. -/
def userMemCheck (m : Mem) (pgdir : ℕ) (va len perm : Word) : Except Stop (Word × Option Word) := do
  let bad ← userMemCheckLoop m pgdir va (ROUNDUP (va + len) PGSIZE) perm (2 ^ 20)
    (ROUNDDOWN va PGSIZE)
  return (if bad.isSome then -E_FAULT else 0, bad)

/-! ### Memory through a page directory -/

/-- What the hardware finds at `va` in the directory `pgdir`: the entry that maps it, if one
is present. -/
def translate (m : Mem) (pgdir : ℕ) (va : Word) : Option Word :=
  let pde := m.phys pgdir (PDX va)
  if test pde PTE_P then
    let pte := m.phys (PGNUM pde) (PTX va)
    if test pte PTE_P then some pte else none
  else none

/-- Byte `k` of a word. -/
def byteOf (w : Word) (k : ℕ) : BitVec 8 := (w >>> (8 * k)).setWidth 8

/-- A word with byte `k` replaced. -/
def setByte (w : Word) (k : ℕ) (b : BitVec 8) : Word :=
  (w &&& ~~~((0xFF#32) <<< (8 * k))) ||| (b.setWidth 32 <<< (8 * k))

/-- The word of its page an address is in. -/
def wordIndex (va : Word) : ℕ := (PGOFF va).toNat / 4

/-- The byte of its word an address is. -/
def byteIndex (va : Word) : ℕ := va.toNat % 4

/-- A load of one byte by the kernel; `none` is a page fault. -/
def loadByte (m : Mem) (pgdir : ℕ) (va : Word) : Option (BitVec 8) :=
  (translate m pgdir va).map fun pte => byteOf (m.phys (PGNUM pte) (wordIndex va)) (byteIndex va)

/-- A store of one byte to the page that `pte` maps. -/
def Mem.storeAt (m : Mem) (pte va : Word) (b : BitVec 8) : Mem :=
  m.setWord (PGNUM pte) (wordIndex va)
    (setByte (m.phys (PGNUM pte) (wordIndex va)) (byteIndex va) b)

/-- A store of one byte by the kernel. The kernel runs with `CR0_WP` set, so a page without
`PTE_W` faults as an absent one does, and a page fault in the kernel is a panic. -/
def storeByte (m : Mem) (pgdir : ℕ) (va : Word) (b : BitVec 8) : Except Stop Mem :=
  match translate m pgdir va with
  | some pte => if test pte PTE_W then .ok (m.storeAt pte va b) else .error .panic
  | none => .error .panic

/-- A store of one word, of four bytes, little end first. -/
def storeWord (m : Mem) (pgdir : ℕ) (va w : Word) : Except Stop Mem :=
  (List.range 4).foldlM (fun m k => storeByte m pgdir (va + BitVec.ofNat 32 k) (byteOf w k)) m

/-- Consecutive words stored from `va` on. -/
def storeWords (m : Mem) (pgdir : ℕ) : Word → List Word → Except Stop Mem
  | _, [] => .ok m
  | va, w :: ws => do storeWords (← storeWord m pgdir va w) pgdir (va + 4) ws

end JOS
