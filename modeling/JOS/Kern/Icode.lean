import JOS.Kern.Env

/-!
# Loading a program

`load_icode` and `env_create` (`kern/env.c`), which the kernel calls while it boots. An
ELF image is its header's fields, its program headers in order, and its bytes.
-/

namespace JOS

/-- `struct Proghdr`, the fields `load_icode` reads. -/
structure Proghdr where
  pType : Word
  pOffset : Word
  pVa : Word
  pFilesz : Word
  pMemsz : Word

/-- An ELF image: `struct Elf`, the program headers from `e_phoff` on, and the bytes. -/
structure Elf where
  eMagic : Word
  eEntry : Word
  ph : List Proghdr
  binary : Word → BitVec 8

def ELF_MAGIC : Word := 0x464C457F#32
def ELF_PROG_LOAD : Word := 1#32

/-- `n` bytes stored from `va` on through the directory `pgdir`: `memmove` and `memset` to user
addresses. -/
def storeBytes (pgdir : ℕ) (va : Word) (f : ℕ → BitVec 8) (n : ℕ) (m : Mem) : Except Stop Mem :=
  (List.range n).foldlM (fun m k => storeByte m pgdir (va + BitVec.ofNat 32 k) (f k)) m

/-- One segment of `load_icode`, in the directory `pgdir` of `e`, which CR3 holds. -/
def loadSegment (s : KState) (e pgdir : ℕ) (elf : Elf) (ph : Proghdr) : Except Stop KState := do
  let s ← regionAlloc s e ph.pVa ph.pMemsz
  let m ← storeBytes pgdir ph.pVa (fun k => elf.binary (ph.pOffset + BitVec.ofNat 32 k))
    ph.pFilesz.toNat s.mem
  let m ← storeBytes pgdir (ph.pVa + ph.pFilesz) (fun _ => 0) (ph.pMemsz - ph.pFilesz).toNat m
  return { s with mem := m }

/-- `load_icode`, on CPU `c`. -/
def loadIcode (s : KState) (c e : ℕ) (elf : Elf) : Except Stop KState :=
  if elf.eMagic ≠ ELF_MAGIC then .error .panic
  else do
    let pgdir ← deref (s.envs e).envPgdir
    let s ← (elf.ph.filter fun ph => ph.pType = ELF_PROG_LOAD).foldlM
      (fun s ph => loadSegment s e pgdir elf ph) (s.lcr3 c pgdir)
    let s := s.setEnv e { s.envs e with envTf := { (s.envs e).envTf with tfEip := elf.eEntry } }
    regionAlloc (s.lcr3 c s.mem.kernPgdir) e (USTACKTOP - PGSIZE) PGSIZE

/-- `env_create`, on CPU `c`. -/
def envCreate (s : KState) (c : ℕ) (elf : Elf) : Except Stop KState := do
  match ← envAlloc s 0 with
  | (.error _, _) => .error .panic
  | (.ok e, s) => loadIcode (s.log (.alloc e .runnable)) c e elf

end JOS
