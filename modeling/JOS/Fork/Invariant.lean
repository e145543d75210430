import JOS.Fork.Calls
import JOS.Fork.Uvpt
import JOS.Spaces.Upper

/-!
# Forks in progress

What holds between any two moves of a world of programs that fork (`Cow`). A page that a program can
write is mapped at no other place (`Sharing.Alone`), but for two moments: between the two
`sys_page_map` of `duppage`, and before `pgfault` unmaps `PFTEMP` (`Lib.Excuses`). Where each
program is in the library says what its page tables and pages look like (`ForkOk`, `FaultOk`), and
the child that it is building is an environment that does not run yet (`Building`).
-/

namespace JOS

open JOS.General

/-! ### Programs -/

/-- The child that a program in `fork` is building. -/
def ForkPc.builds : ForkPc → Option Word
  | .scan envid _ => some envid
  | .dup envid _ => some envid
  | .dupChild envid _ => some envid
  | .dupSelf envid _ => some envid
  | .dupRead envid _ => some envid
  | .stackAlloc envid => some envid
  | .upcallSet envid => some envid
  | .statusSet envid => some envid
  | _ => none

/-- Page `v` of `e` is mapped. -/
def Present (s : KState) (e v : ℕ) : Prop := test (s.upte e v) PTE_P = true

/-- A page that `fork` copies: below the stack's end, and not `PFTEMP`. -/
def UserPageNo (v : ℕ) : Prop := v < PGNUM USTACKTOP ∧ v ≠ PGNUM PFTEMP

/-- The page that `duppage` works on. -/
structure Duplicating (s : KState) (e : ℕ) (addr : Word) : Prop where
  user : UserPageNo (PGNUM addr)
  present : Present s e (PGNUM addr)

/-- A page that `pgfault` works on: it was marked copy-on-write. -/
structure CowPage (s : KState) (e : ℕ) (addr : Word) : Prop where
  user : UserPageNo (PGNUM addr)
  aligned : addr.toNat % 4096 = 0
  present : Present s e (PGNUM addr)
  cow : test (s.upte e (PGNUM addr)) PTE_COW = true

/-- The first `n` bytes at `PFTEMP` are those at `addr`. -/
def Copied8 (s : KState) (e : ℕ) (addr : Word) (n : ℕ) : Prop :=
  ∀ o : Fin 4096, o.val < n → s.sharing.content (PGNUM (s.upte e (PGNUM PFTEMP))) o =
    s.sharing.content (PGNUM (s.upte e (PGNUM addr))) o

/-- `pgfault` has a page at `PFTEMP`, and has copied `n` bytes to it. What it finds above `UTOP`
does not matter: it cannot map anything there. -/
structure Copying (s : KState) (e : ℕ) (addr : Word) (n : ℕ) : Prop where
  present : Present s e (PGNUM PFTEMP)
  writable : test (s.upte e (PGNUM PFTEMP)) PTE_W = true
  page : addr < UTOP → CowPage s e addr ∧ Copied8 s e addr n

/-- `pgfault` has mapped its copy, which is still at `PFTEMP`, too. -/
structure Doubled (s : KState) (e : ℕ) (addr : Word) : Prop where
  user : UserPageNo (PGNUM addr)
  present : Present s e (PGNUM PFTEMP)

/-- What holds of the page tables of `e` while it is in `fork`. -/
def ForkOk (s : KState) (e : ℕ) : ForkPc → Prop
  | .dup _ addr => Duplicating s e addr
  | .dupChild _ addr => Duplicating s e addr
  | .dupSelf _ addr => Duplicating s e addr
  | .dupRead _ addr => Duplicating s e addr ∧ test (s.upte e (PGNUM addr)) PTE_W = false ∧
      test (s.upte e (PGNUM addr)) PTE_COW = false
  | _ => True

/-- What holds of the page tables of `e` while it is in its page fault handler. -/
def FaultOk (s : KState) (e : ℕ) : FaultPc → Prop
  | .none => ¬ Present s e (PGNUM PFTEMP)
  | .entered _ _ => ¬ Present s e (PGNUM PFTEMP)
  | .alloc addr => ¬ Present s e (PGNUM PFTEMP) ∧ (addr < UTOP → CowPage s e addr)
  | .copy addr n => n < 4096 ∧ Copying s e addr n
  | .map addr => Copying s e addr 4096
  | .unmap addr => Doubled s e addr

/-- What holds of the page tables of `e` while it is at `l`. -/
structure LibOk (s : KState) (e : ℕ) (l : Lib) : Prop where
  stopped : l.fork = .panicked → l.fault = .none
  fork : l.fork ≠ .panicked → ForkOk s e l.fork
  fault : l.fork ≠ .panicked → FaultOk s e l.fault

/-- The page that `e` can write at `v` may be mapped at the place `j`, too: the child has it
already, or it is the copy that `pgfault` has made. A program that has stopped writes nothing. -/
def Lib.Excuses (l : Lib) (e v : ℕ) (j : ℕ × ℕ) : Prop :=
  l.fork = .panicked ∨ (∃ envid addr, l.fork = .dupSelf envid addr ∧ v = PGNUM addr ∧
    j = (ENVX envid, PGNUM addr)) ∨
    ∃ addr, l.fault = .unmap addr ∧ j.1 = e ∧
    (v = PGNUM PFTEMP ∧ j.2 = PGNUM addr ∨ v = PGNUM addr ∧ j.2 = PGNUM PFTEMP)

/-! ### The kernel -/

/-- What holds in every state of the kernel. -/
structure KernOk (s : KState) : Prop where
  sound : SoundState s
  good : Good s
  ids : OwnIds s.table

/-- A page is mapped at one address only, though by any number of environments; `PFTEMP` does not
count. -/
def OneAddress (s : KState) : Prop := ∀ e v e' v' p, Names (s.upte e v) p → Names (s.upte e' v') p →
  v ≠ PGNUM PFTEMP → v' ≠ PGNUM PFTEMP → v = v'

/-- Copy-on-write pages are below the stack's end. -/
def CowLow (s : KState) : Prop := ∀ e v, test (s.upte e v) PTE_COW = true → v < PGNUM USTACKTOP

/-- The environment that `e` builds has the id `envid`, and does not run yet. -/
structure Building (s : KState) (e : ℕ) (envid : Word) : Prop where
  slot : (s.envs (ENVX envid)).envId = envid
  parent : (s.envs (ENVX envid)).envParentId = (s.envs e).envId
  ne : ENVX envid ≠ e
  asleep : Asleep s.table (ENVX envid)
  live : s.dirs (ENVX envid) ≠ none

/-! ### The world -/

/-- The pages of the two places may be the same, though the first can be written. -/
def Excused (lib : ℕ → Lib) (i j : ℕ × ℕ) : Prop := (lib i.1).Excuses i.1 i.2 j

/-- **What holds between two moves**, when the kernel is at `s` and the programs are at `lib`. -/
structure Cow (s : KState) (lib : ℕ → Lib) : Prop where
  kern : KernOk s
  gone : ∀ e, s.dirs e = none → lib e = .start
  alone : s.sharing.Alone (Excused lib)
  oneAddress : OneAddress s
  low : CowLow s
  libOk : ∀ e, LibOk s e (lib e)
  builds : ∀ e envid, (lib e).fork.builds = some envid → Building s e envid ∧
    lib (ENVX envid) = .child

end JOS
