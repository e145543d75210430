import Mathlib.Data.Nat.Bitwise
import Mathlib.Tactic.IntervalCases

/-!
# Words, addresses and page table entries

The constants and macros of `inc/types.h`, `inc/mmu.h` and `inc/memlayout.h` that the
memory code uses. A `uint32_t` (an address, a page table entry, a register) is a
`Word`; a physical page is named by its page number, a natural number, so that
`page2pa` and `PGNUM` go between the two. `test w f` is the truth value of the C
expression `w & f`.

The lemmas reduce the macros to arithmetic on page numbers, and say what can be read
back from an entry built as `page2pa(pp) | perm | PTE_P`; the other modules use
nothing else about bits.
-/

namespace JOS

/-- A 32-bit machine word. -/
abbrev Word := BitVec 32

/-! ### `inc/mmu.h` -/

def PGSIZE : Word := 4096#32
def NPDENTRIES : ℕ := 1024
def NPTENTRIES : ℕ := 1024
def PTSIZE : Word := 0x400000#32

/-- `PGNUM(la)`: the page number of an address. -/
def PGNUM (la : Word) : ℕ := (la >>> 12).toNat

/-- `PDX(la)`: the page directory index. -/
def PDX (la : Word) : ℕ := ((la >>> 22) &&& 0x3FF).toNat

/-- `PTX(la)`: the page table index. -/
def PTX (la : Word) : ℕ := ((la >>> 12) &&& 0x3FF).toNat

/-- `PGOFF(la)`: the offset in the page. -/
def PGOFF (la : Word) : Word := la &&& 0xFFF

/-- `PGADDR(d, t, o)`: the address with the given indices and offset. -/
def PGADDR (d t o : ℕ) : Word :=
  (BitVec.ofNat 32 d <<< 22) ||| (BitVec.ofNat 32 t <<< 12) ||| BitVec.ofNat 32 o

def PTE_P : Word := 0x001#32
def PTE_W : Word := 0x002#32
def PTE_U : Word := 0x004#32
def PTE_PWT : Word := 0x008#32
def PTE_PCD : Word := 0x010#32
def PTE_AVAIL : Word := 0xE00#32

/-- The flags a system call may use. -/
def PTE_SYSCALL : Word := PTE_AVAIL ||| PTE_P ||| PTE_W ||| PTE_U

/-- `PTE_ADDR(pte)`: the address in an entry. -/
def PTE_ADDR (pte : Word) : Word := pte &&& ~~~0xFFF

/-- The truth value of `w & f`. -/
def test (w f : Word) : Bool := w &&& f != 0#32

/-- `ROUNDDOWN(a, n)`, in 32 bits. -/
def ROUNDDOWN (a n : Word) : Word := a - a % n

/-- `ROUNDUP(a, n)`, in 32 bits: the sum wraps. -/
def ROUNDUP (a n : Word) : Word := ROUNDDOWN (a + n - 1) n

/-! ### `inc/memlayout.h` -/

def KERNBASE : Word := 0xF0000000#32
def IOPHYSMEM : Word := 0x0A0000#32
def EXTPHYSMEM : Word := 0x100000#32
def KSTACKTOP : Word := KERNBASE
def KSTKSIZE : Word := 8 * PGSIZE
def KSTKGAP : Word := 8 * PGSIZE
def MMIOLIM : Word := KSTACKTOP - PTSIZE
def MMIOBASE : Word := MMIOLIM - PTSIZE
def ULIM : Word := MMIOBASE
def UVPT : Word := ULIM - PTSIZE
def UPAGES : Word := UVPT - PTSIZE
def UENVS : Word := UPAGES - PTSIZE
def UTOP : Word := UENVS
def UXSTACKTOP : Word := UTOP
def USTACKTOP : Word := UTOP - 2 * PGSIZE
def UTEMP : Word := PTSIZE
def PFTEMP : Word := UTEMP + PTSIZE - PGSIZE
def MPENTRY_PADDR : Word := 0x7000#32

/-- The number of pages below `UTOP`: page numbers `0,..NUPAGES` are the user's. -/
def NUPAGES : ℕ := 0xeec00

/-- `PDX(UTOP)`: directory indices `0,..NUPDX` are the user's. -/
def NUPDX : ℕ := 955

example : PGNUM UTOP = NUPAGES ∧ PDX UTOP = NUPDX := by decide

/-- `page2pa`, for the page with number `p` (`kern/pmap.h`). -/
def page2pa (p : ℕ) : Word := BitVec.ofNat 32 p <<< 12

/-! ### Page numbers -/

theorem PGNUM_eq (la : Word) : PGNUM la = la.toNat / 4096 := by
  simp [PGNUM, BitVec.toNat_ushiftRight, Nat.shiftRight_eq_div_pow]

theorem PGNUM_lt (la : Word) : PGNUM la < 2 ^ 20 := by
  rw [PGNUM_eq]; have := la.isLt; omega

theorem PDX_eq (la : Word) : PDX la = PGNUM la / 1024 := by
  rw [PGNUM_eq]
  simp only [PDX, BitVec.toNat_and, BitVec.toNat_ushiftRight, Nat.shiftRight_eq_div_pow]
  rw [show (0x3FF : Word).toNat = 2 ^ 10 - 1 from rfl, Nat.and_two_pow_sub_one_eq_mod]
  have := la.isLt; omega

theorem PTX_eq (la : Word) : PTX la = PGNUM la % 1024 := by
  rw [PGNUM_eq]
  simp only [PTX, BitVec.toNat_and, BitVec.toNat_ushiftRight, Nat.shiftRight_eq_div_pow]
  rw [show (0x3FF : Word).toNat = 2 ^ 10 - 1 from rfl, Nat.and_two_pow_sub_one_eq_mod]

theorem PTX_lt (la : Word) : PTX la < 1024 := by rw [PTX_eq]; omega

/-- Page after page. -/
theorem PGNUM_add_pages {va : Word} {i : ℕ} (hi : PGNUM va + i < 2 ^ 20) :
    PGNUM (va + BitVec.ofNat 32 i * PGSIZE) = PGNUM va + i := by
  rw [PGNUM_eq] at hi
  have hva := va.isLt
  have hpage : (BitVec.ofNat 32 i * PGSIZE).toNat = i * 4096 := by
    rw [BitVec.toNat_mul, BitVec.toNat_ofNat, PGSIZE, BitVec.toNat_ofNat]
    omega
  rw [PGNUM_eq, PGNUM_eq, BitVec.toNat_add, hpage]
  omega

/-- An address below `UTOP` has a user page number. -/
theorem PGNUM_lt_iff (va : Word) : PGNUM va < NUPAGES ↔ va < UTOP := by
  rw [PGNUM_eq, BitVec.lt_def, show UTOP.toNat = 0xeec00000 from by decide, NUPAGES]
  omega

theorem PDX_lt_of_PGNUM {va : Word} (h : PGNUM va < NUPAGES) : PDX va < NUPDX := by
  rw [PDX_eq]; unfold NUPAGES at h; unfold NUPDX; omega

theorem PGADDR_eq {d t : ℕ} (hd : d < 1024) (ht : t < 1024) :
    (PGADDR d t 0).toNat = (d * 1024 + t) * 4096 := by
  have h1 : (BitVec.ofNat 32 d <<< 22).toNat = d * 2 ^ 22 := by
    rw [BitVec.toNat_shiftLeft, BitVec.toNat_ofNat, Nat.shiftLeft_eq]; omega
  have h2 : (BitVec.ofNat 32 t <<< 12).toNat = t * 2 ^ 12 := by
    rw [BitVec.toNat_shiftLeft, BitVec.toNat_ofNat, Nat.shiftLeft_eq]; omega
  have h3 : d * 2 ^ 22 ||| t * 2 ^ 12 = d * 2 ^ 22 + t * 2 ^ 12 := by
    rw [mul_comm d, ← Nat.two_pow_add_eq_or_of_lt (by omega)]
  simp only [PGADDR, BitVec.toNat_or, h1, h2, h3]
  simp; omega

theorem PGNUM_PGADDR {d t : ℕ} (hd : d < 1024) (ht : t < 1024) :
    PGNUM (PGADDR d t 0) = d * 1024 + t := by
  rw [PGNUM_eq, PGADDR_eq hd ht]; omega

/-! ### Entries -/

theorem page2pa_toNat {p : ℕ} (hp : p < 2 ^ 20) : (page2pa p).toNat = p * 4096 := by
  rw [page2pa, BitVec.toNat_shiftLeft, BitVec.toNat_ofNat, Nat.shiftLeft_eq]; omega

theorem page2pa_add {n i : ℕ} (h : n + i < 2 ^ 20) :
    page2pa n + BitVec.ofNat 32 i * PGSIZE = page2pa (n + i) := by
  refine BitVec.eq_of_toNat_eq ?_
  rw [BitVec.toNat_add, BitVec.toNat_mul, BitVec.toNat_ofNat, show PGSIZE.toNat = 4096 from rfl,
    page2pa_toNat h,
    page2pa_toNat (by omega)]
  omega

/-- The address of a page is that of its page number. -/
theorem page2pa_PGNUM {pa : Word} (h : pa.toNat % 4096 = 0) : page2pa (PGNUM pa) = pa := by
  refine BitVec.eq_of_toNat_eq ?_
  rw [page2pa_toNat (PGNUM_lt pa), PGNUM_eq]
  omega

/-- Flags occupy the low twelve bits of an entry. -/
def IsFlags (f : Word) : Prop := f.toNat < 4096

instance (f : Word) : Decidable (IsFlags f) := inferInstanceAs (Decidable (_ < _))

theorem PGNUM_or {w f : Word} (hf : IsFlags f) : PGNUM (w ||| f) = PGNUM w := by
  simp only [PGNUM, BitVec.toNat_ushiftRight, BitVec.toNat_or, Nat.shiftRight_or_distrib]
  rw [show f.toNat >>> 12 = 0 by rw [Nat.shiftRight_eq_div_pow]; exact Nat.div_eq_of_lt hf]
  exact Nat.or_zero _

theorem PGNUM_page2pa {p : ℕ} (hp : p < 2 ^ 20) : PGNUM (page2pa p) = p := by
  rw [PGNUM_eq, page2pa_toNat hp]; omega

/-- Taking away the low bits, with a mask of `k` ones. -/
theorem and_not_mask (x : Word) {m : Word} (k : ℕ) (hm : ∀ i < 32, m.getLsbD i = decide (i < k)) :
    x &&& ~~~m = x >>> k <<< k := by
  refine BitVec.eq_of_getLsbD_eq fun i hi => ?_
  simp only [BitVec.getLsbD_and, BitVec.getLsbD_not, BitVec.getLsbD_shiftLeft,
    BitVec.getLsbD_ushiftRight, hi, decide_true,
    Bool.true_and, hm i hi]
  by_cases hlt : i < k
  · simp [hlt]
  · simp [hlt, Nat.add_sub_cancel' (Nat.le_of_not_lt hlt)]

/-- The address in an entry is that of the page it refers to. -/
theorem PTE_ADDR_eq (w : Word) : PTE_ADDR w = page2pa (PGNUM w) := by
  rw [PTE_ADDR, and_not_mask w 12 (by decide), page2pa, PGNUM, BitVec.ofNat_toNat,
    BitVec.setWidth_eq]

@[simp] theorem PGNUM_PTE_ADDR (w : Word) : PGNUM (PTE_ADDR w) = PGNUM w := by
  rw [PTE_ADDR_eq, PGNUM_page2pa (PGNUM_lt w)]

/-- Comparing the address in an entry with a page's address compares page numbers. -/
theorem PTE_ADDR_eq_iff {w : Word} {p : ℕ} (hp : p < 2 ^ 20) : PTE_ADDR w = page2pa p ↔
    PGNUM w = p := by
  constructor
  · intro h
    rw [← PGNUM_PTE_ADDR, h, PGNUM_page2pa hp]
  · rintro rfl
    exact PTE_ADDR_eq w

theorem test_or (a b f : Word) : test (a ||| b) f = (test a f || test b f) := by
  have h : (a ||| b) &&& f = (a &&& f) ||| (b &&& f) := by
    rw [BitVec.and_comm, BitVec.and_or_distrib_left, BitVec.and_comm f a, BitVec.and_comm f b]
  rw [Bool.eq_iff_iff, Bool.or_eq_true]
  simp only [test, bne_iff_ne, h, ne_eq, BitVec.or_eq_zero_iff]
  tauto

theorem test_zero (f : Word) : test 0 f = false := by simp [test]

/-- An address has no flags set. -/
theorem page2pa_and {p : ℕ} {f : Word} (hf : IsFlags f) : page2pa p &&& f = 0#32 := by
  refine BitVec.eq_of_getLsbD_eq fun i hi => ?_
  simp only [page2pa, BitVec.getLsbD_and, BitVec.getLsbD_shiftLeft]
  by_cases h : i < 12
  · simp [h]
  · have : f.getLsbD i = false :=
      Nat.testBit_lt_two_pow (lt_of_lt_of_le hf
        (Nat.pow_le_pow_right (n := 2) (by decide) (not_lt.mp h)))
    simp [this]

theorem test_page2pa {p : ℕ} {f : Word} (hf : IsFlags f) : test (page2pa p) f = false := by
  simp [test, page2pa_and hf]

/-- An entry built as `page2pa(pp) | perm | PTE_P`. -/
def mkPte (p : ℕ) (perm : Word) : Word := page2pa p ||| perm ||| PTE_P

theorem isFlags_P : IsFlags PTE_P := by decide
theorem isFlags_W : IsFlags PTE_W := by decide
theorem isFlags_U : IsFlags PTE_U := by decide

theorem PGNUM_mkPte {p : ℕ} {perm : Word} (hp : p < 2 ^ 20) (hf : IsFlags perm) :
    PGNUM (mkPte p perm) = p := by
  rw [mkPte, PGNUM_or isFlags_P, PGNUM_or hf, PGNUM_page2pa hp]

@[simp] theorem test_mkPte_P (p : ℕ) (perm : Word) : test (mkPte p perm) PTE_P = true := by
  rw [mkPte, test_or]
  simp [test, PTE_P]

theorem test_mkPte (p : ℕ) (perm : Word) {f : Word} (hf : IsFlags f) (hP : test PTE_P f = false) :
    test (mkPte p perm) f = test perm f := by
  rw [mkPte, test_or, test_or, test_page2pa hf, hP]
  simp

theorem isFlags_or {f g : Word} (hf : IsFlags f) (hg : IsFlags g) : IsFlags (f ||| g) := by
  rw [IsFlags, BitVec.toNat_or]
  exact Nat.or_lt_two_pow (n := 12) hf hg

/-- The flags of an entry are those it was built with. -/
theorem mkPte_and {p : ℕ} {perm : Word} (hf : IsFlags perm) :
    mkPte p perm &&& 0xFFF = perm ||| PTE_P := by
  have hflags : (perm ||| PTE_P) &&& 0xFFF = perm ||| PTE_P := by
    have hlt : (perm ||| PTE_P).toNat < 2 ^ 12 := isFlags_or hf isFlags_P
    refine BitVec.eq_of_toNat_eq ?_
    rw [BitVec.toNat_and, show (0xFFF : Word).toNat = 2 ^ 12 - 1 from rfl,
      Nat.and_two_pow_sub_one_eq_mod,
      Nat.mod_eq_of_lt hlt]
  rw [mkPte, BitVec.or_assoc, BitVec.and_comm, BitVec.and_or_distrib_left,
    BitVec.and_comm _ (page2pa p),
    page2pa_and (by decide), BitVec.and_comm _ (perm ||| PTE_P), hflags, BitVec.zero_or]

/-- Permissions a system call lets through are flags. -/
theorem isFlags_of_mask {perm : Word}
    (h : perm &&& ~~~(PTE_U ||| PTE_P ||| PTE_AVAIL ||| PTE_W) = 0#32) :
    IsFlags perm := by
  have hsub : perm = perm &&& (PTE_U ||| PTE_P ||| PTE_AVAIL ||| PTE_W) := by
    have := BitVec.and_or_distrib_left (x := perm)
      (y := PTE_U ||| PTE_P ||| PTE_AVAIL ||| PTE_W)
        (z := ~~~(PTE_U ||| PTE_P ||| PTE_AVAIL ||| PTE_W))
    rw [h, BitVec.or_zero, show (PTE_U ||| PTE_P ||| PTE_AVAIL ||| PTE_W) |||
      ~~~(PTE_U ||| PTE_P ||| PTE_AVAIL ||| PTE_W) = BitVec.allOnes 32 by
        decide, BitVec.and_allOnes] at this
    exact this
  rw [IsFlags, hsub, BitVec.toNat_and]
  exact lt_of_le_of_lt Nat.and_le_right (by decide)

/-! ### Places behind an address -/

theorem offset_toNat (a : Word) {k : ℕ} (hk : k < 2 ^ 32) :
    (a + BitVec.ofNat 32 k - a).toNat = k := by
  rw [BitVec.add_comm, BitVec.add_sub_cancel, BitVec.toNat_ofNat, Nat.mod_eq_of_lt hk]

theorem offset_succ (a : Word) (k : ℕ) : a + BitVec.ofNat 32 k + 1 = a + BitVec.ofNat 32
    (k + 1) := by
  rw [BitVec.ofNat_add, ← BitVec.add_assoc]
  rfl

theorem offset_inj (a : Word) {j k : ℕ} (hj : j < 2 ^ 32) (hk : k < 2 ^ 32)
    (h : a + BitVec.ofNat 32 j = a + BitVec.ofNat 32 k) :
    j = k := by
  rw [← offset_toNat a hj, h, offset_toNat a hk]

/-- Every address is a place behind another. -/
theorem offset_sub (a p : Word) : a + BitVec.ofNat 32 (p - a).toNat = p := by
  rw [BitVec.ofNat_toNat, BitVec.setWidth_eq, BitVec.add_comm, BitVec.sub_add_cancel]

end JOS
