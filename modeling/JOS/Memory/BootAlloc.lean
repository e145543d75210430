import JOS.Memory.UserMem
import JOS.Kern.MemInit

/-!
# What `boot_alloc` hands out

`boot_alloc` moves a frontier through the memory above the kernel. Before it hands out a
block it compares the frontier with the end of memory, and not the end of the block; so
the last block may lie beyond the memory there is, or wrap round to the frontier's own
addresses. As long as every block asked for fits (`Fitting`), all of them are in memory
and apart (`bootAlloc_blocks`), and that condition cannot be weakened.
-/

namespace JOS

open JOS.General

/-- A block of memory: its address and its size. -/
structure Block where
  addr : Word
  size : Word

/-- The first address after a block. -/
def Block.fin (b : Block) : ℕ := b.addr.toNat + b.size.toNat

/-- Two blocks have no address in common. -/
def Block.Apart (b b' : Block) : Prop := b.fin ≤ b'.addr.toNat ∨ b'.fin ≤ b.addr.toNat

/-- The memory that `boot_alloc` manages, and what it has handed out, latest first. -/
structure Arena where
  mem : Mem
  blocks : List Block

/-- A call of `boot_alloc`, when the kernel ends at `fin`; `none` when it panics. -/
def arenaStep (fin : Word) (s : Arena) (n : Word) : Option Arena :=
  match bootAlloc fin s.mem n with
  | .ok (r, m) => some ⟨m, if n > 0 then ⟨r, n⟩ :: s.blocks else s.blocks⟩
  | .error _ => none

/-- The end of memory, as a kernel address. -/
def Mem.limit (m : Mem) : ℕ := KERNBASE.toNat + m.npages * 4096

/-- The value `nextfree` has after its initialisation. -/
def frontier (fin : Word) (m : Mem) : Word := if m.nextfree = 0 then ROUNDUP fin PGSIZE
    else m.nextfree

/-- A block as `boot_alloc` is to hand it out: whole pages from the kernel's end to the end of
memory. -/
def GoodBlock (fin : Word) (m : Mem) (b : Block) : Prop :=
  b.addr.toNat % 4096 = 0 ∧ fin.toNat ≤ b.addr.toNat ∧ b.fin ≤ m.limit

/-- There is room for `n` bytes after the kernel and the blocks handed out. -/
def HasRoom (fin : Word) (s : Arena) (n : Word) : Prop :=
  ∃ r, r % 4096 = 0 ∧ fin.toNat ≤ r ∧ (∀ b ∈ s.blocks, b.fin ≤ r) ∧ r + n.toNat ≤ s.mem.limit

/-- A call does what it is there for: a block that it returns is a good one, apart from all others,
and it panics when there is no room. -/
def Served (fin : Word) (s : Arena) (n : Word) : Prop :=
  (∀ r m', bootAlloc fin s.mem n = .ok (r, m') → GoodBlock fin s.mem ⟨r, n⟩ ∧ ∀ b ∈ s.blocks,
    Block.Apart ⟨r, n⟩ b) ∧
    (¬ HasRoom fin s n → bootAlloc fin s.mem n = .error .panic)

/-- The frontier is beyond memory already; or rounding up the kernel's end has not wrapped, and the
block ends where memory ends or before. -/
def Fitting (fin : Word) (s : Arena) (n : Word) : Prop :=
  0 < n.toNat → s.mem.limit < (frontier fin s.mem).toNat ∨
    fin.toNat ≤ (frontier fin s.mem).toNat ∧ (frontier fin s.mem).toNat + n.toNat ≤ s.mem.limit

/-- What the calls keep. -/
structure ArenaOk (fin : Word) (npages : ℕ) (s : Arena) : Prop where
  npages : s.mem.npages = npages
  aligned : (frontier fin s.mem).toNat % 4096 = 0
  good : ∀ b ∈ s.blocks, GoodBlock fin s.mem b
  below : ∀ b ∈ s.blocks, b.fin ≤ (frontier fin s.mem).toNat
  apart : s.blocks.Pairwise Block.Apart

variable {fin n r : Word} {m m' : Mem} {s s' : Arena} {np : ℕ}

theorem limit_congr (h : m'.npages = m.npages) : m'.limit = m.limit := by
  rw [Mem.limit, Mem.limit, h]

theorem GoodBlock.congr {b : Block} (h : GoodBlock fin m b) (hnp : m'.npages = m.npages) :
    GoodBlock fin m' b := by
  rw [GoodBlock, limit_congr hnp]
  exact h

/-! ### One call -/

/-- The end of memory, as the code computes it. -/
theorem limit_toNat (h : m.limit < 2 ^ 32) : (KERNBASE + BitVec.ofNat 32 m.npages * PGSIZE).toNat =
    m.limit := by
  rw [Mem.limit] at h ⊢
  have hk : KERNBASE.toNat = 0xF0000000 := rfl
  rw [BitVec.toNat_add, BitVec.toNat_mul, BitVec.toNat_ofNat, PGSIZE_toNat]
  omega

/-- What `boot_alloc` does: the test is of the frontier before the block. -/
theorem bootAlloc_pos (hlim : m.limit < 2 ^ 32) (hn : 0 < n.toNat) : bootAlloc fin m n =
    if m.limit < (frontier fin m).toNat then .error .panic
    else .ok (frontier fin m, { m with nextfree := ROUNDUP (frontier fin m + n) PGSIZE }) := by
  have hpos : n > 0 := BitVec.lt_def.mpr hn
  have hinit : (if m.nextfree = 0 then { m with nextfree := ROUNDUP fin PGSIZE } else m) =
      { m with nextfree := frontier fin m } := by
    rw [frontier]
    split_ifs <;> rfl
  rw [bootAlloc, hinit]
  simp only [if_pos hpos]
  have hlt : frontier fin m > KERNBASE + BitVec.ofNat 32 m.npages * PGSIZE ↔
      m.limit < (frontier fin m).toNat := by
    rw [gt_iff_lt, BitVec.lt_def, limit_toNat hlim]
  simp only [hlt]

/-- A call without a size only initialises the frontier. -/
theorem bootAlloc_size_zero (fin : Word) (m : Mem) : ∃ r m', bootAlloc fin m 0 = .ok (r, m') ∧
    m'.npages = m.npages ∧
    frontier fin m' = frontier fin m := by
  rw [bootAlloc]
  refine ⟨_, _, rfl, ?_, ?_⟩
  · split_ifs <;> rfl
  · by_cases h : m.nextfree = 0
    · rw [if_pos h, frontier, frontier, if_pos h]
      exact ite_self _
    · rw [if_neg h]

theorem ROUNDUP_frontier (hal : (frontier fin m).toNat % 4096 = 0)
    (hn : (frontier fin m).toNat + n.toNat ≤ m.limit)
    (hlim : m.limit < 2 ^ 32) : (ROUNDUP (frontier fin m + n) PGSIZE).toNat =
      ((frontier fin m).toNat + n.toNat + 4095) / 4096 * 4096 := by
  have hk : KERNBASE.toNat = 0xF0000000 := rfl
  rw [ROUNDUP_add_toNat]
  rw [Mem.limit] at hn hlim
  omega

namespace ArenaOk

/-- **A call does what it is there for exactly when the block fits.** -/
theorem served_iff (h : ArenaOk fin np s) (hlim : s.mem.limit < 2 ^ 32) (hn : 0 < n.toNat) :
    Served fin s n ↔ Fitting fin s n := by
  rw [Served, bootAlloc_pos hlim hn]
  constructor
  · rintro ⟨hret, -⟩ -
    by_cases hpanic : s.mem.limit < (frontier fin s.mem).toNat
    · exact .inl hpanic
    · rw [if_neg hpanic] at hret
      obtain ⟨⟨-, hfin, hend⟩, -⟩ := hret _ _ rfl
      exact .inr ⟨hfin, hend⟩
  · intro hfit
    rcases hfit hn with hpanic | ⟨hfin, hend⟩
    · rw [if_pos hpanic]
      exact ⟨fun r m' hr => absurd hr (by simp), fun _ => rfl⟩
    · refine ⟨fun r m' hr => ?_, fun hno => absurd ⟨_, h.aligned, hfin, h.below, hend⟩ hno⟩
      split_ifs at hr
      cases hr
      exact ⟨⟨h.aligned, hfin, hend⟩, fun b hb => .inr (h.below b hb)⟩

/-- A block that fits leaves things in order. -/
theorem step (h : ArenaOk fin np s) (hlim : s.mem.limit < 2 ^ 32) (hfit : Fitting fin s n)
    (hs : arenaStep fin s n = some s') : ArenaOk fin np s' := by
  by_cases hn : 0 < n.toNat
  · have hpos : n > 0 := BitVec.lt_def.mpr hn
    rw [arenaStep, bootAlloc_pos hlim hn] at hs
    by_cases hpanic : s.mem.limit < (frontier fin s.mem).toNat
    · rw [if_pos hpanic] at hs
      cases hs
    simp only [if_neg hpanic, if_pos hpos, Option.some.injEq] at hs
    subst hs
    obtain ⟨hfin, hend⟩ := (hfit hn).resolve_left hpanic
    have hround := ROUNDUP_frontier h.aligned hend hlim
    -- the new frontier is not null, and so it is the value of `nextfree`
    have hne : ROUNDUP (frontier fin s.mem + n) PGSIZE ≠ 0 := by
      intro hzero
      rw [hzero, show (0 : Word).toNat = 0 from rfl] at hround
      omega
    have hnew : frontier fin { s.mem with nextfree := ROUNDUP (frontier fin s.mem + n) PGSIZE } =
        ROUNDUP (frontier fin s.mem + n) PGSIZE := if_neg hne
    have hblock : GoodBlock fin s.mem ⟨frontier fin s.mem, n⟩ := ⟨h.aligned, hfin, hend⟩
    refine ⟨h.npages, ?_, fun b hb => ?_, fun b hb => ?_, ?_⟩
    · rw [hnew, hround]
      exact Nat.mul_mod_left _ _
    · rcases List.mem_cons.mp hb with rfl | hb
      · exact hblock.congr rfl
      · exact (h.good b hb).congr rfl
    · rw [hnew, hround]
      rcases List.mem_cons.mp hb with rfl | hb
      · rw [Block.fin]
        dsimp only
        omega
      · have := h.below b hb
        omega
    · exact List.pairwise_cons.mpr ⟨fun b hb => .inr (h.below b hb), h.apart⟩
  · obtain rfl : n = 0 := BitVec.eq_of_toNat_eq (Nat.eq_zero_of_not_pos hn)
    obtain ⟨r, m', hm', hnp, hfr⟩ := bootAlloc_size_zero fin s.mem
    have hpos : ¬ (0 : Word) > 0 := by decide
    rw [arenaStep, hm'] at hs
    simp only [if_neg hpos, Option.some.injEq] at hs
    subst hs
    exact ⟨hnp.trans h.npages, by rw [hfr]; exact h.aligned, fun b hb => (h.good b hb).congr hnp,
      by rw [hfr]; exact h.below, h.apart⟩

end ArenaOk

/-! ### Any sequence of calls -/

/-- **`boot_alloc` hands out memory that exists** as long as every block asked for fits: the blocks
consist of whole pages between the kernel's end and the end of memory, and are apart; and the next
call does what it is there for exactly when its block fits. -/
theorem bootAlloc_blocks (hm : m.nextfree = 0) (hlim : m.limit < 2 ^ 32)
    (h : Reach (arenaStep fin) (Fitting fin) ⟨m, []⟩ s) :
    (∀ b ∈ s.blocks, GoodBlock fin m b) ∧ s.blocks.Pairwise Block.Apart ∧
      ∀ n, 0 < n.toNat → (Served fin s n ↔ Fitting fin s n) := by
  have hstart : ArenaOk fin m.npages ⟨m, []⟩ := by
    refine ⟨rfl, ?_, fun b hb => absurd hb List.not_mem_nil, fun b hb =>
      absurd hb List.not_mem_nil, .nil⟩
    rw [frontier, if_pos hm, ROUNDUP_toNat]
    exact Nat.mul_mod_left _ _
  have hlimit : ∀ t : Arena, ArenaOk fin m.npages t → t.mem.limit < 2 ^ 32 := fun t ht => by
    rw [limit_congr ht.npages]
    exact hlim
  have hok : ArenaOk fin m.npages s := h.invariant hstart fun t t' n ht hn hs =>
    ht.step (hlimit t ht) hn hs
  exact ⟨fun b hb => (hok.good b hb).congr hok.npages.symm, hok.apart, fun n hn =>
    hok.served_iff (hlimit s hok) hn⟩

/-- A machine of four megabytes, with a kernel that ends at `0xf0112345`. -/
def smallMem : Mem := { bootMem with npages := 1024, nextfree := 0 }

def kernelEnd : Word := 0xf0112345

/-- A page and eight kilobytes. -/
theorem bootAlloc_blocks_small : ∃ s, Reach (arenaStep kernelEnd) (Fitting kernelEnd)
    ⟨smallMem, []⟩ s ∧
    s.blocks = [⟨0xf0114000, 0x2000⟩, ⟨0xf0113000, 0x1000⟩] ∧ s.blocks.Pairwise Block.Apart := by
  have hreach : Reach (arenaStep kernelEnd) (Fitting kernelEnd) ⟨smallMem, []⟩ _ :=
    ((Reach.refl _).tail (e := 0x1000) (fun _ => .inr (by decide)) rfl).tail (e := 0x2000)
      (fun _ => .inr (by decide)) rfl
  exact ⟨_, hreach, rfl, (bootAlloc_blocks rfl (by decide) hreach).2.1⟩

/-- Four megabytes are not there, but the block is handed out. -/
theorem bootAlloc_beyond : ¬ Served kernelEnd ⟨smallMem, []⟩ 0x400000 := by
  intro h
  have hend := (h.1 0xf0113000 _ rfl).1.2.2
  exact absurd hend (by decide)

end JOS
