import JOS.Memory.Regions
import JOS.Memory.BootAlloc

/-!
# The window for devices

`mmio_map_region` hands out the addresses from `MMIOBASE` to `MMIOLIM` one after another.
It compares the end of the region with `MMIOLIM` in 32 bits, after it has rounded the size
up in 32 bits; so a size that makes the round-up or the sum wrap passes the test. As long as
they do not (`MmioEnds`), the regions are in the window, apart and mapped, and what does not
fit is refused (`mmioMapRegion_disjoint`).
-/

namespace JOS

open JOS.General

/-- A region that has been reserved, and the physical address it is mapped to. -/
structure MmioRegion extends Block where
  pa : Word

/-- The kernel's memory, `mmio_map_region`'s variable `base`, and the regions reserved, latest
first. -/
structure Mmio where
  mem : Mem
  base : Word
  regions : List MmioRegion

/-- A call `mmio_map_region(pa, size)`; `none` when the kernel stops. -/
def mmioStep (s : Mmio) (c : Word × Word) : Option Mmio :=
  match mmioMapRegion s.mem s.base c.1 c.2 with
  | .ok (r, base, m) => some ⟨m, base, ⟨⟨r, c.2⟩, c.1⟩ :: s.regions⟩
  | .error _ => none

/-- `n` rounded up to pages. -/
def roundUp (n : ℕ) : ℕ := (n + 4095) / 4096 * 4096

/-- The end of the region, in whole pages, is an address; `pa` is the address of a page. -/
def MmioEnds (s : Mmio) (c : Word × Word) : Prop :=
  c.1.toNat % 4096 = 0 ∧ s.base.toNat + roundUp c.2.toNat < 2 ^ 32

/-- An address of the window. -/
def InWindow (a : Word) : Prop := MMIOBASE.toNat ≤ a.toNat ∧ a.toNat < MMIOLIM.toNat

/-- A region as it is to be: whole pages of the window, mapped to the device, for the kernel, and
not cached. -/
structure MmioRegion.Mapped (m : Mem) (r : MmioRegion) : Prop where
  aligned : r.addr.toNat % 4096 = 0
  window : MMIOBASE.toNat ≤ r.addr.toNat ∧ r.fin ≤ MMIOLIM.toNat
  mapped : ∀ k < r.size.toNat, ∃ pte,
    translate m m.kernPgdir (r.addr + BitVec.ofNat 32 k) = some pte ∧
    PTE_ADDR pte + BitVec.ofNat 32 (k % 4096) = r.pa + BitVec.ofNat 32 k ∧
    pte &&& 0xFFF = PTE_PCD ||| PTE_PWT ||| PTE_W ||| PTE_P

/-- No address of the entries `W` outside the window is mapped differently. -/
def SameOutside (W : ℕ → Prop) (m m' : Mem) : Prop :=
  ∀ a : Word, W (PDX a) → ¬ InWindow a → translate m' m'.kernPgdir a = translate m m.kernPgdir a

/-- A call does what it is there for: the region that it returns is as it is to be, and apart from
all others, and nothing outside the window changes; and it panics when there is no room. -/
def Reserved (W : ℕ → Prop) (s : Mmio) (c : Word × Word) : Prop :=
  (∀ r base m', mmioMapRegion s.mem s.base c.1 c.2 = .ok (r, base, m') →
      MmioRegion.Mapped m' ⟨⟨r, c.2⟩, c.1⟩ ∧ (∀ q ∈ s.regions, Block.Apart ⟨r, c.2⟩ q.toBlock) ∧
      SameOutside W s.mem m') ∧
    (MMIOLIM.toNat < s.base.toNat + c.2.toNat → mmioMapRegion s.mem s.base c.1 c.2 = .error .panic)

variable {m m' : Mem} {s s' : Mmio} {W : ℕ → Prop} {l : List ℕ} {c : Word × Word}
  {base pa size r : Word}

/-! ### One call -/

theorem window_toNat : MMIOBASE.toNat = 0xef800000 ∧ MMIOLIM.toNat = 0xefc00000 ∧
    PDX MMIOBASE = 958 := by decide

/-- What `mmio_map_region` does when nothing wraps. -/
theorem mmioMapRegion_eq (m : Mem) (pa : Word) (hlo : MMIOBASE.toNat ≤ base.toNat)
    (hfit : base.toNat + roundUp size.toNat < 2 ^ 32) :
    (ROUNDUP size PGSIZE).toNat = roundUp size.toNat ∧
      (MMIOLIM.toNat < base.toNat + roundUp size.toNat →
        mmioMapRegion m base pa size = .error .panic) ∧
      (base.toNat + roundUp size.toNat ≤ MMIOLIM.toNat → mmioMapRegion m base pa size =
        (bootMapRegion m m.kernPgdir base (ROUNDUP size PGSIZE) pa
          (PTE_PCD ||| PTE_PWT ||| PTE_W)).map
          fun m' => (base, base + ROUNDUP size PGSIZE, m')) := by
  obtain ⟨hb, hl, -⟩ := window_toNat
  rw [hb] at hlo
  have hround : (ROUNDUP size PGSIZE).toNat = roundUp size.toNat := by
    rw [ROUNDUP_toNat, roundUp]
    rw [roundUp] at hfit
    omega
  have hsum : base + ROUNDUP size PGSIZE > MMIOLIM ↔
      MMIOLIM.toNat < base.toNat + roundUp size.toNat := by
    rw [gt_iff_lt, BitVec.lt_def, BitVec.toNat_add, hround, Nat.mod_eq_of_lt hfit]
  refine ⟨hround, fun hbig => ?_, fun hsmall => ?_⟩
  · rw [mmioMapRegion]
    exact if_pos (hsum.mpr hbig)
  · rw [mmioMapRegion, if_neg (by rw [hsum]; omega)]
    cases bootMapRegion m m.kernPgdir base (ROUNDUP size PGSIZE) pa
      (PTE_PCD ||| PTE_PWT ||| PTE_W) <;> rfl

/-- The flags of a device's pages. -/
theorem isFlags_mmio : IsFlags (PTE_PCD ||| PTE_PWT ||| PTE_W) := by decide

/-- The pages of a region of the window. -/
structure WindowPages (base : Word) (n : ℕ) : Prop where
  aligned : base.toNat % 4096 = 0
  lo : MMIOBASE.toNat ≤ base.toNat
  hi : base.toNat + n * 4096 ≤ MMIOLIM.toNat

namespace WindowPages

variable {n : ℕ}

theorem fits (h : WindowPages base n) : PGNUM base + n ≤ 2 ^ 20 := by
  obtain ⟨hb, hl, -⟩ := window_toNat
  have := h.hi
  rw [hl] at this
  rw [PGNUM_eq]
  omega

/-- They all are in the entry for the window. -/
theorem pde {v : ℕ} (h : WindowPages base n) (hv : PGNUM MMIOBASE ≤ v) (hv' : v < PGNUM base + n) :
    v / 1024 = 958 := by
  obtain ⟨hb, hl, -⟩ := window_toNat
  have hhi := h.hi
  rw [hl] at hhi
  rw [PGNUM_eq] at hv hv'
  rw [hb] at hv
  omega

theorem lo_pages (h : WindowPages base n) : PGNUM MMIOBASE ≤ PGNUM base := by
  rw [PGNUM_eq, PGNUM_eq]
  exact Nat.div_le_div_right h.lo

theorem entries (h : WindowPages base n) (hW : W 958) : ∀ i ∈ pdesOf (PGNUM base) n, W i := by
  intro i hi
  obtain ⟨k, hk, rfl⟩ := Finset.mem_image.mp hi
  have hkn := Finset.mem_range.mp hk
  have hlo := h.lo_pages
  rw [h.pde (by omega) (by omega)]
  exact hW

end WindowPages

/-- The region that has just been mapped. -/
theorem RegionSet.mmio {n : ℕ} {l' : List ℕ}
    (hset : RegionSet m m.kernPgdir W l base pa (PTE_PCD ||| PTE_PWT ||| PTE_W) n m' l')
    (hw : WindowPages base n) (hW : W 958) (hpa : pa.toNat % 4096 = 0)
    (hn : size.toNat ≤ n * 4096) :
    MmioRegion.Mapped m' ⟨⟨base, size⟩, pa⟩ := by
  obtain ⟨hb, hl, -⟩ := window_toNat
  have hlo := hw.lo
  have hhi := hw.hi
  have hal := hw.aligned
  refine ⟨hal, ⟨hlo, ?_⟩, fun k hk => ?_⟩
  · rw [Block.fin]
    dsimp only
    omega
  · dsimp only at hk ⊢
    rw [hb] at hlo
    rw [hl] at hhi
    have hnum : PGNUM (base + BitVec.ofNat 32 k) = PGNUM base + k / 4096 := by
      rw [PGNUM_eq, PGNUM_eq, BitVec.toNat_add, BitVec.toNat_ofNat]
      omega
    have hkn : k / 4096 < n := by omega
    have hlo' := hw.lo_pages
    have hW' : W ((PGNUM base + k / 4096) / 1024) := by
      rw [hw.pde (by omega) (by omega)]
      exact hW
    -- the page of the device, which may lie past the end of the physical address space
    have hpage : (pa + BitVec.ofNat 32 (k / 4096) * PGSIZE).toNat % 4096 = 0 := by
      rw [BitVec.toNat_add, BitVec.toNat_mul, BitVec.toNat_ofNat, PGSIZE_toNat]
      omega
    have hpte : dirPte m'.phys m'.kernPgdir (PGNUM (base + BitVec.ofNat 32 k)) =
        mkPte (PGNUM (pa + BitVec.ofNat 32 (k / 4096) * PGSIZE))
            (PTE_PCD ||| PTE_PWT ||| PTE_W) := by
      rw [hset.base.kernPgdir, hnum, hset.pte _ hW', if_pos (by omega), Nat.add_sub_cancel_left,
        mkPte, page2pa_PGNUM hpage]
    refine ⟨_, translate_of_dirPte hpte (test_mkPte_P _ _), ?_, mkPte_and isFlags_mmio⟩
    rw [PTE_ADDR_eq, PGNUM_mkPte (PGNUM_lt _) isFlags_mmio, page2pa_PGNUM hpage]
    refine BitVec.eq_of_toNat_eq ?_
    simp only [BitVec.toNat_add, BitVec.toNat_mul, BitVec.toNat_ofNat, PGSIZE_toNat]
    omega

/-- Other addresses of the directory. -/
theorem RegionSet.same {n : ℕ} {l' : List ℕ} {perm a : Word}
    (hset : RegionSet m m.kernPgdir W l base pa perm n m' l') (ha : W (PDX a))
    (hout : ¬ (PGNUM base ≤ PGNUM a ∧ PGNUM a < PGNUM base + n)) :
    translate m' m'.kernPgdir a = translate m m.kernPgdir a := by
  rw [PDX_eq] at ha
  rw [hset.base.kernPgdir]
  refine translate_of_same_dirPte ?_
  rw [hset.pte _ ha, if_neg hout]

/-! ### Any sequence of calls -/

/-- What the calls keep; `m` is memory at first. -/
structure MmioOk (m : Mem) (W : ℕ → Prop) (s : Mmio) : Prop where
  paging : ∃ l, Paging s.mem s.mem.kernPgdir W l
  aligned : s.base.toNat % 4096 = 0
  window : MMIOBASE.toNat ≤ s.base.toNat ∧ s.base.toNat ≤ MMIOLIM.toNat
  mapped : ∀ r ∈ s.regions, MmioRegion.Mapped s.mem r
  below : ∀ r ∈ s.regions, r.fin ≤ s.base.toNat
  apart : s.regions.Pairwise fun r q => Block.Apart r.toBlock q.toBlock
  outside : SameOutside W m s.mem

theorem SameOutside.trans {m₁ m₂ m₃ : Mem} (h : SameOutside W m₁ m₂) (h' : SameOutside W m₂ m₃) :
    SameOutside W m₁ m₃ :=
  fun a ha hout => (h' a ha hout).trans (h a ha hout)

/-- A region stays mapped when the pages from `base` on are mapped differently. -/
theorem MmioRegion.Mapped.mono {r : MmioRegion} {n : ℕ} {perm : Word} {l' : List ℕ} (h : r.Mapped m)
    (hbelow : r.fin ≤ base.toNat)
    (hal : base.toNat % 4096 = 0) (hW : W 958)
    (hset : RegionSet m m.kernPgdir W l base pa perm n m' l') : r.Mapped m' := by
  obtain ⟨hb, hl, -⟩ := window_toNat
  obtain ⟨hlo, hhi⟩ := h.window
  refine ⟨h.aligned, h.window, fun k hk => ?_⟩
  rw [Block.fin] at hbelow hhi
  rw [hb] at hlo
  rw [hl] at hhi
  have hlt := base.isLt
  have hnum : (r.addr + BitVec.ofNat 32 k).toNat = r.addr.toNat + k := by
    rw [BitVec.toNat_add, BitVec.toNat_ofNat]
    omega
  rw [hset.same ?_ ?_]
  · exact h.mapped k hk
  · rw [PDX_eq, PGNUM_eq, hnum, show (r.addr.toNat + k) / 4096 / 1024 = 958 by omega]
    exact hW
  · rw [PGNUM_eq, PGNUM_eq, hnum]
    omega

theorem mmioStep_eq_some (hs : mmioStep s c = some s') : ∃ r base m',
    mmioMapRegion s.mem s.base c.1 c.2 = .ok (r, base, m') ∧
    s' = ⟨m', base, ⟨⟨r, c.2⟩, c.1⟩ :: s.regions⟩ := by
  unfold mmioStep at hs
  split at hs
  · next r base m' hr =>
    exact ⟨r, base, m', hr, (Option.some.inj hs).symm⟩
  · cases hs

namespace MmioOk

/-- What a call does that fits and returns. -/
theorem call (h : MmioOk m W s) (hW : W 958) (hc : MmioEnds s c) {m' : Mem}
    (hr : mmioMapRegion s.mem s.base c.1 c.2 = .ok (r, base, m')) :
    r = s.base ∧ base.toNat = s.base.toNat + roundUp c.2.toNat ∧ base.toNat ≤ MMIOLIM.toNat ∧
      WindowPages s.base (roundUp c.2.toNat / 4096) ∧
      ∃ l l', RegionSet s.mem s.mem.kernPgdir W l s.base c.1 (PTE_PCD ||| PTE_PWT ||| PTE_W)
        (roundUp c.2.toNat / 4096) m' l' := by
  obtain ⟨l, hl⟩ := h.paging
  obtain ⟨hround, hbig, hsmall⟩ := mmioMapRegion_eq s.mem c.1 h.window.1 hc.2
  have hdvd : roundUp c.2.toNat / 4096 * 4096 = roundUp c.2.toNat := by
    rw [roundUp]
    omega
  by_cases hfit : s.base.toNat + roundUp c.2.toNat ≤ MMIOLIM.toNat
  swap
  · rw [hbig (by omega)] at hr
    cases hr
  have hw : WindowPages s.base (roundUp c.2.toNat / 4096) :=
    ⟨h.aligned, h.window.1, by rw [hdvd]; exact hfit⟩
  rw [hsmall hfit] at hr
  cases hmap : bootMapRegion s.mem s.mem.kernPgdir s.base (ROUNDUP c.2 PGSIZE) c.1
    (PTE_PCD ||| PTE_PWT ||| PTE_W) with
  | error e =>
    rw [hmap] at hr
    cases hr
  | ok m₁ =>
    rw [hmap] at hr
    simp only [Except.map, Except.ok.injEq, Prod.mk.injEq] at hr
    obtain ⟨rfl, rfl, rfl⟩ := hr
    have hn : PGNUM (ROUNDUP (ROUNDUP c.2 PGSIZE) PGSIZE) = roundUp c.2.toNat / 4096 := by
      obtain ⟨hb, -, -⟩ := window_toNat
      have hlo := h.window.1
      have hfits := hc.2
      rw [hb] at hlo
      rw [PGNUM_eq, ROUNDUP_toNat, hround]
      rw [roundUp] at hfits ⊢
      omega
    obtain ⟨l', hset⟩ := hl.bootMapRegion_ok hn hw.fits (hw.entries hW) hmap
    refine ⟨rfl, ?_, ?_, hw, l, l', hset⟩
    · rw [BitVec.toNat_add, hround, Nat.mod_eq_of_lt hc.2]
    · rw [BitVec.toNat_add, hround, Nat.mod_eq_of_lt hc.2]
      exact hfit

theorem size_le (n : ℕ) : n ≤ roundUp n / 4096 * 4096 := by
  rw [roundUp]
  omega

/-- Nothing outside the window changes. -/
theorem outside_call {n : ℕ} {perm : Word} {l l' : List ℕ} (hw : WindowPages s.base n)
    (hset : RegionSet s.mem s.mem.kernPgdir W l s.base pa perm n m' l') :
    SameOutside W s.mem m' := by
  obtain ⟨hb, hl, -⟩ := window_toNat
  intro a ha hout
  refine hset.same ha ?_
  have hlo := hw.lo
  have hhi := hw.hi
  have hal := hw.aligned
  rw [InWindow, hb, hl] at hout
  rw [hb] at hlo
  rw [hl] at hhi
  rw [PGNUM_eq, PGNUM_eq]
  omega

/-- **A call that fits does what it is there for.** -/
theorem reserved (h : MmioOk m W s) (hW : W 958) (hc : MmioEnds s c) : Reserved W s c := by
  constructor
  · intro r base m' hr
    obtain ⟨rfl, -, -, hw, l, l', hset⟩ := h.call hW hc hr
    exact ⟨hset.mmio hw hW hc.1 (size_le _), fun q hq => .inr (h.below q hq), outside_call hw hset⟩
  · intro hbig
    refine (mmioMapRegion_eq s.mem c.1 h.window.1 hc.2).2.1 ?_
    have := size_le c.2.toNat
    rw [roundUp] at this ⊢
    omega

theorem step (h : MmioOk m W s) (hW : W 958) (hc : MmioEnds s c) (hs : mmioStep s c = some s') :
    MmioOk m W s' := by
  obtain ⟨r, base, m', hr, rfl⟩ := mmioStep_eq_some hs
  obtain ⟨rfl, hbase, hlim, hw, l, l', hset⟩ := h.call hW hc hr
  have hnew := hset.mmio hw hW hc.1 (size_le c.2.toNat)
  have hle : s.base.toNat ≤ base.toNat := by omega
  refine ⟨⟨l', ?_⟩, ?_, ⟨le_trans h.window.1 hle, hlim⟩, fun q hq => ?_, fun q hq => ?_, ?_,
    h.outside.trans (outside_call hw hset)⟩
  · dsimp only
    rw [hset.base.kernPgdir]
    exact hset.paging
  · have := h.aligned
    rw [hbase, roundUp]
    omega
  · rcases List.mem_cons.mp hq with rfl | hq
    · exact hnew
    · exact (h.mapped q hq).mono (h.below q hq) h.aligned hW hset
  · rcases List.mem_cons.mp hq with rfl | hq
    · have := size_le c.2.toNat
      rw [Block.fin]
      dsimp only
      rw [hbase]
      rw [roundUp] at this ⊢
      omega
    · exact le_trans (h.below q hq) hle
  · exact List.pairwise_cons.mpr ⟨fun q hq => .inr (h.below q hq), h.apart⟩

end MmioOk

/-- A sum that wraps passes the test, and the request goes on to the mapping. -/
theorem mmioMapRegion_wraps (hlim : base.toNat ≤ MMIOLIM.toNat) (hal : base.toNat % 4096 = 0)
    (hwrap : 2 ^ 32 ≤ base.toNat + roundUp size.toNat) : mmioMapRegion m base pa size =
      (bootMapRegion m m.kernPgdir base (ROUNDUP size PGSIZE) pa
        (PTE_PCD ||| PTE_PWT ||| PTE_W)).map
        fun m' => (base, base + ROUNDUP size PGSIZE, m') := by
  obtain ⟨-, hl, -⟩ := window_toNat
  have hs := size.isLt
  have hsum : ¬ base + ROUNDUP size PGSIZE > MMIOLIM := by
    rw [gt_iff_lt, BitVec.lt_def, BitVec.toNat_add, ROUNDUP_toNat, hl]
    rw [hl] at hlim
    rw [roundUp] at hwrap
    omega
  rw [mmioMapRegion, if_neg hsum]
  cases bootMapRegion m m.kernPgdir base (ROUNDUP size PGSIZE) pa
    (PTE_PCD ||| PTE_PWT ||| PTE_W) <;> rfl

end JOS
