import JOS.Spaces.Image
import JOS.Spaces.Upper

/-!
# What `load_icode` builds

The pages that a program is built on are those of its segments and one for its stack. With enough
free pages for them, `load_icode` comes to its end: the segments are read back as the image says,
every page has a frame of its own, and nothing else is mapped below `UTOP`.

`region_alloc` rounds `p_va` down and `p_va + p_memsz` up. So a segment of size 0 takes a page when
its address is not aligned, though it has no byte there.
-/

namespace JOS

open JOS.General

variable {s s' : KState} {m m' : Mem} {elf : Elf} {ph : Proghdr} {l₀ l : List ℕ} {T A : Finset ℕ}
  {k : ℕ → Kind} {c d e : ℕ}
  {a : Word}

/-! ### Segments -/

/-- The program headers that `load_icode` looks at. -/
def Elf.loadable (elf : Elf) : List Proghdr := elf.ph.filter fun ph => ph.pType = ELF_PROG_LOAD

/-- A segment has the size its bytes need, and lies below the stack. -/
structure Proghdr.Fits (ph : Proghdr) : Prop where
  filesz : ph.pFilesz ≤ ph.pMemsz
  below : ph.pVa.toNat + ph.pMemsz.toNat ≤ (USTACKTOP - PGSIZE).toNat

/-- The pages with a byte of the segment. -/
def Proghdr.bytePages (ph : Proghdr) : Finset ℕ :=
  (Finset.range ph.pMemsz.toNat).image fun k => PGNUM (ph.pVa + BitVec.ofNat 32 k)

/-- The pages that a segment touches: those with a byte of it, and for a segment of size 0 that of
its address, unless the address is aligned. -/
def Proghdr.touched (ph : Proghdr) : Finset ℕ :=
  if ph.pMemsz = 0 ∧ PGOFF ph.pVa ≠ 0 then {PGNUM ph.pVa} else ph.bytePages

/-- The pages of all segments. -/
def pagesOf (touches : Proghdr → Finset ℕ) (phs : List Proghdr) : Finset ℕ :=
  phs.foldr (fun ph A => touches ph ∪ A) ∅

/-- What is read back of a segment: its bytes in the file, and zeros after them. -/
def SegmentAt (m : Mem) (d : ℕ) (elf : Elf) (ph : Proghdr) : Prop :=
  ∀ k < ph.pMemsz.toNat, loadByte m d (ph.pVa + BitVec.ofNat 32 k) =
    some (if k < ph.pFilesz.toNat then elf.binary (ph.pOffset + BitVec.ofNat 32 k) else 0)

theorem Proghdr.Fits.le (h : ph.Fits) : ph.pVa.toNat + ph.pMemsz.toNat ≤ UTOP.toNat :=
  h.below.trans (by decide)

theorem Proghdr.Fits.addr (h : ph.Fits) {j : ℕ} (hj : j < ph.pMemsz.toNat) :
    (ph.pVa + BitVec.ofNat 32 j).toNat = ph.pVa.toNat + j := by
  have hle := h.le
  have hU : UTOP.toNat < 2 ^ 32 := UTOP.isLt
  rw [BitVec.toNat_add, BitVec.toNat_ofNat]
  omega

/-- `region_alloc` maps the pages that are touched. -/
theorem Proghdr.Fits.touched_eq (h : ph.Fits) : ph.touched = regionPages ph.pVa ph.pMemsz := by
  have hlt : ph.pVa.toNat + ph.pMemsz.toNat < 2 ^ 32 := lt_of_le_of_lt h.le UTOP.isLt
  by_cases hsize : ph.pMemsz = 0
  · have hzero : ph.pMemsz.toNat = 0 := by rw [hsize]; rfl
    have hoff : PGOFF ph.pVa = 0 ↔ ph.pVa.toNat % 4096 = 0 := by
      rw [← PGOFF_toNat, ← BitVec.toNat_inj]
      rfl
    ext v
    rw [Proghdr.touched, regionPages, Finset.mem_Ico, Proghdr.bytePages, hzero]
    split_ifs with hun
    · have hun := mt hoff.mpr hun.2
      rw [Finset.mem_singleton, PGNUM_eq]
      omega
    · have hal : ph.pVa.toNat % 4096 = 0 := by
        by_contra hal
        exact hun ⟨hsize, mt hoff.mp hal⟩
      refine iff_of_false (by simp) ?_
      omega
  · rw [Proghdr.touched, if_neg fun hun => hsize hun.1]
    ext v
    rw [Proghdr.bytePages, Finset.mem_image, mem_regionPages hsize hlt]
    simp only [Finset.mem_range]

theorem mem_pagesOf {touches : Proghdr → Finset ℕ} {phs : List Proghdr} {v : ℕ} :
    v ∈ pagesOf touches phs ↔ ∃ ph ∈ phs, v ∈ touches ph := by
  induction phs with
  | nil => simp [pagesOf]
  | cons ph phs ih =>
    have hcons : pagesOf touches (ph :: phs) = touches ph ∪ pagesOf touches phs := rfl
    rw [hcons, Finset.mem_union, ih]
    simp only [List.mem_cons, exists_eq_or_imp]

theorem SegmentAt.kept (h : SegmentAt m d elf ph) (hph : ph.Fits)
    (hT : regionPages ph.pVa ph.pMemsz ⊆ T) (hk : Kept d T m m') :
    SegmentAt m' d elf ph := by
  intro j hj
  rw [hk _ (hT ?_), h j hj]
  rw [regionPages, Finset.mem_Ico, PGNUM_eq, hph.addr hj]
  omega

theorem regionAlloc_of_loop {va len : Word} (hd : s.dirs e = some d)
    (h : regionAllocLoop d (ROUNDUP (va + len) PGSIZE) (2 ^ 20)
    (ROUNDDOWN va PGSIZE) s.mem = .ok m) :
    regionAlloc s e va len = .ok { s with mem := m } := by
  have hpgdir : (s.envs e).envPgdir = some d := hd
  rw [regionAlloc, hpgdir]
  simp only [deref, ok_bind, h, pure_eq_ok]

/-- **A segment** is loaded. -/
theorem Image.loadSegment (h : Image l₀ d s.mem l T) (hroom : EnoughFree A d s.mem l T)
    (hd : s.dirs e = some d) (hph : ph.Fits)
    (hA : regionPages ph.pVa ph.pMemsz ⊆ A) (hT : Disjoint T (regionPages ph.pVa ph.pMemsz)) :
    ∃ m' l', loadSegment s e d elf ph = .ok { s with mem := m' } ∧
      Image l₀ d m' l' (T ∪ regionPages ph.pVa ph.pMemsz) ∧
      EnoughFree A d m' l' (T ∪ regionPages ph.pVa ph.pMemsz) ∧ Kept d T s.mem m' ∧
      SegmentAt m' d elf ph := by
  have hle := hph.le
  have hfile : ph.pFilesz.toNat ≤ ph.pMemsz.toNat := BitVec.le_def.mp hph.filesz
  have hrest : (ph.pMemsz - ph.pFilesz).toNat = ph.pMemsz.toNat - ph.pFilesz.toNat :=
    BitVec.toNat_sub_of_le hph.filesz
  have hstart : (ph.pVa + ph.pFilesz).toNat = ph.pVa.toNat + ph.pFilesz.toNat := by
    have hU : UTOP.toNat < 2 ^ 32 := UTOP.isLt
    rw [BitVec.toNat_add]
    omega
  have hzeros : ∀ j, ph.pVa + ph.pFilesz + BitVec.ofNat 32 j = ph.pVa + BitVec.ofNat 32
      (ph.pFilesz.toNat + j) := by
    intro j
    rw [BitVec.ofNat_add, BitVec.ofNat_toNat, BitVec.setWidth_eq, BitVec.add_assoc]
  have hpage : ∀ j < ph.pMemsz.toNat, PGNUM (ph.pVa + BitVec.ofNat 32 j) ∈
      regionPages ph.pVa ph.pMemsz := by
    intro j hj
    rw [regionPages, Finset.mem_Ico, PGNUM_eq, hph.addr hj]
    omega
  have hin : ∀ j < ph.pMemsz.toNat, PGNUM (ph.pVa + BitVec.ofNat 32 j) ∈ T ∪
    regionPages ph.pVa ph.pMemsz :=
    fun j hj => Finset.mem_union_right T (hpage j hj)
  obtain ⟨m₁, l₁, hrun₁, h₁, hroom₁, hkept₁⟩ := h.regionAlloc hroom hle hA hT
  obtain ⟨m₂, hrun₂, h₂, hroom₂, hbytes₂, hout₂⟩ := h₁.storeBytes hroom₁
    (f := fun j => elf.binary (ph.pOffset + BitVec.ofNat 32 j))
      (show ph.pVa.toNat + ph.pFilesz.toNat ≤ UTOP.toNat by omega)
    fun j hj => hin j (by omega)
  obtain ⟨m₃, hrun₃, h₃, hroom₃, hbytes₃, hout₃⟩ := h₂.storeBytes hroom₂ (f := fun _ => 0)
    (show (ph.pVa + ph.pFilesz).toNat + (ph.pMemsz - ph.pFilesz).toNat ≤ UTOP.toNat by omega)
    fun j hj => by rw [hzeros]; exact hin _ (by omega)
  refine ⟨m₃, l₁, ?_, h₃, hroom₃, fun a ha => ?_, fun j hj => ?_⟩
  · rw [JOS.loadSegment, regionAlloc_of_loop hd hrun₁]
    simp only [ok_bind, pure_eq_ok, hrun₂, hrun₃]
  · have hlt : a < UTOP := (PGNUM_lt_iff a).mp (h.user _ ha)
    have hne : ∀ j < ph.pMemsz.toNat, a ≠ ph.pVa + BitVec.ofNat 32 j := by
      rintro j hj rfl
      exact Finset.disjoint_left.mp hT ha (hpage j hj)
    rw [hout₃ a hlt fun j hj => by rw [hzeros]; exact hne _ (by omega),
      hout₂ a hlt fun j hj => hne j (by omega),
      hkept₁ a ha]
  · have haddr := hph.addr hj
    by_cases hjf : j < ph.pFilesz.toNat
    · have hlt : ph.pVa + BitVec.ofNat 32 j < UTOP := by
        rw [BitVec.lt_def, haddr]
        omega
      rw [if_pos hjf, hout₃ _ hlt, hbytes₂ j hjf]
      intro i hi heq
      have hnat := congrArg BitVec.toNat heq
      rw [hzeros, haddr, hph.addr (by omega)] at hnat
      omega
    · have hj' := hbytes₃ (j - ph.pFilesz.toNat) (by omega)
      rw [hzeros, Nat.add_sub_cancel' (by omega)] at hj'
      rw [if_neg hjf, hj']

/-- The loop over the segments. -/
theorem Image.loadSegments (elf : Elf) {phs : List Proghdr} (hph : ∀ ph ∈ phs, ph.Fits)
    (hapart : phs.Pairwise fun a b => Disjoint a.touched b.touched)
    (hA : pagesOf Proghdr.touched phs ⊆ A) (h : Image l₀ d s.mem l T)
    (hroom : EnoughFree A d s.mem l T) (hd : s.dirs e = some d)
    (hT : ∀ ph ∈ phs, Disjoint T ph.touched) :
    ∃ m' l', phs.foldlM (fun s ph => JOS.loadSegment s e d elf ph) s = .ok { s with mem := m' } ∧
      Image l₀ d m' l' (T ∪ pagesOf Proghdr.touched phs) ∧
      EnoughFree A d m' l' (T ∪ pagesOf Proghdr.touched phs) ∧
      Kept d T s.mem m' ∧ ∀ ph ∈ phs, SegmentAt m' d elf ph := by
  induction phs generalizing s l T with
  | nil =>
    have hnil : T ∪ pagesOf Proghdr.touched [] = T := Finset.union_empty T
    rw [hnil]
    exact ⟨s.mem, l, rfl, h, hroom, Kept.refl d T s.mem, fun _ hm => absurd hm List.not_mem_nil⟩
  | cons ph phs ih =>
    obtain ⟨hfirst, hapart⟩ := List.pairwise_cons.mp hapart
    have hfits := hph ph List.mem_cons_self
    have heq := hfits.touched_eq
    have hcons : pagesOf Proghdr.touched (ph :: phs) = ph.touched ∪ pagesOf Proghdr.touched phs :=
      rfl
    rw [hcons] at hA
    have hAph : regionPages ph.pVa ph.pMemsz ⊆ A := heq ▸ Finset.union_subset_left hA
    have hTph : Disjoint T (regionPages ph.pVa ph.pMemsz) := heq ▸ hT ph List.mem_cons_self
    obtain ⟨m₁, l₁, hrun₁, h₁, hroom₁, hkept₁, hseg⟩ := h.loadSegment hroom hd hfits hAph hTph
    rw [← heq] at h₁ hroom₁
    obtain ⟨m₂, l₂, hrun₂, h₂, hroom₂, hkept₂, hsegs⟩ :=
      ih (fun p hp => hph p (List.mem_cons_of_mem ph hp)) hapart
      (Finset.union_subset_right hA) (s := { s with mem := m₁ }) h₁ hroom₁ hd fun p hp =>
        Finset.disjoint_union_left.mpr ⟨hT p (List.mem_cons_of_mem ph hp), hfirst p hp⟩
    rw [hcons, ← Finset.union_assoc]
    refine ⟨m₂, l₂, ?_, h₂, hroom₂, hkept₁.trans (hkept₂.mono Finset.subset_union_left),
      fun p hp => ?_⟩
    · rw [List.foldlM_cons, hrun₁, ok_bind, hrun₂]
    · rcases List.mem_cons.mp hp with rfl | hp
      · exact hseg.kept hfits (heq ▸ Finset.subset_union_right) hkept₂
      · exact hsegs p hp

/-! ### `load_icode` -/

/-- A new environment: its directory maps nothing below `UTOP`. The free pages are `l`. -/
structure NewEnv (s : KState) (e d : ℕ) (l : List ℕ) : Prop where
  dirs : s.dirs e = some d
  /-- Physical addresses have 32 bits. -/
  npages_le : s.mem.npages ≤ 2 ^ 20
  chain : Chain s.mem.link s.mem.pageFreeList l
  free_lt : ∀ p ∈ l, p < s.mem.npages
  zero : ∀ p ∈ l, s.mem.ref p = 0
  dir : d ∉ l
  empty : ∀ i < NUPDX, test (s.mem.phys d i) PTE_P ≠ true

/-- The pages of a program: those its segments touch, and one for the stack. -/
def Elf.pages (touches : Proghdr → Finset ℕ) (elf : Elf) : Finset ℕ :=
  pagesOf touches elf.loadable ∪ {PGNUM (USTACKTOP - PGSIZE)}

/-- A program that can be loaded into an empty address space, with `n` free pages. -/
structure Elf.Loads (touches : Proghdr → Finset ℕ) (elf : Elf) (n : ℕ) : Prop where
  magic : elf.eMagic = ELF_MAGIC
  fits : ∀ ph ∈ elf.loadable, ph.Fits
  /-- No two segments touch the same page. -/
  apart : elf.loadable.Pairwise fun a b => Disjoint (touches a) (touches b)
  /-- There is a free page for each page, and for each table. -/
  room : (elf.pages touches).card + ((elf.pages touches).image (· / 1024)).card ≤ n

/-- The program is there: `s'` is the state after `load_icode`, and `l` were the free pages
before. -/
structure Built (touches : Proghdr → Finset ℕ) (s : KState) (c e d : ℕ) (elf : Elf) (l : List ℕ)
    (s' : KState) : Prop where
  segments : ∀ ph ∈ elf.loadable, SegmentAt s'.mem d elf ph
  /-- Each page has a frame of its own, which was free and is no table. The program can write
  there. -/
  frames : ∃ frame : ℕ → ℕ, Set.InjOn frame (elf.pages touches) ∧ ∀ v ∈ elf.pages touches,
    frame v ∈ l ∧
    (∀ i < NUPDX, ¬ Names (s'.mem.phys d i) (frame v)) ∧
    dirPte s'.mem.phys d v = mkPte (frame v) (PTE_W ||| PTE_U) ∧
    test (s'.mem.phys d (v / 1024)) PTE_P = true ∧
    s'.mem.phys d (v / 1024) &&& (PTE_W ||| PTE_U) = PTE_W ||| PTE_U
  rest : ∀ va < UTOP, PGNUM va ∉ elf.pages touches → translate s'.mem d va = none
  entry : (s'.envs e).envTf.tfEip = elf.eEntry
  /-- Other headers have no effect. -/
  others : loadIcode s c e { elf with ph := elf.loadable } = .ok s'

/-- Other headers have no effect. -/
theorem loadIcode_loadable : loadIcode s c e { elf with ph := elf.loadable } =
    loadIcode s c e elf := by
  have hfilter : elf.loadable.filter (fun ph => ph.pType = ELF_PROG_LOAD) = elf.loadable := by
    rw [Elf.loadable, List.filter_filter]
    simp only [Bool.and_self]
  rw [loadIcode, loadIcode, hfilter, Elf.loadable]
  rfl

theorem NewEnv.image (h : NewEnv s e d l) : Image l d s.mem l ∅ := by
  have hno : ∀ i < NUPDX, ∀ p, ¬ Names (s.mem.phys d i) p := fun i hi p hn => h.empty i hi hn.1
  refine ⟨⟨h.npages_le, h.chain, h.free_lt, h.zero, h.dir,
    ⟨fun i _ p hi _ hn => ?_, fun i hi => hno i hi d⟩, fun i hi p hn => ?_⟩,
    h.dir, List.Subset.refl l, ?_, ?_, ?_, ?_, fun v hv _ => ?_⟩
  · exact absurd hn (hno i hi p)
  · exact absurd hn (hno i hi p)
  · exact fun v hv => absurd hv (Finset.notMem_empty v)
  · exact fun v hv => absurd hv (Finset.notMem_empty v)
  · exact fun v hv => absurd hv (Finset.notMem_empty v)
  · exact fun v hv => absurd hv (Finset.notMem_empty v)
  · rw [dirPte_of_absent (h.empty _ (div_lt_NUPDX hv))]
    decide

theorem Names.present {phys : ℕ → ℕ → Word} {p v : ℕ} (h : Names (dirPte phys d v) p) :
    test (phys d (v / 1024)) PTE_P = true := by
  by_contra hP
  rw [dirPte_of_absent hP] at h
  exact not_names_zero p h

/-- **`load_icode`** builds the image of a program, when a page is touched that `region_alloc`
maps. -/
theorem loadIcode_builds (h : NewEnv s e d l) (helf : elf.Loads Proghdr.touched l.length) :
    ∃ s', loadIcode s c e elf = .ok s' ∧ Built Proghdr.touched s c e d elf l s' := by
  have hroom : EnoughFree (elf.pages Proghdr.touched) d s.mem l ∅ := by
    have hlack : (lacking s.mem d ((elf.pages Proghdr.touched).image (· / 1024))).card ≤
        ((elf.pages Proghdr.touched).image (· / 1024)).card := Finset.card_filter_le _ _
    have hle := helf.room
    rw [EnoughFree, Finset.sdiff_empty]
    omega
  have hstack : regionPages (USTACKTOP - PGSIZE) PGSIZE = {PGNUM (USTACKTOP - PGSIZE)} := by decide
  -- the segments
  obtain ⟨m₁, l₁, hrun₁, h₁, hroom₁, -, hsegs⟩ := h.image.loadSegments elf helf.fits helf.apart
    Finset.subset_union_left hroom (s := s.lcr3 c d) h.dirs fun ph _ => Finset.disjoint_empty_left _
  rw [Finset.empty_union] at h₁ hroom₁
  -- the stack
  have hdisj : Disjoint (pagesOf Proghdr.touched elf.loadable)
      (regionPages (USTACKTOP - PGSIZE) PGSIZE) := by
    rw [hstack, Finset.disjoint_singleton_right, mem_pagesOf]
    rintro ⟨ph, hph, hv⟩
    have hfits := helf.fits ph hph
    have hbelow := hfits.below
    rw [hfits.touched_eq, regionPages, Finset.mem_Ico, PGNUM_eq] at hv
    rw [show (USTACKTOP - PGSIZE).toNat = 0xeebfd000 by decide] at hv hbelow
    omega
  obtain ⟨m₂, l₂, hrun₂, h₂, -, hkept₂⟩ :=
    h₁.regionAlloc hroom₁ (by decide) (hstack ▸ Finset.subset_union_right) hdisj
  rw [hstack] at h₂
  -- the state in which the page of the stack is mapped
  let t := (({ s.lcr3 c d with mem := m₁ } : KState).setEnv e
    { s.envs e with envTf := { (s.envs e).envTf with tfEip := elf.eEntry } }).lcr3
    c m₁.kernPgdir
  have hself : t.envs e = { s.envs e with
    envTf := { (s.envs e).envTf with tfEip := elf.eEntry } } := KState.setEnv_envs_self _ _ _
  have hdt : t.dirs e = some d := (congrArg Env.envPgdir hself).trans h.dirs
  have hpgdir : (s.envs e).envPgdir = some d := h.dirs
  have hrun : loadIcode s c e elf = .ok { t with mem := m₂ } := by
    have hlast : regionAlloc t e (USTACKTOP - PGSIZE) PGSIZE = .ok { t with mem := m₂ } :=
      regionAlloc_of_loop hdt hrun₂
    rw [loadIcode, if_neg (not_not.mpr helf.magic), hpgdir]
    simp only [deref, ok_bind]
    rw [← Elf.loadable, hrun₁, ok_bind]
    exact hlast
  refine ⟨_, hrun, fun ph hph => ?_, ?_, fun va hva hout => ?_, ?_, loadIcode_loadable.trans hrun⟩
  · have hfits := helf.fits ph hph
    refine (hsegs ph hph).kept hfits (fun v hv => mem_pagesOf.mpr ⟨ph, hph, ?_⟩) hkept₂
    rwa [hfits.touched_eq]
  · choose! frame hframe using h₂.frame
    have hnames : ∀ v ∈ elf.pages Proghdr.touched, Names (dirPte m₂.phys d v) (frame v) := by
      intro v hv
      obtain ⟨hpte, hlt, -⟩ := hframe v hv
      rw [hpte]
      exact names_mkPte hlt (by decide)
    refine ⟨frame, fun v hv v' hv' heq => h₂.inj v hv v' hv' (frame v) (hnames v hv)
      (heq ▸ hnames v' hv'), fun v hv => ?_⟩
    obtain ⟨hpte, -, hfree, -, htable⟩ := hframe v hv
    exact ⟨hfree, htable, hpte, (hnames v hv).present, h₂.pde v hv⟩
  · rw [translate_eq_dirPte, if_neg]
    exact h₂.rest _ ((PGNUM_lt_iff va).mpr hva) hout
  · exact congrArg (fun x : Env => x.envTf.tfEip) hself

/-! ### New environments -/

/-- `env_setup_vm` takes the first free page for the directory. -/
theorem envSetupVm_newEnv (hx : Vm s.mem s.dirs k) (hchain : Chain s.mem.link s.mem.pageFreeList l)
    (hl : ∀ p, p ∈ l ↔ k p = .free)
    (h : envSetupVm s e = .ok (0, s')) : ∃ d l', l = d :: l' ∧ NewEnv s' e d l' := by
  obtain ⟨d, hd, hzero⟩ := envSetupVm_empty hx h
  have hlist : FreeList s.mem l := ⟨hchain, fun p hp => hx.pool.lt (by rw [(hl p).mp hp]; simp)⟩
  obtain ⟨⟨o, m₁⟩, halloc, h₁⟩ := bind_eq_ok.mp h
  rcases pageAlloc_list hlist halloc with ⟨rfl, rfl⟩ | ⟨p, t, rfl, rfl, hlist₁, hbase, href, -⟩
  · have hr : (-E_NO_MEM : Word) = 0 := congrArg Prod.fst (Except.ok.inj h₁)
    exact absurd hr (by decide)
  obtain ⟨pgdir, hkaddr, h₂⟩ := bind_eq_ok.mp h₁
  have hp : p < 2 ^ 20 := hlist.lt p List.mem_cons_self
  rw [kaddr, PGNUM_page2pa hp] at hkaddr
  split_ifs at hkaddr
  cases hkaddr
  cases h₂
  have hdp : d = p := by
    simp only [KState.dirs, KState.setEnv, Function.update_self, Option.some.injEq] at hd
    exact hd.symm
  subst hdp
  have hnodup := List.nodup_cons.mp hchain.nodup
  have hold : ∀ q ∈ t, k q = .free := fun q hq => (hl q).mp (List.mem_cons_of_mem d hq)
  refine ⟨d, t, rfl, ⟨hd, hbase.npages.trans_le hx.pool.npages_le, ?_, fun q hq => ?_, fun q hq =>
    ?_, hnodup.1, fun i hi hP => ?_⟩⟩
  · have hc := hlist₁.chain
    rw [← setRef_link (m := m₁) (p := d)] at hc
    exact hc
  · exact lt_of_lt_of_eq (hx.pool.managed q (by rw [hold q hq]; simp)).1 hbase.npages.symm
  · have hqd : q ≠ d := fun hqd => hnodup.1 (hqd ▸ hq)
    have hz := hx.pool.zero q (hold q hq)
    rw [← href] at hz
    exact (setRef_of_ne hqd).trans hz
  · rw [hzero i hi] at hP
    exact not_names_zero 0 ⟨hP, by decide⟩

/-- What `env_create` loads its program into. -/
theorem envAlloc_newEnv {parentId : Word} (hx : Vm s.mem s.dirs k)
    (hchain : Chain s.mem.link s.mem.pageFreeList l)
    (hl : ∀ p, p ∈ l ↔ k p = .free) (h : envAlloc s parentId = .ok (.ok e, s')) : ∃ d l',
    l = d :: l' ∧ NewEnv s' e d l' := by
  rw [envAlloc] at h
  cases hfl : s.envFreeList with
  | none =>
    simp only [hfl] at h
    cases h
  | some e₁ =>
    simp only [hfl] at h
    obtain ⟨⟨r, s₁⟩, hvm, h⟩ := bind_eq_ok.mp h
    dsimp only at h
    split_ifs at h with hr
    · cases h
    · rw [not_not] at hr
      subst hr
      obtain ⟨d, l', hl', hnew⟩ := envSetupVm_newEnv hx hchain hl hvm
      cases h
      refine ⟨d, l', hl', ⟨?_, hnew.npages_le, hnew.chain, hnew.free_lt, hnew.zero, hnew.dir,
        hnew.empty⟩⟩
      simpa [KState.dirs, KState.setEnv, Env.renew] using hnew.dirs

/-- The first environment. -/
theorem newEnv_bootState : ∃ s d l, envAlloc (bootState 1) 0 = .ok (.ok 0, s) ∧ NewEnv s 0 d l ∧
    5 ≤ l.length := by
  have hx : Vm (bootState 1).mem (bootState 1).dirs (bootKind bootMem) := bootMem_booted.sound.vm
  obtain ⟨l, hchain, hl⟩ := hx.pool.free
  have hrun : (envAlloc (bootState 1) 0).toOption.map (fun y => y.1.toOption) = some (some 0) := by
    decide +kernel
  cases halloc : envAlloc (bootState 1) 0 with
  | error w =>
    rw [halloc] at hrun
    cases hrun
  | ok y =>
    obtain ⟨_ | e, s⟩ := y
    · rw [halloc] at hrun
      cases hrun
    · rw [halloc] at hrun
      cases hrun
      obtain ⟨d, l', rfl, hnew⟩ := envAlloc_newEnv hx hchain hl halloc
      refine ⟨s, d, l', rfl, hnew, ?_⟩
      -- there were six free pages
      have hsix : ({1, 2, 3, 4, 5, 6} : Finset ℕ) ⊆ (d :: l').toFinset := by
        intro p hp
        have hfree := free_bootMem.mpr (show p < 16384 ∧
          pageInitFree 160 0xf0400000 p by revert p; decide)
        rw [List.mem_toFinset, hl]
        rcases bootKind_cases bootMem p with ⟨hno, -⟩ | ⟨-, ⟨i, hi, hip⟩, -⟩ | ⟨-, -, hk⟩
        · exact absurd hfree.1 hno
        · exact absurd hip (hfree.2 i hi)
        · exact hk
      have hle := (Finset.card_le_card hsix).trans (List.toFinset_card_le _)
      rw [List.length_cons, show ({1, 2, 3, 4, 5, 6} : Finset ℕ).card = 6 by decide] at hle
      omega

/-- A segment on two pages, the second of which holds zeros; and a header of another type. -/
def twoPageElf : Elf := ⟨ELF_MAGIC, 0x800020,
    [⟨0, 0, 0x800000, 4, 4⟩, ⟨ELF_PROG_LOAD, 0x1000, 0x800ffc, 4, 8⟩], fun _ => 0x41⟩

/-- It is loaded. -/
theorem loadIcode_builds_twoPageElf : ∃ s d l s', envAlloc (bootState 1) 0 = .ok (.ok 0, s) ∧
    loadIcode s 0 0 twoPageElf = .ok s' ∧ Built Proghdr.touched s 0 0 d twoPageElf l s' := by
  obtain ⟨s, d, l, halloc, hnew, hlen⟩ := newEnv_bootState
  have hloadable : twoPageElf.loadable = [⟨ELF_PROG_LOAD, 0x1000, 0x800ffc, 4, 8⟩] := rfl
  have hfits : ∀ ph ∈ twoPageElf.loadable, ph.Fits := by
    rw [hloadable]
    intro ph hph
    rw [List.mem_singleton.mp hph]
    exact ⟨by decide, by decide⟩
  obtain ⟨s', hrun, hbuilt⟩ :=
    loadIcode_builds (c := 0) hnew
    ⟨rfl, hfits, by rw [hloadable]; exact List.pairwise_singleton _ _,
    le_trans (by decide +kernel) hlen⟩
  exact ⟨s, d, l, s', halloc, hrun, hbuilt⟩

/-- A segment of four bytes, and one of size 0 at an address in the same page. -/
def sharedPageElf : Elf :=
  ⟨ELF_MAGIC, 0x800020, [⟨ELF_PROG_LOAD, 0, 0x800000, 4, 4⟩, ⟨ELF_PROG_LOAD, 0, 0x800010, 0, 0⟩],
    fun _ => 0x41⟩

/-- **A segment of size 0** gets the page of its address anew, though it has no byte there: what was
loaded to this page is lost. -/
theorem not_loadIcode_bytePages : ¬ ∀ (s : KState) (c e d : ℕ) (elf : Elf) (l : List ℕ),
    NewEnv s e d l →
    elf.Loads Proghdr.bytePages l.length → ∃ s', loadIcode s c e elf = .ok s' ∧
    Built Proghdr.bytePages s c e d elf l s' := by
  intro h
  obtain ⟨s, d, l, halloc, hnew, hlen⟩ := newEnv_bootState
  have hloadable : sharedPageElf.loadable = sharedPageElf.ph := rfl
  have hfits : ∀ ph ∈ sharedPageElf.loadable, ph.Fits := by
    rw [hloadable]
    intro ph hph
    rcases List.mem_pair.mp hph with rfl | rfl
    · exact ⟨by decide, by decide⟩
    · exact ⟨by decide, by decide⟩
  have hapart : sharedPageElf.loadable.Pairwise fun a b => Disjoint a.bytePages b.bytePages :=
    List.pairwise_pair.mpr (Finset.disjoint_empty_right _)
  obtain ⟨s', hload, hbuilt⟩ :=
    h s 0 0 d sharedPageElf l hnew ⟨rfl, hfits, hapart, le_trans (by decide +kernel) hlen⟩
  have hfirst : loadByte s'.mem d 0x800000 = some 0x41 :=
    hbuilt.segments ⟨ELF_PROG_LOAD, 0, 0x800000, 4, 4⟩ (by rw [hloadable]; exact List.mem_cons_self)
      0 (by decide)
  have hrun : (envAlloc (bootState 1) 0).toOption.bind
      (fun y => (loadIcode y.2 0 0 sharedPageElf).toOption.map fun s' =>
      (y.2.dirs 0).bind fun d => loadByte s'.mem d 0x800000) = some (some 0) := by decide +kernel
  rw [halloc] at hrun
  simp only [Except.toOption, Option.bind_some, hload, Option.map_some, hnew.dirs, hfirst] at hrun
  exact absurd hrun (by decide)

end JOS
