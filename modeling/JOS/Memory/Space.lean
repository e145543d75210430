import JOS.Memory.Vm

/-!
# Address spaces: new, filled and given up

What `env_setup_vm`, `sys_page_alloc` and `region_alloc`, stores to user pages and
`env_free` do to memory, in terms of the invariant `Vm` and of the entries that user
programs see.
-/

namespace JOS

open JOS.General

open Function (update)

variable {m m₁ m' : Mem} {D : ℕ → Option ℕ} {k k' : ℕ → Kind} {d e i j p q t : ℕ}
  {va perm r w : Word} {z : Bool}

/-- A page handed out by the allocator is mapped by nobody. -/
theorem Allocated.not_names (ha : Allocated m k z p m₁) (h : Vm m D k) (e v : ℕ) :
    ¬ Names (upte m.phys D e v) p := by
  intro hn
  have := h.tables.data_of_names hn
  rw [ha.free] at this
  cases this

/-- Clearing it changes no table. -/
theorem Allocated.phys_of_ne (ha : Allocated m k z p m₁) (hq : q ≠ p) : m₁.phys q = m.phys q := by
  rw [ha.phys]
  split_ifs
  · exact Function.update_of_ne hq _ _
  · rfl

/-- The page is in nobody's use, and the rest is as before. -/
theorem Allocated.tables (ha : Allocated m k z p m₁) (h : Vm m D k) :
    Tables m₁.kernPgdir m₁.phys D (update k p .held) ∧ upte m₁.phys D = upte m.phys D := by
  have hp : (k p).Loose := by rw [ha.free]; trivial
  have hphys : ∀ q, ¬ (k q).Loose → m₁.phys q = m.phys q := fun q hq => ha.phys_of_ne (by
    rintro rfl
    exact hq hp)
  have hupte : upte m₁.phys D = upte m.phys D := funext fun e => funext fun v =>
    h.tables.upte_congr hphys
  refine ⟨?_, hupte⟩
  rw [ha.base.kernPgdir]
  refine (h.tables.congr hphys).retag hp trivial fun _ => ?_
  rw [hupte]
  exact ha.not_names h

/-! ### Pages of user data -/

/-- A page has become user data that nobody maps yet. -/
structure Obtained (m : Mem) (D : ℕ → Option ℕ) (k : ℕ → Kind) (p : ℕ) (m' : Mem) : Prop where
  free : k p = .free
  vm : Vm m' D (update k p .data)
  entries : upte m'.phys D = upte m.phys D
  base : SameBase m m'
  phys : ∀ q, q ≠ p → m'.phys q = m.phys q

theorem Allocated.obtained (ha : Allocated m k z p m₁) (h : Vm m D k) :
    Obtained m D k p (m₁.markUser p true) := by
  obtain ⟨htables, hupte⟩ := ha.tables h
  have hheld : update k p .held p = .held := Function.update_self _ _ _
  have hidem : update (update k p .held) p .data = update k p .data := Function.update_idem _ _ _
  refine ⟨ha.free, ⟨?_, ?_, fun q hq => ?_⟩, hupte, ha.base.trans ⟨rfl, rfl, rfl, rfl⟩, fun q hq =>
    ha.phys_of_ne hq⟩
  · rw [← hidem]
    exact htables.retag (by rw [hheld]; trivial) trivial fun h => absurd rfl h
  · rw [← hidem]
    exact ha.pool.markUser hheld
  · rw [show (m₁.markUser p true).ref q = m₁.ref q from rfl, ha.ref,
      show (m₁.markUser p true).phys = m₁.phys from rfl, hupte]
    by_cases hqp : q = p
    · rw [hqp, h.pool.zero p ha.free, mapCount_eq_zero (ha.not_names h)]
      rfl
    · rw [Function.update_of_ne hqp] at hq
      exact h.count q hq

/-- A page is obtained and mapped. -/
structure AllocMapped (m : Mem) (D : ℕ → Option ℕ) (k : ℕ → Kind) (e : ℕ) (va perm : Word)
    (p : ℕ) (m' : Mem)
    (k' : ℕ → Kind) : Prop where
  free : k p = .free
  vm : Vm m' D k'
  entries : upte m'.phys D = setAt (upte m.phys D) e (PGNUM va) (mkPte p perm)
  base : SameBase m m'
  phys : ∀ q, k q = .data → m'.phys q = m.phys q
  data : ∀ q, k' q = .data → q = p ∨ k q = .data
  aside : ∀ q, (k' q).Aside → (k q).Aside
  kept : ∀ q, k q ≠ .free → ¬ Names (upte m.phys D e (PGNUM va)) q → k' q = k q

/-- `page_alloc` and then `page_insert`: the page is mapped, or there was no memory for a table. -/
theorem Obtained.insert (ho : Obtained m D k p m₁) (hd : D e = some d) (hva : va < UTOP)
    (hf : IsFlags perm) (hspare : Spare (upte m.phys D) e (PGNUM va))
    (hr : pageInsert m₁ d p va perm = .ok (r, m')) :
    r = -E_NO_MEM ∧ m' = m₁ ∨ r = 0 ∧ ∃ k', AllocMapped m D k e va perm p m' k' ∧
        m'.phys p = m₁.phys p := by
  have hdata : update k p .data p = .data := Function.update_self _ _ _
  rcases pageInsert_spec ho.vm hd hva hdata hf
    (fun q hn _ => by rw [ho.entries] at hn ⊢; exact hspare q hn) hr with
    hfail | ⟨rfl, k', hm⟩
  · exact .inl hfail
  · have hne : ∀ q, k q ≠ .free → q ≠ p := by
      rintro q hq rfl
      exact hq ho.free
    refine .inr ⟨rfl, k', ⟨ho.free,
      hm.vm, by rw [hm.entries, ho.entries], ho.base.trans hm.frame.base, fun q hq => ?_,
      fun q hq => ?_, fun q hq => aside_update id (hm.frame.aside q hq), fun q hq hn => ?_⟩,
      hm.frame.phys p hdata⟩
    · have hqp : q ≠ p := hne q (by rw [hq]; exact nofun)
      rw [hm.frame.phys q (by rw [Function.update_of_ne hqp, hq]), ho.phys q hqp]
    · by_cases hqp : q = p
      · exact .inl hqp
      · have := hm.frame.data q hq
        rw [Function.update_of_ne hqp] at this
        exact .inr this
    · have hqp := hne q hq
      rw [hm.kept q (by rwa [Function.update_of_ne hqp]) (by rwa [ho.entries]),
        Function.update_of_ne hqp]

/-- When it could not be mapped, the page is given back. -/
theorem Obtained.pageFree (ho : Obtained m D k p m₁) (h : Vm m D k) (hr : pageFree m₁ p = .ok m') :
    Vm m' D k ∧ upte m'.phys D = upte m.phys D ∧ SameBase m m' ∧ ∀ q, k q = .data →
        m'.phys q = m.phys q := by
  have hdata : update k p .data p = .data := Function.update_self _ _ _
  have hf := pageFree_spec ho.vm.pool (.inr hdata) hr
  have hk : update (update k p .data) p .free = k := by
    rw [Function.update_idem, ← ho.free, Function.update_eq_self]
  have hno : ∀ e v, ¬ Names (upte m.phys D e v) p := by
    intro e v hn
    have := h.tables.data_of_names hn
    rw [ho.free] at this
    cases this
  have hupte : upte m'.phys D = upte m.phys D := by rw [hf.phys, ho.entries]
  refine ⟨⟨?_, ?_, fun q hq => ?_⟩, hupte, ho.base.trans hf.base, fun q hq => ?_⟩
  · rw [hf.phys, hf.base.kernPgdir, ← hk]
    refine ho.vm.tables.retag (by rw [hdata]; trivial) trivial fun _ => ?_
    rw [ho.entries]
    exact hno
  · rw [← hk]
    exact hf.pool
  · have hqp : q ≠ p := by
      rintro rfl
      rw [ho.free] at hq
      cases hq
    rw [hupte, hf.ref, ho.vm.count q (by rw [Function.update_of_ne hqp, hq]), ho.entries]
  · rw [hf.phys, ho.phys]
    rintro rfl
    rw [ho.free] at hq
    cases hq

/-! ### Stores -/

/-- The entry of `va` that the hardware finds below `UTOP` is the one counted. -/
theorem translate_eq (hd : D e = some d) (hva : va < UTOP) (ht : translate m d va = some w) :
    test w PTE_P = true ∧ upte m.phys D e (PGNUM va) = w := by
  have hv : PGNUM va < NUPAGES := (PGNUM_lt_iff va).mpr hva
  rw [translate] at ht
  rw [upte_of_dir hd hv, dirPte, ← PDX_eq, ← PTX_eq]
  dsimp only at ht
  by_cases hP : test (m.phys d (PDX va)) PTE_P = true
  · rw [if_pos hP] at ht ⊢
    by_cases hP' : test (m.phys (PGNUM (m.phys d (PDX va))) (PTX va)) PTE_P = true
    · rw [if_pos hP'] at ht
      cases ht
      exact ⟨hP', rfl⟩
    · rw [if_neg hP'] at ht
      cases ht
  · rw [if_neg hP] at ht
    cases ht

/-- User data is overwritten. -/
structure Stored (m : Mem) (D : ℕ → Option ℕ) (k : ℕ → Kind) (m' : Mem) : Prop where
  vm : Vm m' D k
  entries : upte m'.phys D = upte m.phys D
  base : SameBase m m'

theorem Vm.stored (h : Vm m D k) : Stored m D k m := ⟨h, rfl, SameBase.refl m⟩

theorem Stored.trans {m'' : Mem} (h : Stored m D k m') (h' : Stored m' D k m'') :
    Stored m D k m'' :=
  ⟨h'.vm, h'.entries.trans h.entries, h.base.trans h'.base⟩

theorem Vm.setWord (h : Vm m D k) (hp : k p = .data) : Stored m D k (m.setWord p i w) := by
  have hphys : ∀ q, ¬ (k q).Loose → setW m.phys p i w q = m.phys q := by
    refine fun q hq => setW_of_ne ?_
    rintro rfl
    rw [hp] at hq
    exact hq trivial
  have hupte : upte (setW m.phys p i w) D = upte m.phys D := funext fun e => funext fun v =>
    h.tables.upte_congr hphys
  exact ⟨⟨h.tables.congr hphys, h.pool.setWord _ _ _,
    fun q hq => by rw [setWord_ref, setWord_phys, hupte]; exact h.count q hq⟩,
    hupte, ⟨rfl, rfl, rfl, rfl⟩⟩

/-- A byte is stored through a page directory, below `UTOP`. -/
theorem Vm.storeByte {b : BitVec 8} (h : Vm m D k) (hd : D e = some d) (hva : va < UTOP)
    (hr : storeByte m d va b = .ok m') : Stored m D k m' := by
  rw [JOS.storeByte] at hr
  cases ht : translate m d va with
  | none => simp [ht] at hr
  | some w =>
    simp only [ht] at hr
    split_ifs at hr
    cases hr
    obtain ⟨hP, hw⟩ := translate_eq hd hva ht
    exact h.setWord (h.tables.data_of_names (e := e) (v := PGNUM va) (by rw [hw]; exact ⟨hP, rfl⟩))

/-- Bytes are stored from `va` on. -/
theorem Vm.storeBytes {f : ℕ → BitVec 8} {n : ℕ} (h : Vm m D k) (hd : D e = some d)
    (hva : va.toNat + n ≤ UTOP.toNat)
    (hr : storeBytes d va f n m = .ok m') : Stored m D k m' := by
  refine foldlM_invariant (I := fun m' => Stored m D k m') hr h.stored fun m₁ m₂ a ha hm₁ hs => ?_
  refine hm₁.trans (hm₁.vm.storeByte hd ?_ hs)
  have := List.mem_range.mp ha
  have : UTOP.toNat < 2 ^ 32 := UTOP.isLt
  rw [BitVec.lt_def, BitVec.toNat_add, BitVec.toNat_ofNat]
  omega

theorem Vm.storeWord (h : Vm m D k) (hd : D e = some d) (hva : va.toNat + 4 ≤ UTOP.toNat)
    (hr : storeWord m d va w = .ok m') : Stored m D k m' := h.storeBytes (f := byteOf w) hd hva hr

theorem Vm.storeWords {ws : List Word} (h : Vm m D k) (hd : D e = some d)
    (hva : va.toNat + 4 * ws.length ≤ UTOP.toNat)
    (hr : storeWords m d va ws = .ok m') : Stored m D k m' := by
  induction ws generalizing m va with
  | nil =>
    cases hr
    exact h.stored
  | cons w ws ih =>
    obtain ⟨m₁, hm₁, hr⟩ := bind_eq_ok.mp hr
    rw [List.length_cons] at hva
    have hs := h.storeWord hd (by omega) hm₁
    refine hs.trans (ih hs.vm ?_ hr)
    have : UTOP.toNat < 2 ^ 32 := UTOP.isLt
    rw [BitVec.toNat_add, show (4 : Word).toNat = 4 from rfl]
    omega

/-! ### `env_setup_vm` -/

/-- The page `p` becomes a directory with the kernel's half of `kern_pgdir`. -/
def Mem.newDir (m : Mem) (p : ℕ) : Mem :=
  let m := m.setRef p ((m.pages p).ppRef + 1)
  (m.setPage p (m.phys m.kernPgdir)).setWord p (PDX UVPT) (page2pa p ||| PTE_P ||| PTE_U)

theorem newDir_phys_of_ne (hq : q ≠ p) : (m.newDir p).phys q = m.phys q := by
  rw [Mem.newDir, setWord_phys, setW_of_ne hq]
  simp [Mem.setPage, Function.update_of_ne hq]

theorem newDir_ref_of_ne (hq : q ≠ p) : (m.newDir p).ref q = m.ref q := setRef_of_ne hq

/-- A new, empty address space. -/
theorem Allocated.newDir (ha : Allocated m k z p m₁) (h : Vm m D k) (he : e < NENV)
    (hnone : D e = none) :
    Vm (m₁.newDir p) (update D e (some p)) (update k p (.dir e)) ∧
      upte (m₁.newDir p).phys (update D e (some p)) = upte m.phys D ∧
      Frame m k (m₁.newDir p) (update k p (.dir e)) := by
  obtain ⟨htables, hupte⟩ := ha.tables h
  have hheld : update k p .held p = .held := Function.update_self _ _ _
  have hidem : update (update k p .held) p (.dir e) = update k p (.dir e) :=
    Function.update_idem _ _ _
  have hbase : SameBase m₁ (m₁.newDir p) := ⟨rfl, rfl, rfl, rfl⟩
  have hzero : ∀ i < NUPDX, (m₁.newDir p).phys p i = 0 := by
    intro i hi
    have hne : i ≠ PDX UVPT := by
      rintro rfl
      exact absurd hi (by decide)
    have hkern : (m₁.setRef p ((m₁.pages p).ppRef + 1)).phys
      (m₁.setRef p ((m₁.pages p).ppRef + 1)).kernPgdir i = 0 :=
      htables.kernUser i hi
    rw [Mem.newDir, setWord_phys, setW_of_ne_index hne]
    simpa [Mem.setPage] using hkern
  have hloose : ∀ q, ¬ (update k p .held q).Loose → (m₁.newDir p).phys q = m₁.phys q := by
    refine fun q hq => newDir_phys_of_ne ?_
    rintro rfl
    rw [hheld] at hq
    exact hq trivial
  have hupte₂ : upte (m₁.newDir p).phys (update D e (some p)) = upte m.phys D := by
    funext e' v'
    rw [Tables.upte_newDir hzero hnone, htables.upte_congr hloose, hupte]
  refine ⟨⟨?_, ?_, fun q hq => ?_⟩, hupte₂,
    ⟨ha.base.trans hbase, fun q hq => ?_, fun q hq => ?_, fun q hq => aside_update id hq⟩⟩
  · have := (htables.congr hloose).newDir hheld hzero hnone he
    rwa [hidem] at this
  · rw [← hidem]
    refine (ha.pool.retag (x := .dir e) (r := m₁.ref p + 1) ?_ ?_ ?_ nofun nofun fun _ => ?_).congr
      ⟨rfl, rfl, rfl, rfl⟩ rfl rfl rfl
    · rw [hheld]; exact nofun
    · rw [hheld]; exact nofun
    · rw [hheld]; exact nofun
    · rw [ha.ref, h.pool.zero p ha.free]
      decide
  · have hqp : q ≠ p := by
      rintro rfl
      rw [Function.update_self] at hq
      cases hq
    rw [Function.update_of_ne hqp] at hq
    rw [hupte₂, newDir_ref_of_ne hqp, ha.ref, h.count q hq]
  · have hqp : q ≠ p := by
      rintro rfl
      rw [ha.free] at hq
      cases hq
    rw [newDir_phys_of_ne hqp, ha.phys_of_ne hqp]
  · by_cases hqp : q = p
    · rw [hqp, Function.update_self] at hq
      cases hq
    · rwa [Function.update_of_ne hqp] at hq

/-- What `env_setup_vm` does when it succeeds. -/
structure NewSpace (s : KState) (k : ℕ → Kind) (e : ℕ) (s' : KState) (k' : ℕ → Kind) : Prop where
  vm : Vm s'.mem s'.dirs k'
  entries : upte s'.mem.phys s'.dirs = upte s.mem.phys s.dirs
  frame : Frame s.mem k s'.mem k'
  dirs : ∃ p, s'.dirs = update s.dirs e (some p)
  kept : ∀ q, k q ≠ .free → k' q = k q

theorem setEnv_dirs (s : KState) (e : ℕ) (x : Env) :
    (s.setEnv e x).dirs = update s.dirs e x.envPgdir := by
  funext e'
  by_cases hee : e' = e
  · rw [hee, Function.update_self, KState.dirs, KState.setEnv_envs_self]
  · rw [Function.update_of_ne hee]
    simp [KState.dirs, KState.setEnv, Function.update_of_ne hee]

theorem envSetupVm_vm {s s' : KState} (h : Vm s.mem s.dirs k) (he : e < NENV)
    (hnone : s.dirs e = none)
    (hr : envSetupVm s e = .ok (r, s')) : r ≠ 0 ∧ s' = s ∨ r = 0 ∧ ∃ k', NewSpace s k e s' k' := by
  obtain ⟨⟨o, m₁⟩, halloc, hr₁⟩ := bind_eq_ok.mp hr
  rcases pageAlloc_spec h.pool halloc with ⟨rfl, hm₁, -⟩ | ⟨p, rfl, ha⟩
  · cases hr₁
    rw [hm₁]
    exact .inl ⟨by decide, rfl⟩
  obtain ⟨pgdir, hkaddr, hr₂⟩ := bind_eq_ok.mp hr₁
  have hp20 : p < 2 ^ 20 := h.pool.lt (by rw [ha.free]; exact nofun)
  rw [kaddr, PGNUM_page2pa hp20] at hkaddr
  split_ifs at hkaddr
  cases hkaddr
  cases hr₂
  refine .inr ⟨rfl, update k p (.dir e), ?_⟩
  obtain ⟨hvm, hupte, hframe⟩ := ha.newDir h he hnone
  have hdirs := setEnv_dirs { s with mem := m₁.newDir p } e { s.envs e with envPgdir := some p }
  rw [show ({ s with mem := m₁.newDir p } : KState).dirs = s.dirs from rfl] at hdirs
  rw [← hdirs] at hvm hupte
  refine ⟨hvm, hupte, hframe, ⟨p, hdirs⟩, fun q hq => Function.update_of_ne ?_ _ _⟩
  rintro rfl
  exact hq ha.free

/-! ### `env_free` -/

/-- An entry of a user directory, as an address. -/
theorem PGADDR_user (hi : i < NUPDX) (hj : j < 1024) :
    PGADDR i j 0 < UTOP ∧ PGNUM (PGADDR i j 0) = i * 1024 + j := by
  have hi' : i < 1024 := lt_trans hi (by decide)
  have hv := PGNUM_PGADDR hi' hj
  refine ⟨(PGNUM_lt_iff _).mp ?_, hv⟩
  rw [hv]
  unfold NUPDX at hi
  unfold NUPAGES
  omega

/-- What emptying tables of environment `e` leaves: the other environments see what they saw, and
`e` no more than that. -/
structure Emptying (m : Mem) (D : ℕ → Option ℕ) (k : ℕ → Kind) (e : ℕ) (m' : Mem)
    (k' : ℕ → Kind) : Prop where
  vm : Vm m' D k'
  small : Small (upte m'.phys D)
  base : SameBase m m'
  loose : ∀ q, (k q).Loose → (k' q).Loose ∧ m'.phys q = m.phys q
  data : ∀ q, k' q = .data → k q = .data
  aside : ∀ q, (k' q).Aside → (k q).Aside
  others : ∀ e' v', e' ≠ e → upte m'.phys D e' v' = upte m.phys D e' v'

theorem Vm.bound (h : Vm m D k) (e v p : ℕ) (hn : Names (upte m.phys D e v) p) : e < NENV ∧
    v < NUPAGES :=
  h.tables.lt_of_names hn

/-- One present entry of a table is unmapped. -/
theorem Emptying.pageRemove (h : Emptying m D k e m₁ k') (hd : D e = some d)
    (ht : k' t = .table e i) (hi : i < NUPDX)
    (hj : j < 1024) (hP : test (m₁.phys t j) PTE_P = true)
    (hr : pageRemove m₁ d (PGADDR i j 0) = .ok m') :
    ∃ k'', Emptying m D k e m' k'' ∧ k'' t = .table e i ∧ m'.phys d = m₁.phys d ∧
      ∀ c < 1024, m'.phys t c = if c = j then 0 else m₁.phys t c := by
  obtain ⟨hva, hv⟩ := PGADDR_user hi hj
  have hentry : upte m₁.phys D e (PGNUM (PGADDR i j 0)) = m₁.phys t j := by
    rw [hv, h.vm.tables.upte_table ht hj]
  have hn : Names (upte m₁.phys D e (PGNUM (PGADDR i j 0))) (PGNUM (m₁.phys t j)) := by
    rw [hentry]
    exact ⟨hP, rfl⟩
  obtain ⟨k'', hm, hkept, hloose, hphys⟩ :=
    pageRemove_spec h.vm hd hva hn (h.small.spare _ _ _ hn) hr
  have hne : t ≠ PGNUM (m₁.phys t j) := by
    intro he
    have := h.vm.tables.data_of_names hn
    rw [← he, ht] at this
    cases this
  have ht' : k'' t = .table e i := by rw [hkept t hne, ht]
  refine ⟨k'', ⟨hm.vm, ?_, h.base.trans hm.frame.base, fun q hq => ?_, fun q hq =>
    h.data q (hm.frame.data q hq),
    fun q hq => h.aside q (hm.frame.aside q hq), fun e' v' hne => ?_⟩, ht', ?_, fun c hc => ?_⟩
  · rw [hm.entries]
    exact h.small.clear h.vm.bound _ _
  · obtain ⟨hq', hphysq⟩ := h.loose q hq
    refine ⟨?_, ?_⟩
    · by_cases hqq : q = PGNUM (m₁.phys t j)
      · rw [hqq]; exact hloose
      · rwa [hkept q hqq]
    · rw [hphys q, hphysq]
      intro hk
      rw [hk] at hq'
      exact hq'
  · rw [hm.entries, setAt_of_ne fun h => hne h.1, h.others e' v' hne]
  · refine hphys d ?_
    rw [(h.vm.tables.dir e d).mp hd]
    exact nofun
  · rw [← hm.vm.tables.upte_table ht' hc, hm.entries, hv, ← h.vm.tables.upte_table ht hc, setAt]
    by_cases hcj : c = j
    · rw [if_pos hcj, if_pos ⟨rfl, by rw [hcj]⟩]
    · rw [if_neg hcj, if_neg]
      rintro ⟨-, h⟩
      omega

/-- The inner loop: no entry of the table is present any more. -/
theorem Emptying.ptes (h : Emptying m D k e m₁ k') (hd : D e = some d) (ht : k' t = .table e i)
    (hr : envFreePtes d t i m₁ = .ok m') :
    ∃ k'', Emptying m D k e m' k'' ∧ k'' t = .table e i ∧ m'.phys d = m₁.phys d ∧
      ∀ c < 1024, test (m'.phys t c) PTE_P ≠ true := by
  obtain ⟨hi, -⟩ := h.vm.tables.table t e i ht
  have hloop := foldlM_forall hr
    (I := fun m' => ∃ k'', Emptying m D k e m' k'' ∧ k'' t = .table e i ∧ m'.phys d = m₁.phys d)
    (P := fun c m' => c < 1024 → test (m'.phys t c) PTE_P ≠ true) ⟨k', h, ht, rfl⟩ ?_
  · obtain ⟨⟨k'', hI, ht', hdir⟩, -, hP⟩ := hloop
    exact ⟨k'', hI, ht', hdir, fun c hc => hP c (List.mem_range.mpr hc) hc⟩
  · rintro b b' j hj ⟨kb, hb, htb, hdirb⟩ hs
    have hj := List.mem_range.mp hj
    split_ifs at hs with hP
    · obtain ⟨kb', hb', htb', hdir, hc⟩ := hb.pageRemove hd htb hi hj hP hs
      refine ⟨⟨kb', hb', htb', hdir.trans hdirb⟩, fun hj' => ?_, fun c hcb hc' => ?_⟩
      · rw [hc j hj', if_pos rfl, test_zero]
        exact Bool.false_ne_true
      · rw [hc c hc']
        split_ifs
        · rw [test_zero]
          exact Bool.false_ne_true
        · exact hcb hc'
    · cases hs
      exact ⟨⟨kb, hb, htb, hdirb⟩, fun _ => hP, fun c hc => hc⟩

/-- `page_decref` of the last reference to a page that is not user data any more. -/
theorem pageDecref_held {m m' : Mem} (hpool : Pool m k) (hp : (k p).Single)
    (hr : pageDecref m p = .ok m') :
    Pool m' (update k p .free) ∧ m'.phys = m.phys ∧ SameBase m m' ∧ ∀ q, q ≠ p →
        m'.ref q = m.ref q := by
  have hone := hpool.one p hp
  have hne : ∀ x, ¬ x.Single → k p ≠ x := by
    rintro x hx rfl
    exact hx hp
  have hheld : update k p .held p = .held := Function.update_self _ _ _
  have hzero : m.ref p - 1 = 0 := by
    rw [hone]
    decide
  have hself : ((m.setRef p 0).pages p).ppRef = 0 := setRef_self m p 0
  rw [pageDecref, show (m.pages p).ppRef = m.ref p from rfl, hzero] at hr
  rw [if_pos hself] at hr
  have hpool' : Pool (m.setRef p 0) (update k p .held) :=
    hpool.retag (hne _ id) (hne _ id) (hne _ id) (by simp) (by simp) fun h => h.elim
  have hf := pageFree_spec hpool' (.inl hheld) hr
  refine ⟨?_, hf.phys, ⟨hf.base.1, hf.base.2, hf.base.3, hf.base.4⟩, fun q hq => ?_⟩
  · have := hf.pool
    rwa [Function.update_idem] at this
  · rw [hf.ref]
    exact setRef_of_ne hq

/-- A page that is not in use any more and whose last reference goes. -/
theorem Vm.drop {D' : ℕ → Option ℕ} (h : Vm m D k) (hr : pageDecref m₁ p = .ok m')
    (hp : (k p).Single)
    (ht : Tables m₁.kernPgdir m₁.phys D' (update k p .held)) (hm₁ : m₁.pages = m.pages)
    (hfl : m₁.pageFreeList = m.pageFreeList) (hud : m₁.userData = m.userData)
    (hbase : SameBase m m₁)
    (hcount : ∀ q, k q = .data → mapCount (upte m₁.phys D') q = mapCount (upte m.phys D) q) :
    Vm m' D' (update k p .free) ∧ m'.phys = m₁.phys ∧ SameBase m m' := by
  obtain ⟨hpool, hphys, hbase', href⟩ := pageDecref_held (h.pool.congr hbase hm₁ hfl hud) hp hr
  have hheld : update k p .held p = .held := Function.update_self _ _ _
  have hidem : update (update k p .held) p .free = update k p .free := Function.update_idem _ _ _
  refine ⟨⟨?_, hpool, fun q hq => ?_⟩, hphys, hbase.trans hbase'⟩
  · rw [← hidem, hphys, hbase'.kernPgdir]
    refine ht.retag (by rw [hheld]; trivial) trivial fun _ e v hn => ?_
    have := ht.data_of_names hn
    rw [hheld] at this
    cases this
  · have hqp : q ≠ p := by
      rintro rfl
      rw [Function.update_self] at hq
      cases hq
    rw [Function.update_of_ne hqp] at hq
    rw [href q hqp, Mem.ref, hm₁, hphys, hcount q hq]
    exact h.count q hq

/-- One pass of the outer loop: the directory has no table for the entry any more. -/
theorem Emptying.pde (h : Emptying m D k e m₁ k') (hd : D e = some d) (hi : i < NUPDX)
    (hr : envFreePde d m₁ i = .ok m') :
    ∃ k'', Emptying m D k e m' k'' ∧ m'.phys d = update (m₁.phys d) i
        (if test (m₁.phys d i) PTE_P then 0 else m₁.phys d i) := by
  rw [envFreePde] at hr
  split_ifs at hr with hP
  · obtain ⟨pt, hpt, hr₁⟩ := bind_eq_ok.mp hr
    obtain ⟨m₂, hm₂, hr₂⟩ := bind_eq_ok.mp hr₁
    obtain ⟨pp, hpp, hr₃⟩ := bind_eq_ok.mp hr₂
    rw [kaddr, PGNUM_PTE_ADDR] at hpt
    split_ifs at hpt
    cases hpt
    rw [pa2page, PGNUM_PTE_ADDR] at hpp
    split_ifs at hpp
    cases hpp
    have ht := h.vm.tables.pde e d i hd hi hP
    generalize htt : PGNUM (m₁.phys d i) = t at ht hm₂ hr₃
    obtain ⟨k₂, h₂, ht₂, hdir, hempty⟩ := h.ptes hd ht hm₂
    have hn : Names (m₂.phys d i) t := by
      rw [hdir]
      exact ⟨hP, htt⟩
    -- the programs see no change
    have hupte : ∀ e' v', upte (setW m₂.phys d i 0) D e' v' =
        if e' = e ∧ v' / 1024 = i then 0 else upte m₂.phys D e' v' := h₂.vm.tables.upte_clearPde hd
    have hnames : ∀ e' v' q, Names (upte (setW m₂.phys d i 0) D e' v') q ↔
        Names (upte m₂.phys D e' v') q := by
      intro e' v' q
      rw [hupte]
      split_ifs with hev
      · refine ⟨fun h => absurd h (not_names_zero q), fun h => absurd h.1 ?_⟩
        rw [hev.1, show v' = i * 1024 + v' %
          1024 by omega, h₂.vm.tables.upte_table ht₂ (Nat.mod_lt _ (by decide))]
        exact hempty _ (Nat.mod_lt _ (by decide))
      · rfl
    obtain ⟨hvm, hphys, hbase⟩ := h₂.vm.drop hr₃ (by rw [ht₂]; trivial)
      (h₂.vm.tables.clearPde hd hi hn hempty) rfl rfl rfl ⟨rfl, rfl, rfl, rfl⟩ fun q _ =>
        mapCount_congr fun e v => hnames e v q
    have hphys : m'.phys = setW m₂.phys d i 0 := hphys
    refine ⟨update k₂ t .free, ⟨hvm, fun q => ?_, h₂.base.trans hbase, fun q hq => ?_,
      fun q hq => ?_,
      fun q hq => h₂.aside q (aside_update id hq), fun e' v' hne => ?_⟩, ?_⟩
    · rw [hphys, mapCount_congr fun e v => hnames e v q]
      exact h₂.small q
    · obtain ⟨hq', hphysq⟩ := h₂.loose q hq
      refine ⟨?_, ?_⟩
      · by_cases hqt : q = t
        · rw [hqt, Function.update_self]; trivial
        · rwa [Function.update_of_ne hqt]
      · rw [hphys, setW_of_ne, hphysq]
        rintro rfl
        rw [(h₂.vm.tables.dir e q).mp hd] at hq'
        exact hq'
    · refine h₂.data q ?_
      by_cases hqt : q = t
      · rw [hqt, Function.update_self] at hq
        cases hq
      · rwa [Function.update_of_ne hqt] at hq
    · rw [hphys, hupte, if_neg fun h => hne h.1, h₂.others e' v' hne]
    · rw [hphys, if_pos hP, setW, Function.update_self, hdir]
  · cases hr
    exact ⟨k', h, by rw [if_neg hP, Function.update_eq_self]⟩

/-- What `env_free` leaves: the environment has no entries. -/
structure Emptied (m : Mem) (D : ℕ → Option ℕ) (k : ℕ → Kind) (e : ℕ) (m' : Mem)
    (k' : ℕ → Kind) : Prop where
  vm : Vm m' (update D e none) k'
  small : Small (upte m'.phys (update D e none))
  base : SameBase m m'
  data : ∀ q, k' q = .data → k q = .data
  aside : ∀ q, (k' q).Aside → (k q).Aside
  entries : ∀ e' v', upte m'.phys (update D e none) e' v' = if e' = e then 0
    else upte m.phys D e' v'

/-- The memory half of `env_free`. -/
theorem envFreeVm_vm (h : Vm m D k) (hsmall : Small (upte m.phys D)) (hd : D e = some d)
    (hr : envFreeVm m d = .ok m') :
    ∃ k', Emptied m D k e m' k' := by
  obtain ⟨m₁, hm₁, hr₁⟩ := bind_eq_ok.mp hr
  obtain ⟨pp, hpp, hr₂⟩ := bind_eq_ok.mp hr₁
  have hd20 : d < 2 ^ 20 := h.pool.lt (by rw [(h.tables.dir e d).mp hd]; exact nofun)
  rw [pa2page, PGNUM_page2pa hd20] at hpp
  split_ifs at hpp
  cases hpp
  have hinit : Emptying m D k e m k :=
    ⟨h, hsmall, SameBase.refl m, fun q hq => ⟨hq, rfl⟩, fun _ h => h, fun _ h => h,
    fun _ _ _ => rfl⟩
  have hloop := foldlM_forall hm₁ (I := fun m' => ∃ k', Emptying m D k e m' k')
    (P := fun i m' => test (m'.phys d i) PTE_P ≠ true) ⟨k, hinit⟩ ?_
  · obtain ⟨⟨k₁, h₁⟩, -, hempty⟩ := hloop
    have hempty : ∀ i < NUPDX, test (m₁.phys d i) PTE_P ≠ true :=
      fun i hi => hempty i (List.mem_range.mpr hi)
    have hkd : k₁ d = .dir e := (h₁.vm.tables.dir e d).mp hd
    have hgone : ∀ v, upte m₁.phys D e v = 0 := by
      intro v
      by_cases hv : v < NUPAGES
      · rw [upte_of_dir hd hv, dirPte, if_neg (hempty _ (div_lt_NUPDX hv))]
      · simp only [upte, hd, if_neg hv]
    have hupte : ∀ e' v', upte m₁.phys (update D e none) e' v' = upte m₁.phys D e' v' := by
      intro e' v'
      by_cases hee : e' = e
      · rw [hee, hgone, upte_of_none (Function.update_self _ _ _)]
      · simp only [upte, Function.update_of_ne hee]
    obtain ⟨hvm, hphys, hbase⟩ := h₁.vm.drop hr₂ (by rw [hkd]; trivial)
      (h₁.vm.tables.dropDir hd hempty) rfl rfl rfl (SameBase.refl m₁)
      fun q _ => mapCount_congr fun e v => by rw [hupte]
    refine ⟨update k₁ d .free, hvm, fun q => ?_, h₁.base.trans hbase, fun q hq => ?_,
      fun q hq => h₁.aside q (aside_update id hq), fun e' v' => ?_⟩
    · rw [hphys, mapCount_congr (u := upte m₁.phys D) fun e v => by rw [hupte]]
      exact h₁.small q
    · refine h₁.data q ?_
      by_cases hqd : q = d
      · rw [hqd, Function.update_self] at hq
        cases hq
      · rwa [Function.update_of_ne hqd] at hq
    · rw [hphys, hupte]
      split_ifs with hee
      · rw [hee, hgone]
      · exact h₁.others e' v' hee
  · rintro b b' i hi ⟨kb, hb⟩ hs
    obtain ⟨kb', hb', hdir⟩ := hb.pde hd (List.mem_range.mp hi) hs
    refine ⟨⟨kb', hb'⟩, ?_, fun c hc => ?_⟩
    · rw [hdir, Function.update_self]
      split_ifs with hP
      · rw [test_zero]
        exact Bool.false_ne_true
      · exact hP
    · rw [hdir]
      by_cases hci : c = i
      · rw [hci, Function.update_self]
        split_ifs with hP
        · rw [test_zero]
          exact Bool.false_ne_true
        · exact hP
      · rwa [Function.update_of_ne hci]

end JOS
