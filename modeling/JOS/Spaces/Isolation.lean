import JOS.Spaces.Checked

/-!
# What user programs reach

In runs of tame events the address spaces map pages of user data only, and writing rights are handed
on but never made.

`UserOnly` is about one state: what an entry below `UTOP` names was obtained for user data, and is
no page of the kernel and not free (`userOnly_of_reach`). `Descends` follows one mapping back
through the run, to the page that was handed out: each step of the way a system call copied a
mapping that was writable itself (`writable_descends`). For this `sys_page_map` must not be asked to
make a page writable that its source maps read-only, since the test that should refuse it never
does.
-/

namespace JOS

open JOS.General

variable {s₀ s s' s₁ : KState} {ev : Event} {k : ℕ → Kind} {m : Mem} {c cur d e i p v : ℕ}
  {a : SysArgs} {va perm : Word}

/-! ### User pages -/

/-- Pages that hold something of the machine or of the kernel when the kernel has booted: page 0,
the code that other CPUs start with, the I/O hole, and what `boot_alloc` has handed out. -/
def BootReserved (m : Mem) (p : ℕ) : Prop :=
  p = 0 ∨ p = PGNUM MPENTRY_PADDR ∨ (PGNUM IOPHYSMEM ≤ p ∧ p < PGNUM EXTPHYSMEM) ∨
    (PGNUM EXTPHYSMEM ≤ p ∧ p < PGNUM (m.nextfree - KERNBASE))

theorem Mem.Managed.not_bootReserved (h : m.Managed p) (hbase : m.npagesBasemem ≤ PGNUM IOPHYSMEM) :
    ¬ BootReserved m p := by
  have hfree := h.2
  have hhole : PGNUM IOPHYSMEM ≤ PGNUM EXTPHYSMEM := by decide
  rw [pageInitFree] at hfree
  split_ifs at hfree with h0 hmp hlow hio hboot
  · rintro (h | h | ⟨h, -⟩ | ⟨h, -⟩)
    · exact h0 h
    · exact hmp h
    · omega
    · omega
  · rintro (h | h | h | ⟨h, h'⟩)
    · exact h0 h
    · exact hmp h
    · exact hio h
    · exact hboot ⟨by omega, h'⟩

/-- Page `p` holds user data: it was obtained for that and has not been freed since. It is no page
of the kernel, which booted in `s₀`. -/
structure UserPage (s₀ s : KState) (p : ℕ) : Prop where
  data : s.mem.userData p = true
  reserved : ¬ BootReserved s₀.mem p
  /-- No directory, -/
  dir : p ≠ s.mem.kernPgdir ∧ ∀ e, s.dirs e ≠ some p
  /-- and no table. -/
  table : (∀ i, ¬ KernEntry s.mem.phys s.mem.kernPgdir i p) ∧ ∀ e d i, s.dirs e = some d →
    i < NUPDX → ¬ Names (s.mem.phys d i) p
  free : ∀ l, Chain s.mem.link s.mem.pageFreeList l → p ∉ l

/-- Address spaces reach user pages only, and what `page_init` reserves is never free. -/
structure UserOnly (s₀ s : KState) : Prop where
  user : ∀ e va p, va < UTOP → Names (s.upte e (PGNUM va)) p → UserPage s₀ s p
  reserved : ∀ l, Chain s.mem.link s.mem.pageFreeList l → ∀ p ∈ l, s₀.mem.Managed p ∧
    ¬ BootReserved s₀.mem p

theorem SoundState.userOnly (h : SoundState s) (h₀ : s₀.mem.Booted)
    (hbase : SameBase s₀.mem s.mem) : UserOnly s₀ s := by
  obtain ⟨k, hx⟩ := h.sound
  have hmanaged : ∀ q, k q ≠ .reserved → s₀.mem.Managed q := by
    intro q hq
    have hback : SameBase s.mem s₀.mem :=
      ⟨hbase.npages.symm, hbase.npagesBasemem.symm, hbase.nextfree.symm, hbase.kernPgdir.symm⟩
    exact hback.managed (hx.vm.pool.managed q hq)
  obtain ⟨l', hl', hfree⟩ := hx.vm.pool.free
  constructor
  · intro e va p _ hn
    have hdata : k p = .data := hx.vm.tables.data_of_names hn
    refine ⟨(hx.vm.pool.user p).mpr hdata,
      (hmanaged p (by rw [hdata]; simp)).not_bootReserved h₀.basemem_le, ⟨?_, fun e hd => ?_⟩,
      ⟨fun i hi => ?_, fun e d i hd hi ht => ?_⟩, fun l hl hpl => ?_⟩
    · rintro rfl
      have hk : k s.mem.kernPgdir = .reserved := hx.vm.tables.kernPgdir
      rw [hdata] at hk
      cases hk
    · have hk : k p = .dir e := (hx.vm.tables.dir e p).mp hd
      rw [hdata] at hk
      cases hk
    · have hk : k p = .kern := (hx.vm.tables.kern p).mpr ⟨i, hi⟩
      rw [hdata] at hk
      cases hk
    · have hk : k (PGNUM (s.mem.phys d i)) = .table e i := hx.vm.tables.pde e d i hd hi ht.1
      rw [ht.2, hdata] at hk
      cases hk
    · have hk : k p = .free := (hfree p).mp (hl.unique hl' ▸ hpl)
      rw [hdata] at hk
      cases hk
  · intro l hl p hp
    have hk : k p = .free := (hfree p).mp (hl.unique hl' ▸ hp)
    have hm := hmanaged p (by rw [hk]; simp)
    exact ⟨hm, hm.not_bootReserved h₀.basemem_le⟩

/-- **User address spaces reach user pages only**, in every state of a run of tame events. -/
theorem userOnly_of_reach (h₀ : Booted s₀) (h : Reach step Tame s₀ s) : UserOnly s₀ s := by
  have hall : SoundState s ∧ SameBase s₀.mem s.mem := by
    refine h.invariant (I := fun s => SoundState s ∧ SameBase s₀.mem s.mem) ⟨h₀.soundState, .refl _⟩
      fun t ev t' ht hok hs => ?_
    obtain ⟨k, hx⟩ := ht.1.sound
    obtain ⟨k', hwork⟩ := step_works hx ht.1.loaded ht.1.freeHead hok hs
    exact ⟨ht.1.step hok hs, ht.2.trans hwork.base⟩
  exact hall.1.userOnly h₀.mem hall.2

/-- A program gets a page at `0x1000`. -/
def userPageRun : List Event := [.create 0 emptyElf, .start 0, .trap 0 (sysTrap 4 0 0x1000 7 0 0)]

/-- The page of `sharedRun`, which is mapped twice and then sent, is one of user data. -/
theorem userOnly_shared : ∃ s p, Reach step Tame (bootState 1) s ∧ Names (s.upte 0 1) p ∧
    Names (s.upte 0 3) p ∧
    Names (s.upte 1 2) p ∧ UserOnly (bootState 1) s := by
  have hrun : (sharedRun.foldlM (fun t e => if sharingCheck 0 t e then step t e else none)
    (bootState 1)).map
      (fun s => ((test (s.upte 0 1) PTE_P, PGNUM (s.upte 0 1)),
        (test (s.upte 0 3) PTE_P, PGNUM (s.upte 0 3)),
        (test (s.upte 1 2) PTE_P, PGNUM (s.upte 1 2)))) = some ((true, 16377), (true, 16377),
        (true, 16377)) := by
    decide +kernel
  obtain ⟨s, hs, hpages⟩ := Option.map_eq_some_iff.mp hrun
  simp only [Prod.mk.injEq] at hpages
  have hreach : Reach step Tame (bootState 1) s := (bootState_booted 1).reach_of_check hs
  exact ⟨s, 16377, hreach, hpages.1, hpages.2.1, hpages.2.2,
    userOnly_of_reach (bootState_booted 1) hreach⟩

/-- **Page 0** is what `page_lookup` finds in an empty entry: `sys_page_map` of `0x2000`, where
nothing is mapped, maps it at `0x3000`. -/
theorem not_userOnly : ∃ s, Reach step (fun _ _ => True) (bootState 1) s ∧
    ¬ UserOnly (bootState 1) s := by
  have hrun : ((userPageRun ++ [Event.trap 0 (sysTrap 5 0 0x2000 0 0x3000 7)]).foldlM step
    (bootState 1)).map
      (fun s => (test (s.upte 0 3) PTE_P, PGNUM (s.upte 0 3))) = some (true, 0) := by decide +kernel
  obtain ⟨s, hs, hentry⟩ := Option.map_eq_some_iff.mp hrun
  refine ⟨s, Reach.of_foldlM hs fun _ _ _ => trivial, fun h => ?_⟩
  have hn : Names (s.upte 0 (PGNUM 0x3000)) 0 :=
    ⟨congrArg Prod.fst hentry, congrArg Prod.snd hentry⟩
  exact (h.user 0 0x3000 0 (by decide) hn).reserved (.inl rfl)

/-! ### Writing rights -/

/-- Environment `e` can write page `p`, at page `v` of its address space. -/
def WritesPage (s : KState) (e v p : ℕ) : Prop :=
  Names (s.upte e v) p ∧ test (s.upte e v) PTE_W = true

/-- Page `p`, which was mapped nowhere, is handed out by `sys_page_alloc` for page `v` of `e`. -/
def HandedOut (s : KState) (ev : Event) (e v p : ℕ) : Prop :=
  (∀ e' v', ¬ Names (s.upte e' v') p) ∧ ∃ va perm, v = PGNUM va ∧ Allocs s ev e va perm

/-- The step makes no page writable that was not, unless it hands it out. -/
def Unforged (s : KState) (ev : Event) (s' : KState) : Prop :=
  ∀ e v p, WritesPage s' e v p → (∃ e₀ v₀, WritesPage s e₀ v₀ p) ∨ HandedOut s ev e v p

/-- `sys_page_map` is not asked to make a page writable that its source maps read-only. -/
def NoUpgrade (s : KState) (ev : Event) : Prop :=
  ∀ e₀ va₀ e va perm, MapsPage s ev e₀ va₀ e va perm → test (s.upte e₀ (PGNUM va₀)) PTE_P = true →
    test perm PTE_W = true →
    test (s.upte e₀ (PGNUM va₀)) PTE_W = true

/-- Where a writable mapping comes from. -/
theorem Does.writes {x x' : VmState} {op : VmOp} (h : Does x op x') (hx : x.Sound)
    (hn : Names (x'.upte e v) p)
    (hw : test (x'.upte e v) PTE_W = true) :
    Names (x.upte e v) p ∧ test (x.upte e v) PTE_W = true ∨
      (∃ va perm, op = .alloc e va perm ∧ v = PGNUM va ∧ x.kind p = .free) ∨
      ∃ e₀ va₀ va perm, op = .share e₀ va₀ e va perm ∧ v = PGNUM va ∧
          Names (x.upte e₀ (PGNUM va₀)) p ∧ test perm PTE_W = true := by
  -- an operation that sets one entry
  have hset : ∀ {e₁ v₁ w} {y : VmState}, JOS.upte y.mem.phys y.dirs = setAt x.upte e₁ v₁ w →
      y.upte e v = x.upte e v ∨
      e = e₁ ∧ v = v₁ ∧ y.upte e v = w := by
    intro e₁ v₁ w y hy
    have hy : y.upte e v = setAt x.upte e₁ v₁ w e v := congrFun (congrFun hy e) v
    by_cases hev : e = e₁ ∧ v = v₁
    · obtain ⟨rfl, rfl⟩ := hev
      rw [setAt_self] at hy
      exact .inr ⟨rfl, rfl, hy⟩
    · rw [setAt_of_ne hev] at hy
      exact .inl hy
  have hsame : x'.upte e v = x.upte e v → Names (x.upte e v) p ∧ test (x.upte e v) PTE_W = true :=
    fun heq => heq ▸ ⟨hn, hw⟩
  cases h with
  | create _ _ hupte _ => exact .inl (hsame (congrFun (congrFun hupte e) v))
  | @alloc _ _ _ _ _ m k _ _ hf ha =>
    rcases hset (y := ⟨m, x.dirs, k⟩) ha.entries with heq | ⟨rfl, rfl, heq⟩
    · exact .inl (hsame heq)
    · have hfree := ha.free
      have hq := names_mkPte (hx.vm.pool.lt (by rw [hfree]; simp)) hf
      rw [heq] at hn
      rw [names_unique hq hn] at hfree
      exact .inr (.inl ⟨_, _, rfl, rfl, hfree⟩)
  | @share _ _ _ _ _ _ _ m k _ _ hf hsrc _ hm =>
    rcases hset (y := ⟨m, x.dirs, k⟩) hm.entries with heq | ⟨rfl, rfl, heq⟩
    · exact .inl (hsame heq)
    · have hq := names_mkPte (hx.vm.lt_of_data (hx.vm.tables.data_of_names hsrc)) hf
      rw [heq] at hn hw
      rw [test_mkPte _ _ (by decide) (by decide)] at hw
      rw [names_unique hq hn] at hsrc
      exact .inr (.inr ⟨_, _, _, _, rfl, rfl, hsrc, hw⟩)
  | @unmap _ _ _ m k _ _ hm =>
    rcases hset (y := ⟨m, x.dirs, k⟩) hm.entries with heq | ⟨rfl, rfl, heq⟩
    · exact .inl (hsame heq)
    · rw [heq] at hn
      exact absurd hn (not_names_zero p)
  | keep hs => exact .inl (hsame (congrFun (congrFun hs.entries e) v))
  | destroy _ h =>
    have heq := h.entries e v
    split_ifs at heq with he
    · have hzero : Names 0 p := heq ▸ hn
      exact absurd hzero (not_names_zero p)
    · exact .inl (hsame heq)

/-- What is mapped is not free. -/
theorem not_names_of_free {x : VmState} (hx : x.Sound) (hp : x.kind p = .free) (e v : ℕ) :
    ¬ Names (x.upte e v) p := by
  intro hn
  have hk : x.kind p = .data := hx.vm.tables.data_of_names hn
  rw [hp] at hk
  cases hk

/-- A program is loaded: the pages it can write were its own, or mapped nowhere. -/
theorem create_writes {elf : Elf} (hsound : SoundState s) (hok : Tame s (.create c elf))
    (hs : step s (.create c elf) = some s')
    (hw : WritesPage s' e v p) : WritesPage s e v p ∨ ∀ e' v', ¬ Names (s.upte e' v') p := by
  obtain ⟨k, hx⟩ := hsound.sound
  obtain ⟨k', hwork⟩ := step_works hx hsound.loaded hsound.freeHead hok hs
  have hno : ∀ {c' cur a s₁}, ¬ SysCall s (.create c elf) c' cur a s₁ := by
    rintro c' cur a s₁ ⟨t, hev, -⟩
    cases hev
  -- entries are added to a new environment only
  let I : VmState → Prop := fun x => x.Sound ∧
    (∀ e v p, Names (s.upte e v) p → x.upte e v = s.upte e v) ∧
    ∀ e v p, Names (x.upte e v) p → test (x.upte e v) PTE_W = true → WritesPage s e v p ∨ ∀ e' v',
    ¬ Names (s.upte e' v') p
  have hI : I (s'.vmState k') := by
    refine hwork.invariant (I := I) ⟨hx, fun _ _ _ _ => rfl, fun e v p hn hw => .inl ⟨hn, hw⟩⟩ ?_
    rintro x op x' ⟨hxs, hkept, hwrites⟩ hask hdoes
    refine ⟨hdoes.sound hxs, fun e v p hn => ?_, fun e v p hn hw => ?_⟩
    · by_contra hne
      rw [← hkept e v p hn] at hne
      have hlive : s.dirs e ≠ none := by
        intro hnone
        rw [KState.upte, upte_of_none hnone] at hn
        exact not_names_zero p hn
      rcases hdoes.changes hne with ⟨va, perm, q, rfl, -⟩ | ⟨e₀, va₀, va, perm, q, rfl, -⟩ |
        ⟨va, rfl, -⟩ | rfl
      · rcases hask with ⟨_, _, _, _, hcall, -⟩ | ⟨hhead, -⟩
        · exact hno hcall
        · exact hlive (hsound.freeHead e hhead).2
      · rcases hask with ⟨_, _, _, _, hcall, -⟩ | ⟨_, _, _, hcall, -⟩
        · exact hno hcall
        · exact hno hcall
      · obtain ⟨_, _, _, _, hcall, -⟩ := hask
        exact hno hcall
      · rcases hask with hcur | ⟨⟨_, _, _, hcall, -⟩, -⟩
        · rw [show s.curenv (Event.create c elf).cpu = none from (hok.image c elf rfl).2] at hcur
          cases hcur
        · exact hno hcall
    · rcases hdoes.writes hxs hn hw with ⟨hn, hw⟩ | ⟨va, perm, rfl, rfl, hfree⟩ |
        ⟨e₀, va₀, va, perm, rfl, -⟩
      · exact hwrites e v p hn hw
      · refine .inr fun e' v' hn' => ?_
        have hn'' := hn'
        rw [← hkept e' v' p hn'] at hn''
        exact not_names_of_free hxs hfree e' v' hn''
      · rcases hask with ⟨_, _, _, _, hcall, -⟩ | ⟨_, _, _, hcall, -⟩
        · exact (hno hcall).elim
        · exact (hno hcall).elim
  exact hI.2.2 e v p hw.1 hw.2

/-- **A step**: a writable mapping was there, or is of a page handed out, or was copied. -/
theorem step_writes (hsound : SoundState s) (hok : Tame s ev) (hs : step s ev = some s')
    (hw : WritesPage s' e v p) :
    WritesPage s e v p ∨ HandedOut s ev e v p ∨
      ((∀ e' v', ¬ Names (s.upte e' v') p) ∧ ∃ c elf, ev = .create c elf) ∨
      ∃ e₀ va₀ va perm, v = PGNUM va ∧ Maps s ev e₀ va₀ e va perm ∧
          Names (s.upte e₀ (PGNUM va₀)) p ∧ test perm PTE_W = true := by
  by_cases hcreate : ∃ c elf, ev = .create c elf
  · obtain ⟨c, elf, rfl⟩ := hcreate
    rcases create_writes hsound hok hs hw with h | h
    · exact .inl h
    · exact .inr (.inr (.inl ⟨h, c, elf, rfl⟩))
  · obtain ⟨k, hx⟩ := hsound.sound
    have hcreate : ∀ c elf, ev ≠ .create c elf := fun c elf h => hcreate ⟨c, elf, h⟩
    obtain ⟨op, k', hdoes, hask⟩ := step_does hx hsound.loaded hsound.freeHead hok hcreate hs
    rcases hdoes.writes hx hw.1 hw.2 with h | ⟨va, perm, rfl, rfl, hfree⟩ |
      ⟨e₀, va₀, va, perm, rfl, rfl, hn, hperm⟩
    · exact .inl h
    · rcases hask with hask | ⟨-, c, elf, rfl⟩
      · exact .inr (.inl ⟨not_names_of_free hx hfree, va, perm, rfl, hask⟩)
      · exact absurd rfl (hcreate c elf)
    · exact .inr (.inr (.inr ⟨e₀, va₀, va, perm, rfl, hask, hn, hperm⟩))

/-- A writable mapping in a run: it was made of a page that was handed out, by `sys_page_alloc` or
when a program was loaded, or it stays, or it was copied from one by `sys_page_map` or
`sys_ipc_try_send`. -/
inductive Descends (l : List (KState × Event)) : KState → ℕ → ℕ → ℕ → Prop where
  | made {s s' : KState} {ev : Event} {e v p : ℕ} : (s, ev) ∈ l → step s ev = some s' →
      WritesPage s' e v p →
      HandedOut s ev e v p ∨ (∀ e' v', ¬ Names (s.upte e' v') p) ∧ (∃ c elf, ev = .create c elf) →
      Descends l s' e v p
  | kept {s s' : KState} {ev : Event} {e v p : ℕ} : (s, ev) ∈ l → step s ev = some s' →
      WritesPage s' e v p →
      Descends l s e v p → Descends l s' e v p
  | copied {s s' : KState} {ev : Event} {e₀ e p : ℕ} {va₀ va perm : Word} : (s, ev) ∈ l →
      step s ev = some s' →
      WritesPage s' e (PGNUM va) p → Maps s ev e₀ va₀ e va perm → Descends l s e₀ (PGNUM va₀) p →
      Descends l s' e (PGNUM va) p

/-- Each mapping on the way is writable. -/
theorem Descends.writes {l : List (KState × Event)} (h : Descends l s e v p) :
    WritesPage s e v p := by
  cases h <;> assumption

/-- What is copied writable is writable. -/
theorem Maps.writes {e₀ : ℕ} {va₀ : Word} (h : Maps s ev e₀ va₀ e va perm) (hok : NoUpgrade s ev)
    (hn : Names (s.upte e₀ (PGNUM va₀)) p) (hperm : test perm PTE_W = true) :
    WritesPage s e₀ (PGNUM va₀) p := by
  refine ⟨hn, ?_⟩
  rcases h with h | ⟨c, a, s₁, -, -, -, -, -, hpage, rfl, -, rfl⟩
  · exact hok e₀ va₀ e va perm h hn.1 hperm
  · simp only [ipcPageOk, hperm, Bool.true_and, Bool.and_eq_true, Bool.not_eq_true',
      Bool.not_eq_false'] at hpage
    exact hpage.1.2

/-- **Writing rights are not forged** in a run of tame events without such a call of `sys_page_map`:
no system call makes a page writable that was not, and every writable mapping descends from the page
that was handed out. -/
theorem writable_descends {l : List (KState × Event)} (h₀ : Booted s₀) (h : Trace step s₀ l s)
    (hok : ∀ t ev, (t, ev) ∈ l → Tame t ev ∧ NoUpgrade t ev) :
    (∀ t ev t' c cur a s₁, (t, ev) ∈ l → step t ev = some t' → SysCall t ev c cur a s₁ →
      Unforged t ev t') ∧
      ∀ e v p, WritesPage s e v p → Descends l s e v p := by
  have hsound : ∀ t ev t', (t, ev) ∈ l → SoundState t → step t ev = some t' → SoundState t' :=
      fun t ev t' hmem ht hs =>
    ht.step (hok t ev hmem).1 hs
  constructor
  · intro t ev t' c cur a s₁ hmem hs hcall e v p hw
    have ht : SoundState t := h.invariant_mem h₀.soundState hsound hmem
    obtain ⟨htame, hup⟩ := hok t ev hmem
    rcases step_writes ht htame hs hw with h | h | ⟨-, c', elf, rfl⟩ |
      ⟨e₀, va₀, va, perm, rfl, hmaps, hn, hperm⟩
    · exact .inl ⟨e, v, h⟩
    · exact .inr h
    · obtain ⟨tr, hev, -⟩ := hcall
      cases hev
    · exact .inl ⟨e₀, PGNUM va₀, hmaps.writes hup hn hperm⟩
  · have hall : SoundState s ∧ ∀ e v p, WritesPage s e v p → Descends l s e v p := by
      refine h.invariant (I := fun s => SoundState s ∧ ∀ e v p, WritesPage s e v p →
        Descends l s e v p)
        ⟨h₀.soundState, fun e v p hw => ?_⟩ fun t ev t' hmem ht hs =>
          ⟨hsound t ev t' hmem ht.1 hs, fun e v p hw => ?_⟩
      · -- there is no address space
        have hnone : s₀.dirs e = none := (h₀.envs e).2
        have hn := hw.1
        rw [KState.upte, upte_of_none hnone] at hn
        exact absurd hn (not_names_zero p)
      · obtain ⟨htame, hup⟩ := hok t ev hmem
        rcases step_writes ht.1 htame hs hw with h | h | h |
          ⟨e₀, va₀, va, perm, rfl, hmaps, hn, hperm⟩
        · exact .kept hmem hs hw (ht.2 e v p h)
        · exact .made hmem hs hw (.inl h)
        · exact .made hmem hs hw (.inr h)
        · exact .copied hmem hs hw hmaps (ht.2 e₀ _ p (hmaps.writes hup hn hperm))
    exact hall.2

/-- Whether a system call asks `sys_page_map` for writing rights. -/
def upgrades : Event → Bool
  | .trap _ t => t.tf.tfTrapno == T_SYSCALL && SysNo.ofWord t.args.no == some .pageMap &&
      test t.args.a5 PTE_W
  | _ => false

theorem noUpgrade_of_check (h : upgrades ev = false) : NoUpgrade s ev := by
  rintro e₀ va₀ e va perm ⟨c, cur, a, s₁, ⟨t, rfl, -, -, hsys, rfl, -⟩, hno, -, -, -, rfl⟩ - hW
  simp [upgrades, hsys, hno, hW] at h

/-- The page that the second program of `sharedRun` can write descends from the one that
`sys_page_alloc` handed out to the first. -/
theorem writable_descends_shared : ∃ l s p, Trace step (bootState 1) l s ∧ WritesPage s 1 2 p ∧
    Descends l s 1 2 p ∧
    WritesPage s 0 1 p ∧ Names (s.upte 0 3) p := by
  have hrun : (sharedRun.foldlM (fun t e => if sharingCheck 0 t e && !upgrades e then step t e
    else none) (bootState 1)).map
      (fun s => ((test (s.upte 1 2) PTE_P, PGNUM (s.upte 1 2), test (s.upte 1 2) PTE_W),
        (test (s.upte 0 1) PTE_P, PGNUM (s.upte 0 1), test (s.upte 0 1) PTE_W),
        (test (s.upte 0 3) PTE_P, PGNUM (s.upte 0 3)))) =
      some ((true, 16377, true), (true, 16377, true), (true, 16377)) := by decide +kernel
  obtain ⟨s, hs, hpages⟩ := Option.map_eq_some_iff.mp hrun
  simp only [Prod.mk.injEq] at hpages
  obtain ⟨⟨hP, hn, hW⟩, ⟨hP₁, hn₁, hW₁⟩, hP₃, hn₃⟩ := hpages
  obtain ⟨l, hl, hcheck, -⟩ := Trace.of_guarded hs
  have hcheck : ∀ t ev, (t, ev) ∈ l → sharingCheck 0 t ev = true ∧ upgrades ev = false :=
      fun t ev hmem => by
    simpa using hcheck t ev hmem
  have hw : WritesPage s 1 2 16377 := ⟨⟨hP, hn⟩, hW⟩
  refine ⟨l, s, 16377, hl, hw, ?_, ⟨⟨hP₁, hn₁⟩, hW₁⟩, hP₃, hn₃⟩
  refine (writable_descends (bootState_booted 1) hl fun t ev hmem =>
    ⟨?_, noUpgrade_of_check (hcheck t ev hmem).2⟩).2 1 2 _ hw
  have ht : CheckState 0 t := hl.invariant_mem (bootState_booted 1).checkState
    (fun t ev t' hmem ht hs => ht.step (hcheck t ev hmem).1 hs) hmem
  exact ht.tame (hcheck t ev hmem).1

/-- A page that is mapped once. -/
theorem SoundState.mapped_once (h : SoundState s) {e₀ v₀ : ℕ} (hn : Names (s.upte e v) p)
    (hn₀ : Names (s.upte e₀ v₀) p)
    (href : s.mem.ref p = 1) : e₀ = e ∧ v₀ = v := by
  obtain ⟨k, hx⟩ := h.sound
  have hcount : s.mem.ref p = BitVec.ofNat 16 (mapCount s.upte p) :=
    hx.vm.count p (hx.vm.tables.data_of_names hn)
  have hone : mapCount s.upte p = 1 := by
    have hsmall : mapCount s.upte p < 65536 := hx.small p
    have heq : 1 = mapCount s.upte p % 65536 := by
      simpa using congrArg BitVec.toNat (href.symm.trans hcount)
    omega
  obtain ⟨he, hv⟩ := hx.vm.bound e v p hn
  obtain ⟨he₀, hv₀⟩ := hx.vm.bound e₀ v₀ p hn₀
  exact mapCount_unique hone he hv hn he₀ hv₀ hn₀

/-- A program gets a page at `0x1000` that it may not write. -/
def readOnlyRun : List Event := [.create 0 emptyElf, .start 0, .trap 0 (sysTrap 4 0 0x1000 5 0 0)]

/-- **`sys_page_map`** maps it at `0x2000` with `PTE_W`. -/
theorem not_unforged : ∃ s s', Reach step Tame (bootState 1) s ∧
    step s (.trap 0 (sysTrap 5 0 0x1000 0 0x2000 7)) = some s' ∧
    ¬ Unforged s (.trap 0 (sysTrap 5 0 0x1000 0 0x2000 7)) s' := by
  have hrun : ((readOnlyRun.foldlM (fun t e => if tameCheck t e then step t e else none)
      (bootState 1)).bind fun s =>
      (step s (.trap 0 (sysTrap 5 0 0x1000 0 0x2000 7))).map fun s' =>
        ((test (s.upte 0 1) PTE_P, test (s.upte 0 1) PTE_W, s.mem.ref (PGNUM (s.upte 0 1))),
          test (s'.upte 0 2) PTE_P, test (s'.upte 0 2) PTE_W,
          decide (PGNUM (s'.upte 0 2) = PGNUM (s.upte 0 1)))) =
      some ((true, false, 1), true, true, true) := by decide +kernel
  obtain ⟨s, hs, hrun⟩ := Option.bind_eq_some_iff.mp hrun
  obtain ⟨s', hs', hentries⟩ := Option.map_eq_some_iff.mp hrun
  have hreach : Reach step Tame (bootState 1) s := Reach.of_guarded hs fun _ _ => tame_of_check
  have hsound := sound_of_reach (bootState_booted 1) hreach
  refine ⟨s, s', hreach, hs', fun h => ?_⟩
  simp only [Prod.mk.injEq, decide_eq_true_eq] at hentries
  obtain ⟨⟨hP, hW, href⟩, hP', hW', hpage⟩ := hentries
  have hn : Names (s.upte 0 1) (PGNUM (s.upte 0 1)) := ⟨hP, rfl⟩
  rcases h 0 2 _ ⟨⟨hP', hpage⟩, hW'⟩ with ⟨e₀, v₀, hn₀, hw₀⟩ | ⟨hnone, -⟩
  · -- the page is mapped at `0x1000` only
    obtain ⟨rfl, rfl⟩ := hsound.mapped_once hn hn₀ href
    rw [hW] at hw₀
    cases hw₀
  · exact hnone 0 1 hn

end JOS
