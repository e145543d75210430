import JOS.Spaces.Invalidate
import JOS.Spaces.Total
import JOS.Spaces.Checked

/-!
# No stale translations

A system call that replaces or removes a mapping and returns leaves no CPU with the old
translation, whatever the CPUs cache meanwhile, if and only if no other CPU has the
directory loaded, and the call does not map the page once more where it is
(`returnsClean_iff`): `tlb_invalidate` only executes `invlpg` on the CPU it is called on,
and `page_insert` of the same page calls it before the old entry is gone. In a run of
tame events that meet this condition, what a CPU has cached below `UTOP` is what the
directory of its environment holds, so that no user access reaches a page that has been
freed (`noStale_of_reach`).
-/

namespace JOS

open JOS.General

variable {s₀ s s' s₁ s₂ : KState} {t₀ t t' : TlbState} {ev : Event} {k : ℕ → Kind} {m m' : Mem}
  {D : ℕ → Option ℕ}
  {c c' cur d e p v kd : ℕ} {a : SysArgs} {va perm pte r : Word} {op : VmOp} {as bs : List TlbAct}
  {tlb : JOS.Tlb}
  {fs : ℕ → List (ℕ × Word)}

/-! ### Edits -/

/-- A system call replaces or removes what is mapped at `va` of `e`, if anything is:
`sys_page_alloc` when there is a page to map, a mapping of a page, when it is not the one that is
there, or `sys_page_unmap`. -/
def Edits (s : KState) (ev : Event) (e : ℕ) (va : Word) : Prop :=
  (∃ perm, Allocs s ev e va perm) ∧ s.mem.pageFreeList ≠ none ∨
    (∃ e₀ va₀ perm p, Maps s ev e₀ va₀ e va perm ∧ Names (s.upte e₀ (PGNUM va₀)) p ∧
      mkPte p perm ≠ s.upte e (PGNUM va)) ∨
    Unmaps s ev e va

/-- Something is mapped there. -/
def Replaces (s : KState) (ev : Event) (e : ℕ) (va : Word) : Prop :=
  Edits s ev e va ∧ test (s.upte e (PGNUM va)) PTE_P = true

/-- It is the page that the system call maps. -/
def Remaps (s : KState) (ev : Event) (e : ℕ) (va : Word) : Prop :=
  ∃ e₀ va₀ perm p, Maps s ev e₀ va₀ e va perm ∧ Names (s.upte e₀ (PGNUM va₀)) p ∧
    Names (s.upte e (PGNUM va)) p

/-- What the event replaces or removes cannot stay cached. -/
structure Invalidated (s : KState) (ev : Event) : Prop where
  /-- No other CPU has the directory loaded. -/
  others : ∀ e va d c, Replaces s ev e va → s.dirs e = some d → c ≠ ev.cpu → (s.cpus c).cr3 ≠ d
  /-- When the caller's CPU has, the page is not mapped once more where it is. -/
  own : ∀ e va d, Replaces s ev e va → s.dirs e = some d → (s.cpus ev.cpu).cr3 = d →
    ¬ Remaps s ev e va

/-- What the TLBs need of an event. -/
def TlbTame (t : TlbState) : TlbEvent → Prop
  | .kern ev _ => Tame t.kern ev ∧ Invalidated t.kern ev
  | _ => True

/-- What a kernel entry changes it edits, when it loads no program and the address space stays. -/
theorem edits_of_changes {k' : ℕ → Kind} (hx : (s.vmState k).Sound)
    (hdoes : Does (s.vmState k) op (s'.vmState k')) (hask : Asks s ev op)
    (hcreate : ∀ c elf, ev ≠ .create c elf) (hne : s'.upte e v ≠ s.upte e v) :
    (∃ va, v = PGNUM va ∧ Edits s ev e va ∧ op.dirOf = none) ∨ op = .destroy e := by
  rcases hdoes.changes hne with ⟨va, perm, p, rfl, rfl, hp⟩ |
    ⟨e₀, va₀, va, perm, p, rfl, rfl, hn, hw⟩ | ⟨va, rfl, rfl⟩ | rfl
  · rcases hask with hask | ⟨-, c, elf, hev⟩
    · exact .inl ⟨va, rfl, .inl ⟨⟨perm, hask⟩, hx.vm.pool.freeList_ne_none hp⟩, rfl⟩
    · exact absurd hev (hcreate c elf)
  · exact .inl ⟨va, rfl, .inr (.inl ⟨e₀, va₀, perm, p, hask, hn, hw⟩), rfl⟩
  · exact .inl ⟨va, rfl, .inr (.inr hask), rfl⟩
  · exact .inr rfl

/-! ### The calls that replace a mapping -/

/-- The old entry stays until after it has been invalidated. -/
def Window (s : KState) (e d : ℕ) (va : Word) (as : List TlbAct) : Prop :=
  ∃ m m', as = [.store m, .invalidate d va, .store m'] ∧
    upte m.phys s.dirs e (PGNUM va) = s.upte e (PGNUM va)

/-- The old entry is cleared before it is invalidated, and not stored again. -/
def ClearsFirst (s : KState) (e d : ℕ) (va : Word) (as : List TlbAct) : Prop :=
  ∃ bs m cs, as = bs ++ .store m :: .invalidate d va :: cs ∧
    ∀ m', m' = m ∨ .store m' ∈ cs → upte m'.phys s.dirs e (PGNUM va) ≠ s.upte e (PGNUM va)

theorem ClearsFirst.cons {act : TlbAct} (h : ClearsFirst s e d va as) :
    ClearsFirst s e d va (act :: as) := by
  obtain ⟨bs, m, cs, rfl, hne⟩ := h
  exact ⟨act :: bs, m, cs, rfl, hne⟩

/-- `page_insert` of the page that is there leaves the window. -/
theorem Inserts.window (h : Inserts s.dirs kd s.upte e d p va m' as)
    (hn : Names (s.upte e (PGNUM va)) p) : Window s e d va as := by
  cases h with
  | fresh _ hno => exact absurd hn.1 hno
  | same hm _ => exact ⟨_, _, rfl, by rw [hm.entries]⟩
  | other _ hq hne _ => exact absurd (names_unique hq hn) hne

/-- `page_insert` of another page calls `page_remove` first. -/
theorem Inserts.clearsFirst (h : Inserts s.dirs kd s.upte e d p va m' as)
    (hP : test (s.upte e (PGNUM va)) PTE_P = true)
    (hn : ¬ Names (s.upte e (PGNUM va)) p)
    (hm' : upte m'.phys s.dirs e (PGNUM va) ≠ s.upte e (PGNUM va)) : ClearsFirst s e d va as := by
  cases h with
  | fresh _ hno => exact absurd hP hno
  | same _ hp => exact absurd hp hn
  | @other m₁ m₂ q _ _ _ hm₂ =>
    refine ⟨[.store m₁], m₂, [.store m'], rfl, ?_⟩
    rintro m'' (rfl | hmem)
    · rw [hm₂.entries, setAt_self]
      intro hzero
      rw [← hzero] at hP
      exact absurd hP (by decide)
    · rw [List.mem_singleton, TlbAct.store.injEq] at hmem
      exact hmem ▸ hm'

/-- A system call that writes an entry returns. -/
structure CallReturned (s : KState) (ev : Event) (c cur : ℕ) (a : SysArgs)
    (s₁ s₂ : KState) : Prop where
  call : SysCall s ev c cur a s₁
  ret : syscall s₁ c cur a = .ok (0, s₂)

theorem SysCall.mem (hcall : SysCall s ev c cur a s₁) : s₁.mem = s.mem := hcall.spaces.1

/-- The environments that the caller names have page directories. -/
theorem SoundState.envid2env {envid : Word} {checkperm : Bool} (h : SoundState s)
    (hcall : SysCall s ev c cur a s₁)
    (henv : envid2env s₁ cur envid checkperm = some e) : ∃ d, s₁.dirs e = some d := by
  obtain ⟨t, rfl, hcur, -, -, -, rfl⟩ := hcall
  have hfresh : Fresh s (trapEntry s.reset c cur t) := fresh_trapEntry t
  have hlive : LiveOk (trapEntry s.reset c cur t).procs := by
    rw [hfresh.1]
    exact h.live
  refine hlive.envid2env (d := (s.cpus c).cr3) ?_ henv
  rw [(trapEntry_spaces s.reset c cur t).2]
  exact h.loaded c cur hcur

/-- `sys_page_alloc` over a mapping. -/
theorem Allocs.acts (h : Allocs s ev e va perm) (hsound : SoundState s)
    (hlist : s.mem.pageFreeList ≠ none)
    (hP : test (s.upte e (PGNUM va)) PTE_P = true) : ∃ c cur a s₁ s₂ d,
    CallReturned s ev c cur a s₁ s₂ ∧
      s.dirs e = some d ∧ s₂.dirs = s.dirs ∧ s₂.upte e (PGNUM va) ≠ s.upte e (PGNUM va) ∧
      ClearsFirst s e d va (syscallActs s₁ cur a) := by
  obtain ⟨c, cur, a, s₁, hcall, hno, henv, hva, hperm, rfl, rfl⟩ := h
  obtain ⟨k, hx⟩ := hsound.sound
  have hsame := hcall.spaces
  have hx₁ : (s₁.vmState k).Sound := hsame.sound hx
  obtain ⟨⟨r, s₂⟩, hret⟩ : ∃ y, sysPageAlloc s₁ cur a.a1 a.a2 a.a3 = .ok y :=
    sysPageAlloc_ok hx₁ fun e he => hsound.envid2env hcall he
  rcases sysPageAlloc_tlb hx₁ henv hva hperm hret with ⟨-, hno'⟩ |
    ⟨d, p, m₀, as, hd, hfree, rfl, hw, hacts, -, hins⟩
  · rw [hsame.1, hsame.upte] at hno'
    exact absurd ⟨hlist, hP⟩ hno'
  rw [hsame.2, hsame.1, hsame.upte] at hins
  have hno₁ : ¬ Names (s.upte e (PGNUM a.a2)) p := by
    intro hn
    have hdata : k p = .data := hx.vm.tables.data_of_names hn
    rw [hfree] at hdata
    cases hdata
  have hp20 : p < 2 ^ 20 := hx.vm.pool.lt (show k p ≠ .reserved by rw [hfree]; simp)
  have hne : s₂.upte e (PGNUM a.a2) ≠ s.upte e (PGNUM a.a2) := by
    rw [hw.upte, setAt_self]
    intro heq
    exact hno₁ (heq ▸ names_mkPte hp20 (permOk_isFlags hperm))
  refine ⟨c, cur, a, s₁, s₂, d,
    ⟨hcall, by simp only [syscall, hno, hret, liftStop]⟩, by rw [← hsame.2]; exact hd,
    hw.dirs.trans hsame.2, hne, ?_⟩
  simp only [syscallActs, hno, hacts]
  refine (hins.clearsFirst hP hno₁ ?_).cons
  rw [KState.upte, hw.dirs, hsame.2] at hne
  exact hne

/-- A mapping of a page over a mapping. -/
theorem Maps.acts {e₀ : ℕ} {va₀ : Word} (h : Maps s ev e₀ va₀ e va perm) (hsound : SoundState s)
    (hok : Tame s ev)
    (hn : Names (s.upte e₀ (PGNUM va₀)) p) (hP : test (s.upte e (PGNUM va)) PTE_P = true) :
    ∃ c cur a s₁ s₂ d, CallReturned s ev c cur a s₁ s₂ ∧ s.dirs e = some d ∧ s₂.dirs = s.dirs ∧
      s₂.upte = setAt s.upte e (PGNUM va) (mkPte p perm) ∧
      Inserts s.dirs s.mem.kernPgdir s.upte e d p va s₂.mem (syscallActs s₁ cur a) := by
  obtain ⟨k, hx⟩ := hsound.sound
  rcases h with ⟨c, cur, a, s₁, hcall, hno, hargs, rfl, rfl, rfl⟩ |
    ⟨c, a, s₁, hcall, hno, hargs, hsrc, hdst, hpage, rfl, rfl, rfl⟩
  · have hsame := hcall.spaces
    have hx₁ : (s₁.vmState k).Sound := hsame.sound hx
    obtain ⟨⟨r, s₂⟩, hret⟩ := sysPageMap_ok hx₁ (fun e envid he => hsound.envid2env hcall he)
        fun e₁ e₂ d hargs' hd => by
      refine ⟨?_, hcall.lookup_pageMap hok.lookup hno hargs' hd⟩
      rw [hargs] at hargs'
      cases hargs'
      rw [hsame.1]
      rw [hsame.2] at hd
      exact pde_of_names hd (vaOk_lt (pageMapArgs_ok hargs).1) hn
    rcases sysPageMap_tlb hx₁ hargs (fun _ => hcall.lookup_pageMap hok.lookup hno hargs) hret with
      ⟨-, hno'⟩ | ⟨d, p', hd, hn', rfl, hw, hins⟩
    · rw [hsame.upte] at hno'
      exact absurd hP hno'
    rw [hsame.upte] at hn'
    cases names_unique hn hn'
    rw [hsame.2, hsame.1, hsame.upte] at hins
    refine ⟨c, cur, a, s₁, s₂, d,
      ⟨hcall, by simp only [syscall, hno, hret, liftStop]⟩, by rw [← hsame.2]; exact hd,
      hw.dirs.trans hsame.2, by rw [hw.upte, hsame.upte], ?_⟩
    simp only [syscallActs, hno]
    exact hins
  · have hsame := hcall.spaces
    have hx₁ : (s₁.vmState k).Sound := hsame.sound hx
    have hlook : ∀ e', ipcSendArgs s₁ e₀ a.a1 = .ok e' → ∀ d, s₁.dirs e₀ = some d →
        ¬ EmptyEntry s₁.mem d a.a3 := fun _ hargs _ =>
      hcall.lookup_ipcTrySend hok.lookup hno hargs hsrc
    have hself : envid2env s₁ e₀ 0 true = some e₀ := if_pos rfl
    obtain ⟨hlive₁, d₀, hd₀⟩ : LiveOk s₁.procs ∧ ∃ d, s₁.dirs e₀ = some d := by
      refine ⟨?_, hsound.envid2env hcall hself⟩
      obtain ⟨t, -, -, -, -, -, rfl⟩ := hcall
      rw [(fresh_trapEntry t : Fresh s (trapEntry s.reset c e₀ t)).1]
      exact hsound.live
    obtain ⟨⟨r, s₂⟩, hret⟩ : ∃ y, sysIpcTrySend s₁ e₀ a.a1 a.a2 a.a3 a.a4 = .ok y :=
      sysIpcTrySend_ok hx₁ hlive₁ hd₀ fun e' hargs _ => hlook e' hargs d₀ hd₀
    rcases sysIpcTrySend_tlb hx₁ hargs hsrc (hlook e hargs) hret with ⟨-, hno'⟩ |
      ⟨d, p', hd, hn', rfl, hw, -, -, hins⟩
    · rw [hsame.upte] at hno'
      exact absurd ⟨hdst, hpage, hn.1, hP⟩ hno'
    rw [hsame.upte] at hn'
    cases names_unique hn hn'
    rw [hsame.2, hsame.1, hsame.upte] at hins
    refine ⟨c, e₀, a, s₁, s₂, d,
      ⟨hcall, by simp only [syscall, hno, hret, liftStop]⟩, by rw [← hsame.2]; exact hd,
      hw.dirs.trans hsame.2, by rw [hw.upte, hsame.upte], ?_⟩
    simp only [syscallActs, hno]
    exact hins

/-- `sys_page_unmap` of a mapping. -/
theorem Unmaps.acts (h : Unmaps s ev e va) (hsound : SoundState s) (hok : Tame s ev)
    (hP : test (s.upte e (PGNUM va)) PTE_P = true) : ∃ c cur a s₁ s₂ d,
    CallReturned s ev c cur a s₁ s₂ ∧
      s.dirs e = some d ∧ s₂.dirs = s.dirs ∧ s₂.upte e (PGNUM va) ≠ s.upte e (PGNUM va) ∧
      ClearsFirst s e d va (syscallActs s₁ cur a) := by
  have hunmaps := h
  obtain ⟨c, cur, a, s₁, hcall, hno, henv, hva, rfl⟩ := h
  obtain ⟨k, hx⟩ := hsound.sound
  have hsame := hcall.spaces
  have hx₁ : (s₁.vmState k).Sound := hsame.sound hx
  have hlook : ∀ e d, envid2env s₁ cur a.a1 true = some e → vaOk a.a2 = true → s₁.dirs e = some d →
      ¬ EmptyEntry s₁.mem d a.a2 := fun _ _ => hcall.lookup_pageUnmap hok.lookup hno
  obtain ⟨⟨r, s₂⟩, hret⟩ := sysPageUnmap_ok hx₁ (fun e he => hsound.envid2env hcall he) hlook
  rcases sysPageUnmap_tlb hx₁ henv hva (fun d hd => hlook e d henv hva hd) hret with ⟨-, hno'⟩ |
    ⟨d, hd, rfl, hdirs, hm, hacts⟩
  · rw [hsame.upte] at hno'
    exact absurd hP hno'
  rw [hsame.2, hsame.upte] at hm
  have hne : upte s₂.mem.phys s.dirs e (PGNUM a.a2) ≠ s.upte e (PGNUM a.a2) := by
    rw [hm.entries, setAt_self]
    intro hzero
    rw [← hzero] at hP
    exact absurd hP (by decide)
  refine ⟨c, cur, a, s₁, s₂, d,
    ⟨hcall, by simp only [syscall, hno, hret, liftStop]⟩, by rw [← hsame.2]; exact hd,
    hdirs.trans hsame.2, by rw [KState.upte, hdirs, hsame.2]; exact hne, [], s₂.mem, [], ?_, ?_⟩
  · simp only [syscallActs, hno, hacts, List.nil_append]
  · rintro m' (rfl | hmem)
    · exact hne
    · exact absurd hmem List.not_mem_nil

/-- **A system call that replaces a mapping** returns, with another entry; it clears the old one
before it invalidates it, unless it maps the page once more where it is. -/
theorem Replaces.acts (h : Replaces s ev e va) (hsound : SoundState s) (hok : Tame s ev) :
    ∃ c cur a s₁ s₂ d, CallReturned s ev c cur a s₁ s₂ ∧ s.dirs e = some d ∧ s₂.dirs = s.dirs ∧
      s₂.upte e (PGNUM va) ≠ s.upte e (PGNUM va) ∧
      (Remaps s ev e va ∨ ClearsFirst s e d va (syscallActs s₁ cur a)) := by
  obtain ⟨⟨⟨perm, hallocs⟩, hlist⟩ | ⟨e₀, va₀, perm, p, hmaps, hn, hne⟩ | hunmaps, hP⟩ := h
  · obtain ⟨c, cur, a, s₁, s₂, d, hret, hd, hdirs, hne, hacts⟩ := hallocs.acts hsound hlist hP
    exact ⟨c, cur, a, s₁, s₂, d, hret, hd, hdirs, hne, .inr hacts⟩
  · obtain ⟨c, cur, a, s₁, s₂, d, hret, hd, hdirs, hupte, hins⟩ := hmaps.acts hsound hok hn hP
    have hne' : s₂.upte e (PGNUM va) ≠ s.upte e (PGNUM va) := by
      rw [hupte, setAt_self]
      exact hne
    refine ⟨c, cur, a, s₁, s₂, d, hret, hd, hdirs, hne', ?_⟩
    by_cases hsame : Names (s.upte e (PGNUM va)) p
    · exact .inl ⟨e₀, va₀, perm, p, hmaps, hn, hsame⟩
    · rw [KState.upte, hdirs] at hne'
      exact .inr (hins.clearsFirst hP hsame hne')
  · obtain ⟨c, cur, a, s₁, s₂, d, hret, hd, hdirs, hne, hacts⟩ := hunmaps.acts hsound hok hP
    exact ⟨c, cur, a, s₁, s₂, d, hret, hd, hdirs, hne, .inr hacts⟩

/-! ### When a call returns -/

/-- What the call has replaced or removed is cached by no CPU that has the directory loaded. -/
def Clean (s₁ s₂ : KState) (tlb : Tlb) : Prop :=
  ∀ e v d c, test (s₁.upte e v) PTE_P = true → s₂.upte e v ≠ s₁.upte e v → s₂.dirs e = some d →
    (s₂.cpus c).cr3 = d →
    (v, s₁.upte e v) ∉ tlb c

/-- No call that would return now leaves a stale translation, whatever the CPUs cache in the course
of it. -/
def ReturnsClean (t : TlbState) (ev : Event) : Prop :=
  ∀ fs c cur a s₁ r s₂, SysCall t.kern ev c cur a s₁ → syscall s₁ c cur a = .ok (r, s₂) →
    Clean s₁ s₂ (syscallTlb s₁ c cur a fs t.tlb)

theorem SysCall.cpu (hcall : SysCall s ev c cur a s₁) : ev.cpu = c ∧ s.curenv c = some cur ∧
    s₁.curenv c = some cur ∧
    ∀ c', (s₁.cpus c').cr3 = (s.cpus c').cr3 := by
  obtain ⟨t, rfl, hcur, -, -, -, rfl⟩ := hcall
  refine ⟨rfl, hcur, trapEntry_curenv (s := s.reset) hcur t, fun c' => ?_⟩
  by_cases hc : c' = c <;> simp [trapEntry, KState.setEnv, KState.setCpu, KState.reset, hc]

/-- The directory that a CPU has loaded shows the entries of its environment. -/
theorem finds_iff (hd : s.dirs e = some d) (hcr3 : (s₁.cpus c).cr3 = d) (hv : v < NUPAGES) :
    Finds s₁ m c v pte ↔ upte m.phys s.dirs e v = pte ∧ test pte PTE_P = true := by
  rw [Finds, hcr3, ← upte_of_dir hd hv]

theorem translate_of_upte (hd : s.dirs e = some d) (hcr3 : (s₁.cpus c).cr3 = d) (hva : va < UTOP)
    (hm : upte m.phys s.dirs e (PGNUM va) = pte) (hP : test pte PTE_P = true) :
    translate m (s₁.cpus c).cr3 va = some pte := by
  rw [translate_eq_dirPte, hcr3, ← upte_of_dir hd ((PGNUM_lt_iff va).mpr hva), hm, if_pos hP]

theorem Edits.lt_UTOP (h : Edits s ev e va) : va < UTOP := by
  rcases h with ⟨⟨perm, c, cur, a, s₁, -, -, -, hva, -, rfl, -⟩, -⟩ | ⟨e₀, va₀, perm, p, hmaps, -⟩ |
    ⟨c, cur, a, s₁, -, -, -, hva, rfl⟩
  · exact vaOk_lt hva
  · rcases hmaps with ⟨c, cur, a, s₁, -, -, hargs, -, rfl, -⟩ |
      ⟨c, a, s₁, -, -, -, -, hdst, -, -, rfl, -⟩
    · exact vaOk_lt (pageMapArgs_ok hargs).2.1
    · exact hdst
  · exact vaOk_lt hva

/-- **No stale translation is left when a call returns**, when what it edits cannot stay cached. -/
theorem returnsClean_of_invalidated (hsound : SoundState t.kern) (hok : Tame t.kern ev)
    (hinv : Invalidated t.kern ev) :
    ReturnsClean t ev := by
  intro fs c cur a s₁ r s₂ hcall hret e v d c' hP hne hd hcr3 hmem
  obtain ⟨k, hx⟩ := hsound.sound
  have hsame := hcall.spaces
  obtain ⟨hcpu, hcur, hcur₁, hcpus⟩ := hcall.cpu
  have hreturns := syscall_returns hcur₁ hret
  obtain ⟨op, k', hdoes, hask⟩ := hreturns.does hx hsound.freeHead hok hcall
  rw [hreturns.cpus, hcpus] at hcr3
  rw [hsame.upte] at hP hne hmem
  have hcreate : ∀ c elf, ev ≠ .create c elf := by
    obtain ⟨tr, rfl, -⟩ := hcall
    simp
  rcases edits_of_changes hx hdoes hask hcreate hne with ⟨va, rfl, hedits, hdir⟩ | rfl
  · have hd : t.kern.dirs e = some d := by
      rw [← hd]
      exact (hdoes.dirs_of_ne (by rw [hdir]; simp)).symm
    by_cases hc : c' = c
    · -- the caller's own CPU
      subst hc
      have he : e = cur := by
        have hk : k d = .dir e := (hx.vm.tables.dir e d).mp hd
        have hk' : k d = .dir cur :=
          (hx.vm.tables.dir cur d).mp (by rw [← hcr3]; exact hsound.loaded c' cur hcur)
        rw [hk] at hk'
        cases hk'
        rfl
      subst he
      obtain ⟨c₁, cur₁, a₁, s₁', s₂', d₁, hret', hd₁, -, -, hacts⟩ :=
        Replaces.acts ⟨hedits, hP⟩ hsound hok
      obtain ⟨rfl, rfl, rfl, rfl⟩ := hcall.unique hret'.call
      rw [hd] at hd₁
      cases hd₁
      have hcr3₁ : (s₁.cpus c').cr3 = d := by rw [hcpus, hcr3]
      rcases hacts with hremaps | ⟨bs, m, cs, hacts, hclear⟩
      · exact hinv.own e va d ⟨hedits, hP⟩ hd (by rw [hcpu]; exact hcr3) hremaps
      rw [syscallTlb, hacts] at hmem
      have hno : ∀ m', m' = m ∨ .store m' ∈ cs →
          ¬ Finds s₁ m' c' (PGNUM va) (t.kern.upte e (PGNUM va)) := fun m' hm' hfinds =>
        hclear m' hm' ((finds_iff hd hcr3₁ ((PGNUM_lt_iff va).mpr hedits.lt_UTOP)).mp hfinds).1
      have hd₁ : s₁.dirs e = some d := by rw [hsame.2, hd]
      exact actsTlb_clean hcur₁ hd₁ (hno m (.inl rfl)) (fun m' hm' => hno m' (.inr hm')) hmem
    · exact hinv.others e va d c' ⟨hedits, hP⟩ hd (by rw [hcpu]; exact hc) hcr3
  · generalize hs₂ : s₂.vmState k' = x' at hdoes
    cases hdoes with
    | destroy =>
      have hnone : s₂.dirs e = none :=
        (congrFun (congrArg VmState.dirs hs₂) e).trans (Function.update_self _ _ _)
      rw [hnone] at hd
      cases hd

/-- **Otherwise a stale translation can be left**: another CPU caches the old one before, and the
caller's own in the window. -/
theorem invalidated_of_returnsClean (hsound : SoundState t.kern) (hok : Tame t.kern ev)
    (h : ReturnsClean t ev) :
    Invalidated t.kern ev := by
  have hstale : ∀ fs {c cur a s₁ s₂ e va d c'}, CallReturned t.kern ev c cur a s₁ s₂ →
      t.kern.dirs e = some d → s₂.dirs = t.kern.dirs →
      s₂.upte e (PGNUM va) ≠ t.kern.upte e (PGNUM va) →
      test (t.kern.upte e (PGNUM va)) PTE_P = true → (t.kern.cpus c').cr3 = d →
      (PGNUM va, t.kern.upte e (PGNUM va)) ∉ actsTlb s₁ c s₁.mem
        (syscallActs s₁ cur a) fs t.tlb c' := by
    intro fs c cur a s₁ s₂ e va d c' hret hd hdirs hne hP hcr3
    obtain ⟨-, -, hcur₁, hcpus⟩ := hret.call.cpu
    have hsame := hret.call.spaces
    have hclean := h fs c cur a s₁ 0 s₂ hret.call hret.ret e (PGNUM va) d c'
    rw [hsame.upte, hdirs, (syscall_returns hcur₁ hret.ret).cpus, hcpus] at hclean
    exact hclean hP hne hd hcr3
  constructor
  · intro e va d c' hreplaces hd hc hcr3
    obtain ⟨c, cur, a, s₁, s₂, d₁, hret, hd₁, hdirs, hne, -⟩ := hreplaces.acts hsound hok
    obtain ⟨hcpu, -, -, hcpus⟩ := hret.call.cpu
    have hcr3₁ : (s₁.cpus c').cr3 = d := by rw [hcpus, hcr3]
    refine hstale (fun i => if i = 0 then [(c', va)] else []) hret hd hdirs hne hreplaces.2 hcr3
      (actsTlb_keeps (hcpu ▸ hc) (.inr ⟨va, List.mem_singleton.mpr rfl, rfl, ?_⟩))
    refine translate_of_upte hd hcr3₁ hreplaces.1.lt_UTOP ?_ hreplaces.2
    rw [hret.call.mem]
    rfl
  · rintro e va d hreplaces hd hcr3 ⟨e₀, va₀, perm, p, hmaps, hn, hsame⟩
    obtain ⟨c, cur, a, s₁, s₂, d₁, hret, hd₁, hdirs, hne, -⟩ := hreplaces.acts hsound hok
    obtain ⟨c', cur', a', s₁', s₂', d', hret', hd', -, -, hins⟩ :=
      hmaps.acts hsound hok hn hreplaces.2
    obtain ⟨rfl, rfl, rfl, rfl⟩ := hret.call.unique hret'.call
    obtain ⟨hcpu, -, -, hcpus⟩ := hret.call.cpu
    rw [hd] at hd'
    cases hd'
    rw [hcpu] at hcr3
    have hnot := hstale (fun i => if i = 2 then [(c, va)] else []) hret hd hdirs hne
      hreplaces.2 hcr3
    obtain ⟨m, m', hacts, hm⟩ := hins.window hsame
    rw [hacts] at hnot
    have hcr3₁ : (s₁.cpus c).cr3 = d := by rw [hcpus, hcr3]
    exact hnot (actsTlb_window (translate_of_upte hd hcr3₁ hreplaces.1.lt_UTOP hm hreplaces.2)
      (List.mem_singleton.mpr rfl))

/-- **When calls return clean**, exactly. -/
theorem returnsClean_iff (hsound : SoundState t.kern) (hok : Tame t.kern ev) : ReturnsClean t ev ↔
    Invalidated t.kern ev :=
  ⟨invalidated_of_returnsClean hsound hok, returnsClean_of_invalidated hsound hok⟩

/-! ### What a step does to other CPUs -/

/-- A step on another CPU changes a mapping of an environment that runs by an edit only. -/
theorem upte_elsewhere (hsound : SoundState s) (hok : Tame s ev) (hs : step s ev = some s')
    (hcur : s.curenv c = some e)
    (hc : c ≠ ev.cpu) (hne : s'.upte e v ≠ s.upte e v) : ∃ va, v = PGNUM va ∧ Edits s ev e va := by
  obtain ⟨k, hx⟩ := hsound.sound
  have hd : s.dirs e = some (s.cpus c).cr3 := hsound.loaded c e hcur
  by_cases hcreate : ∃ c elf, ev = .create c elf
  · -- a program is loaded into an environment that does not run
    exfalso
    obtain ⟨c', elf, rfl⟩ := hcreate
    obtain ⟨k', hwork⟩ := step_works hx hsound.loaded hsound.freeHead hok hs
    have hno : ∀ {c cur a s₁}, ¬ SysCall s (.create c' elf) c cur a s₁ := by
      rintro c cur a s₁ ⟨t, hev, -⟩
      cases hev
    refine hne (hwork.invariant (I := fun x => x.upte e v = s.upte e v) rfl
      fun x op x' hxv hask hdoes => ?_)
    by_contra hne'
    have hchanged : x'.upte e v ≠ x.upte e v := fun heq => hne' (heq.trans hxv)
    rcases hdoes.changes hchanged with ⟨va, perm, p, rfl, -⟩ | ⟨e₀, va₀, va, perm, p, rfl, -⟩ |
      ⟨va, rfl, -⟩ | rfl
    · rcases hask with ⟨c, cur, a, s₁, hcall, -⟩ | ⟨hhead, -⟩
      · exact hno hcall
      · rw [(hsound.freeHead e hhead).2] at hd
        cases hd
    · rcases hask with ⟨c, cur, a, s₁, hcall, -⟩ | ⟨c, a, s₁, hcall, -⟩
      · exact hno hcall
      · exact hno hcall
    · obtain ⟨c, cur, a, s₁, hcall, -⟩ := hask
      exact hno hcall
    · rcases hask with hcur' | ⟨⟨cur, a, s₁, hcall, -⟩, -⟩
      · exact hc (hsound.alone.inj _ _ _ hcur hcur')
      · exact hno hcall
  · have hcreate : ∀ c elf, ev ≠ .create c elf := fun c elf h => hcreate ⟨c, elf, h⟩
    obtain ⟨op, k', hdoes, hask⟩ := step_does hx hsound.loaded hsound.freeHead hok hcreate hs
    rcases edits_of_changes hx hdoes hask hcreate hne with ⟨va, rfl, hedits, -⟩ | rfl
    · exact ⟨va, rfl, hedits⟩
    · -- its address space stays
      have hkeep := (Works.single hdoes hask).dirs_elsewhere hok hsound.alone hcur hc hd
      generalize s'.vmState k' = x' at hdoes hkeep
      cases hdoes with
      | destroy =>
        cases hkeep.symm.trans (Function.update_self _ _ _)

/-- A CPU that runs no environment has the kernel's directory loaded. -/
def IdleKernel (s : KState) : Prop := ∀ c, s.curenv c = none → (s.cpus c).cr3 = s.mem.kernPgdir

theorem IdleKernel.step (h : IdleKernel s) (hsound : SoundState s) (hok : Tame s ev)
    (hs : step s ev = some s') : IdleKernel s' := by
  obtain ⟨k, hx⟩ := hsound.sound
  obtain ⟨honly, hlands⟩ := step_lands hs
  obtain ⟨k', hwork⟩ := step_works hx hsound.loaded hsound.freeHead hok hs
  have hkern : s'.mem.kernPgdir = s.mem.kernPgdir := hwork.base.kernPgdir
  have hsame : ∀ c, s'.cpus c = s.cpus c → s'.curenv c = none →
      (s'.cpus c).cr3 = s'.mem.kernPgdir := by
    intro c hcpu hnone
    rw [KState.curenv, hcpu] at hnone
    rw [hcpu, hkern, h c hnone]
  intro c hnone
  by_cases hc : c = ev.cpu
  · subst hc
    cases ev with
    | start c => exact (hlands c rfl).halted hnone
    | trap c t => exact (hlands c rfl).halted hnone
    | create c elf =>
      simp only [JOS.step] at hs
      cases hcreate : envCreate s.reset c elf with
      | error w =>
        rw [hcreate] at hs
        cases hs
      | ok s₁ =>
        rw [hcreate] at hs
        cases hs
        have hall : (∃ k', Works (fun _ => True) (s.reset.vmState k) (s'.vmState k')) ∧
          (s'.cpus c).cr3 = s'.mem.kernPgdir :=
          envCreate_works hx hsound.freeHead (hok.image c elf rfl).1
            (fun e he => ⟨trivial, fun va _ => trivial⟩) trivial hcreate
        exact hall.2
    | store c va b =>
      refine hsame c ?_ hnone
      simp only [JOS.step, userStore] at hs
      split_ifs at hs
      split at hs
      · split_ifs at hs
        cases hs
        rfl
      · cases hs
  · exact hsame c (honly c hc) hnone

/-! ### What other CPUs find meanwhile -/

theorem Wrote.midway (hw : Wrote s e p va perm s₂)
    (hins : Inserts s.dirs s.mem.kernPgdir s.upte e d p va s₂.mem as) (hm : .store m ∈ as) :
    Midway s.dirs s.mem.kernPgdir s.upte s₂.upte m :=
  hins.midway (hw.upte ▸ hw.shows) hm

theorem not_store_mem_nil : .store m ∉ ([] : List TlbAct) := List.not_mem_nil

theorem sysPageAllocActs_midway {envid : Word} (hx : (s.vmState k).Sound)
    (hret : sysPageAlloc s cur envid va perm = .ok (r, s₂))
    (hm : .store m ∈ sysPageAllocActs s cur envid va perm) :
    Midway s.dirs s.mem.kernPgdir s.upte s₂.upte m := by
  cases henv : envid2env s cur envid true with
  | none =>
    simp only [sysPageAllocActs, henv] at hm
    exact absurd hm not_store_mem_nil
  | some e =>
    by_cases hva : vaOk va = true
    · by_cases hperm : permOk perm = true
      · rcases sysPageAlloc_tlb hx henv hva hperm hret with ⟨hshows, -⟩ |
          ⟨d, p, m₀, as, -, -, -, hw, hacts, hm₀, hins⟩
        · exact (hshows m hm).midway_old
        · rw [hacts] at hm
          rcases List.mem_cons.mp hm with heq | hm
          · cases heq
            exact hm₀.midway_old
          · exact hw.midway hins hm
      · simp only [sysPageAllocActs, henv, hva, hperm, Bool.not_true, Bool.not_false,
          Bool.false_eq_true, if_false, if_true] at hm
        exact absurd hm not_store_mem_nil
    · simp only [sysPageAllocActs, henv, hva, Bool.not_false, if_true] at hm
      exact absurd hm not_store_mem_nil

theorem sysPageMapActs_midway {srcenvid srcva dstenvid dstva : Word} (hx : (s.vmState k).Sound)
    (hlook : ∀ e₁ e₂ d, pageMapArgs s cur srcenvid srcva dstenvid dstva perm = .ok (e₁, e₂) →
      s.dirs e₁ = some d → ¬ EmptyEntry s.mem d srcva)
    (hret : sysPageMap s cur srcenvid srcva dstenvid dstva perm = .ok (r, s₂))
    (hm : .store m ∈ sysPageMapActs s cur srcenvid srcva dstenvid dstva perm) :
    Midway s.dirs s.mem.kernPgdir s.upte s₂.upte m := by
  cases hargs : pageMapArgs s cur srcenvid srcva dstenvid dstva perm with
  | error w =>
    simp only [sysPageMapActs, hargs] at hm
    exact absurd hm not_store_mem_nil
  | ok es =>
    obtain ⟨e₁, e₂⟩ := es
    rcases sysPageMap_tlb hx hargs (fun d hd => hlook e₁ e₂ d hargs hd) hret with ⟨hacts, -⟩ |
      ⟨d, p, -, -, -, hw, hins⟩
    · rw [hacts] at hm
      exact absurd hm not_store_mem_nil
    · exact hw.midway hins hm

theorem sysPageUnmapActs_midway {envid : Word} (hx : (s.vmState k).Sound)
    (hlook : ∀ e d, envid2env s cur envid true = some e → vaOk va = true → s.dirs e = some d →
      ¬ EmptyEntry s.mem d va)
    (hret : sysPageUnmap s cur envid va = .ok (r, s₂))
    (hm : .store m ∈ sysPageUnmapActs s cur envid va) :
    Midway s.dirs s.mem.kernPgdir s.upte s₂.upte m := by
  cases henv : envid2env s cur envid true with
  | none =>
    simp only [sysPageUnmapActs, henv] at hm
    exact absurd hm not_store_mem_nil
  | some e =>
    by_cases hva : vaOk va = true
    · rcases sysPageUnmap_tlb hx henv hva (fun d hd => hlook e d henv hva hd) hret with
        ⟨hacts, -⟩ | ⟨d, -, -, hdirs, hshows, hacts⟩
      · rw [hacts] at hm
        exact absurd hm not_store_mem_nil
      · rw [hacts] at hm
        simp only [List.mem_cons, TlbAct.store.injEq, reduceCtorEq, List.not_mem_nil,
          or_false] at hm
        subst hm
        exact hshows.midway_clear
    · simp only [sysPageUnmapActs, henv, hva, Bool.not_false, if_true] at hm
      exact absurd hm not_store_mem_nil

theorem sysIpcTrySendActs_midway {envid value srcva : Word} (hx : (s.vmState k).Sound)
    (hlook : ∀ e d, ipcSendArgs s cur envid = .ok e → srcva < UTOP → s.dirs cur = some d →
      ¬ EmptyEntry s.mem d srcva)
    (hret : sysIpcTrySend s cur envid value srcva perm = .ok (r, s₂))
    (hm : .store m ∈ sysIpcTrySendActs s cur envid srcva perm) :
    Midway s.dirs s.mem.kernPgdir s.upte s₂.upte m := by
  cases hargs : ipcSendArgs s cur envid with
  | error w =>
    simp only [sysIpcTrySendActs, hargs] at hm
    exact absurd hm not_store_mem_nil
  | ok e =>
    by_cases hva : srcva < UTOP
    · rcases sysIpcTrySend_tlb hx hargs hva (fun d hd => hlook e d hargs hva hd) hret with
        ⟨hacts, -⟩ | ⟨d, p, -, -, -, hw, -, -, hins⟩
      · rw [hacts] at hm
        exact absurd hm not_store_mem_nil
      · exact hw.midway hins hm
    · simp only [sysIpcTrySendActs, hargs, if_neg hva] at hm
      exact absurd hm not_store_mem_nil

/-- **On the way to the result of a system call** page tables hold old entries, new ones and
zeros. -/
theorem syscallActs_midway (hsound : SoundState s) (hok : Tame s ev)
    (hcall : SysCall s ev c cur a s₁)
    (hret : syscall s₁ c cur a = .ok (r, s₂)) (hm : .store m ∈ syscallActs s₁ cur a) :
    Midway s.dirs s.mem.kernPgdir s.upte s₂.upte m := by
  obtain ⟨k, hx⟩ := hsound.sound
  have hsame := hcall.spaces
  have hx₁ : (s₁.vmState k).Sound := hsame.sound hx
  rw [← hsame.2, ← hsame.1, ← hsame.upte]
  unfold syscallActs at hm
  split at hm
  · rename_i hno
    simp only [syscall, hno] at hret
    exact sysPageAllocActs_midway hx₁ (liftStop_eq_ok.mp hret) hm
  · rename_i hno
    simp only [syscall, hno] at hret
    exact sysPageMapActs_midway hx₁ (fun _ _ _ => hcall.lookup_pageMap hok.lookup hno)
      (liftStop_eq_ok.mp hret) hm
  · rename_i hno
    simp only [syscall, hno] at hret
    exact sysPageUnmapActs_midway hx₁ (fun _ _ => hcall.lookup_pageUnmap hok.lookup hno)
      (liftStop_eq_ok.mp hret) hm
  · rename_i hno
    simp only [syscall, hno] at hret
    exact sysIpcTrySendActs_midway hx₁ (fun _ _ => hcall.lookup_ipcTrySend hok.lookup hno)
      (liftStop_eq_ok.mp hret) hm
  · exact absurd hm not_store_mem_nil

/-- A system call that does not return stores nothing that TLBs notice. -/
theorem syscallActs_of_gone (h : syscall s₁ c cur a = .error (.gone s')) :
    syscallActs s₁ cur a = [] := by
  rcases syscall_gone_cases h with ⟨hno, -⟩ | ⟨hno, -⟩ | ⟨e, hno, -⟩ |
    ⟨hno, -⟩ <;> simp only [syscallActs, hno]

/-- A step that is a system call. -/
theorem step_sysCall (hcall : SysCall s ev c cur a s₁) (hs : step s ev = some s') :
    syscall s₁ c cur a = .error (.gone s') ∨ ∃ r s₂, syscall s₁ c cur a = .ok (r, s₂) ∧
        SameSpaces s₂ s' := by
  obtain ⟨t, rfl, -⟩ := id hcall
  simp only [step] at hs
  split_ifs at hs with hfits
  have htrap : trap s.reset c t = .gone s' := state?_eq_some.mp hs
  rw [trap_sysCall (s := s) hfits hcall] at htrap
  cases hsys : syscall s₁ c cur a with
  | error l =>
    simp only [hsys] at htrap
    exact .inl (by rw [htrap])
  | ok y =>
    obtain ⟨r, s₂⟩ := y
    simp only [hsys] at htrap
    exact .inr ⟨r, s₂, rfl, (sameSpaces_returned _ _ _).trans (trapReturn_spaces htrap)⟩

/-! ### In every state of a run -/

/-- What the CPUs have cached below `UTOP` is what is mapped. -/
structure Coherent (t : TlbState) : Prop where
  sound : SoundState t.kern
  idle : IdleKernel t.kern
  cached : ∀ c v pte, (v, pte) ∈ t.tlb c → v < NUPAGES →
    ∃ e, t.kern.curenv c = some e ∧ t.kern.upte e v = pte ∧ test pte PTE_P = true

/-- What a CPU finds below `UTOP` on the way to the entries `u'` is an old entry of its environment,
or a new one. -/
theorem Coherent.found {u' : ℕ → ℕ → Word} (h : Coherent t)
    (hm : Midway t.kern.dirs t.kern.mem.kernPgdir t.kern.upte u' m)
    (hv : v < NUPAGES) (hpte : dirPte m.phys (t.kern.cpus c).cr3 v = pte)
    (hP : test pte PTE_P = true) :
    ∃ e, t.kern.curenv c = some e ∧ (t.kern.upte e v = pte ∨ u' e v = pte) := by
  subst hpte
  obtain ⟨k, hvm⟩ := hm.vm
  cases hcur : t.kern.curenv c with
  | none =>
    -- the kernel's directory maps nothing there
    rw [h.idle c hcur, ← hm.kern, dirPte_of_absent] at hP
    · exact absurd hP (by decide)
    · intro hpde
      rw [hvm.tables.kernUser _ (div_lt_NUPDX hv)] at hpde
      exact not_names_zero 0 ⟨hpde, by decide⟩
  | some e =>
    have hentry : upte m.phys t.kern.dirs e v = dirPte m.phys (t.kern.cpus c).cr3 v :=
      upte_of_dir (h.sound.loaded c e hcur) hv
    rw [← hentry] at hP ⊢
    refine ⟨e, rfl, ?_⟩
    rcases hm.entries e v with heq | heq | heq
    · exact .inl heq.symm
    · exact .inr heq.symm
    · rw [heq] at hP
      exact absurd hP (by decide)

/-- What a CPU finds between kernel entries is what its environment has mapped. -/
theorem Coherent.finds (h : Coherent t) (hv : v < NUPAGES)
    (hpte : dirPte t.kern.mem.phys (t.kern.cpus c).cr3 v = pte)
    (hP : test pte PTE_P = true) : ∃ e, t.kern.curenv c = some e ∧ t.kern.upte e v = pte := by
  obtain ⟨k, hx⟩ := h.sound.sound
  have hshows : ShowsEntries t.kern.dirs t.kern.mem.kernPgdir t.kern.upte t.kern.mem := hx.vm.shows
  have hmidway : Midway t.kern.dirs t.kern.mem.kernPgdir t.kern.upte t.kern.upte t.kern.mem :=
    hshows.midway_old
  obtain ⟨e, he, hentry⟩ := h.found hmidway hv hpte hP
  exact ⟨e, he, hentry.elim id id⟩

/-- What a CPU other than the caller's has cached in the course of a kernel entry is an old entry or
a new one. -/
theorem Coherent.kernTlb {s' : KState} (h : Coherent t) (hok : Tame t.kern ev)
    (hs : JOS.step t.kern ev = some s') (hv : v < NUPAGES)
    (hmem : (v, pte) ∈ kernTlb t.kern fs t.tlb ev c) :
    ∃ e, t.kern.curenv c = some e ∧ test pte PTE_P = true ∧
        (t.kern.upte e v = pte ∨ s'.upte e v = pte) := by
  have hcached : (v, pte) ∈ t.tlb c → ∃ e, t.kern.curenv c = some e ∧ test pte PTE_P = true ∧
      (t.kern.upte e v = pte ∨ s'.upte e v = pte) := fun hmem => by
    obtain ⟨e, he, hupte, hP⟩ := h.cached c v pte hmem hv
    exact ⟨e, he, hP, .inl hupte⟩
  cases ev with
  | trap c₀ tr =>
    simp only [JOS.kernTlb] at hmem
    cases hcur : t.kern.curenv c₀ with
    | none =>
      simp only [hcur] at hmem
      exact hcached hmem
    | some cur =>
      simp only [hcur] at hmem
      split_ifs at hmem with hcall
      · have hcall : SysCall t.kern (.trap c₀ tr) c₀ cur tr.args
          (trapEntry t.kern.reset c₀ cur tr) :=
          ⟨tr, rfl, hcur, hcall.1, hcall.2, rfl, rfl⟩
        obtain ⟨-, -, -, hcpus⟩ := hcall.cpu
        rcases actsTlb_subset hmem with hmem | hfinds | ⟨m, hstore, hfinds⟩
        · exact hcached hmem
        · rw [Finds, hcpus, hcall.mem] at hfinds
          obtain ⟨e, he, hupte⟩ := h.finds hv hfinds.1 hfinds.2
          exact ⟨e, he, hfinds.2, .inl hupte⟩
        · rcases step_sysCall hcall hs with hgone | ⟨r, s₂, hret, hsame⟩
          · rw [syscallActs_of_gone hgone] at hstore
            exact absurd hstore List.not_mem_nil
          · have hmidway := syscallActs_midway h.sound hok hcall hret hstore
            rw [Finds, hcpus] at hfinds
            obtain ⟨e, he, hentry⟩ := h.found hmidway hv hfinds.1 hfinds.2
            rw [← hsame.upte] at hentry
            exact ⟨e, he, hfinds.2, hentry⟩
      · exact hcached hmem
  | _ => exact hcached hmem

theorem tlbStep_kern (h : tlbStep t (.kern ev fs) = some t') :
    ∃ s, step t.kern ev = some s ∧ t' = ⟨s, (kernTlb t.kern fs t.tlb ev).flush ev.cpu⟩ := by
  cases ev with
  | store c va b => cases h
  | _ =>
    obtain ⟨s, hs, rfl⟩ := Option.map_eq_some_iff.mp h
    exact ⟨s, hs, rfl⟩

/-- A store through the cache is one that goes by the directory. -/
theorem Coherent.store_step {b : BitVec 8} (h : Coherent t)
    (hs : tlbStep t (.store c va pte b) = some t') :
    step t.kern (.store c va b) = some t'.kern ∧ t'.kern.cpus = t.kern.cpus ∧ t'.tlb = t.tlb := by
  simp only [tlbStep] at hs
  split_ifs at hs with hrun
  obtain ⟨hcur, hva, hmem, hW, hU⟩ := hrun
  cases hs
  obtain ⟨e, he, rfl, hP⟩ := h.cached c _ _ hmem ((PGNUM_lt_iff va).mpr hva)
  have hd := h.sound.loaded c e he
  have hentry : t.kern.upte e (PGNUM va) = dirPte t.kern.mem.phys (t.kern.cpus c).cr3 (PGNUM va) :=
    upte_of_dir hd ((PGNUM_lt_iff va).mpr hva)
  have ht : JOS.translate t.kern.reset.mem (t.kern.reset.cpus c).cr3 va =
      some (t.kern.upte e (PGNUM va)) := by
    rw [hentry] at hP ⊢
    exact translate_eq_dirPte.trans (if_pos hP)
  refine ⟨?_, rfl, rfl⟩
  rw [step, userStore, if_pos ⟨hcur, hva⟩, ht]
  simp only [hW, hU, Bool.and_self, if_true]
  rfl

theorem Coherent.step {ev : TlbEvent} (h : Coherent t) (hok : TlbTame t ev)
    (hs : tlbStep t ev = some t') : Coherent t' := by
  cases ev with
  | kern ev fs =>
    obtain ⟨htame, hinv⟩ := hok
    obtain ⟨s, hstep, rfl⟩ := tlbStep_kern hs
    refine ⟨h.sound.step htame hstep, h.idle.step h.sound htame hstep, fun c v pte hmem hv => ?_⟩
    obtain ⟨hc, hmem⟩ := Tlb.mem_flush.mp hmem
    obtain ⟨e, he, hP, hentry⟩ := h.kernTlb htame hstep hv hmem
    refine ⟨e, ?_, ?_, hP⟩
    · rw [← he]
      exact congrArg CpuInfo.cpuEnv ((step_lands hstep).1 c hc)
    · rcases hentry with rfl | hentry
      · by_contra hne
        obtain ⟨va, rfl, hedits⟩ := upte_elsewhere h.sound htame hstep he hc hne
        exact hinv.others e va _ c ⟨hedits, hP⟩ (h.sound.loaded c e he) hc rfl
      · exact hentry
  | fill c va =>
    obtain ⟨pte, ht, rfl⟩ := Option.map_eq_some_iff.mp hs
    refine ⟨h.sound, h.idle, fun c' v pte' hmem hv => ?_⟩
    rcases Tlb.mem_fill.mp hmem with hmem | ⟨rfl, rfl, rfl⟩
    · exact h.cached c' v pte' hmem hv
    · have hfinds := finds_of_translate ht
      obtain ⟨e, he, hentry⟩ := h.finds hv hfinds.1 hfinds.2
      exact ⟨e, he, hentry, hfinds.2⟩
  | store c va pte b =>
    obtain ⟨k, hx⟩ := h.sound.sound
    obtain ⟨hstep, hcpus, htlb⟩ := h.store_step hs
    have htame : Tame t.kern (.store c va b) := tame_of_check rfl
    have hsound := h.sound.step htame hstep
    refine ⟨hsound, h.idle.step h.sound htame hstep, fun c' v pte' hmem hv => ?_⟩
    rw [htlb] at hmem
    obtain ⟨e, he, rfl, hP⟩ := h.cached c' v pte' hmem hv
    refine ⟨e, ?_, ?_, hP⟩
    · rw [← he, KState.curenv, KState.curenv, hcpus]
    · by_contra hne
      have hdoes : Does (t.kern.vmState k) .keep (t'.kern.vmState k) :=
        (userStore_does (s := t.kern.reset) hx h.sound.loaded hstep).2
      rcases hdoes.changes hne with ⟨_, _, _, hop, -⟩ | ⟨_, _, _, _, _, hop, -⟩ | ⟨_, hop, -⟩ |
        hop <;> cases hop

/-- After boot nothing is cached, and all CPUs have the kernel's directory loaded. -/
structure TlbBooted (t : TlbState) : Prop where
  kern : Booted t.kern
  idle : IdleKernel t.kern
  tlb : ∀ c, t.tlb c = ∅

theorem TlbBooted.coherent (h : TlbBooted t) : Coherent t := by
  refine ⟨h.kern.soundState, h.idle, fun c v pte hmem _ => ?_⟩
  rw [h.tlb c] at hmem
  exact absurd hmem (Finset.notMem_empty _)

/-- User accesses reach pages of user data, which are not free. -/
def ReachesData (t : TlbState) : Prop :=
  ∀ c va pte, va < UTOP → (PGNUM va, pte) ∈ t.tlb c → t.kern.mem.userData (PGNUM pte) = true ∧
    ∀ l, Chain t.kern.mem.link t.kern.mem.pageFreeList l → PGNUM pte ∉ l

theorem Coherent.reachesData (h : Coherent t) : ReachesData t := by
  obtain ⟨k, hx⟩ := h.sound.sound
  intro c va pte hva hmem
  obtain ⟨e, -, rfl, hP⟩ := h.cached c _ _ hmem ((PGNUM_lt_iff va).mpr hva)
  have hdata : k (PGNUM (t.kern.upte e (PGNUM va))) = .data := hx.vm.tables.data_of_names ⟨hP, rfl⟩
  refine ⟨(hx.vm.pool.user _).mpr hdata, fun l hl hmem => ?_⟩
  obtain ⟨l', hl', hfree⟩ := hx.vm.pool.free
  have hk : k (PGNUM (t.kern.upte e (PGNUM va))) = .free := (hfree _).mp (hl.unique hl' ▸ hmem)
  rw [hdata] at hk
  cases hk

/-- The state after boot. -/
def bootTlb (ncpu : ℕ) : TlbState := ⟨bootState ncpu, fun _ => ∅⟩

theorem bootTlb_booted (ncpu : ℕ) : TlbBooted (bootTlb ncpu) :=
  ⟨bootState_booted ncpu, fun _ _ => rfl, fun _ => rfl⟩

/-- **No stale translation**: in every state of a run whose events meet the condition, a call that
returns leaves none if and only if it meets the condition, and user accesses reach user data. -/
theorem noStale_of_reach (h₀ : TlbBooted t₀) (h : Reach tlbStep TlbTame t₀ t) :
    (∀ ev, Tame t.kern ev → (ReturnsClean t ev ↔ Invalidated t.kern ev)) ∧ ReachesData t := by
  have hcoherent : Coherent t := h.invariant h₀.coherent fun _ _ _ ht hok hs => ht.step hok hs
  exact ⟨fun ev hok => returnsClean_iff hcoherent.sound hok, hcoherent.reachesData⟩

/-! ### Calls for the caller's own address space -/

/-- Whether an event that is a system call sets no status, sends and destroys nothing, and edits the
address space of its caller only, without mapping a page once more where it is. -/
def ownEdits (s : KState) : Event → Bool
  | .trap c t => t.tf.tfTrapno != T_SYSCALL ||
      match SysNo.ofWord t.args.no, s.curenv c with
      | some .envDestroy, _ | some .envSetStatus, _ | some .ipcTrySend, _ => false
      | some .pageAlloc, _ | some .pageUnmap, _ => t.args.a1 == 0
      | some .pageMap, some cur => t.args.a1 == 0 && t.args.a3 == 0 &&
          (PGNUM (s.upte cur (PGNUM t.args.a2)) != PGNUM (s.upte cur (PGNUM t.args.a4)) ||
            !test (s.upte cur (PGNUM t.args.a4)) PTE_P)
      | _, _ => true
  | _ => true

theorem SysCall.ownEdits (hcall : SysCall s ev c cur a s₁) (h : ownEdits s ev = true) :
    SysNo.ofWord a.no ≠ some .envDestroy ∧ SysNo.ofWord a.no ≠ some .envSetStatus ∧
      SysNo.ofWord a.no ≠ some .ipcTrySend ∧
      (SysNo.ofWord a.no = some .pageAlloc ∨ SysNo.ofWord a.no = some .pageUnmap ∨
        SysNo.ofWord a.no = some .pageMap → a.a1 = 0) ∧
      (SysNo.ofWord a.no = some .pageMap → a.a3 = 0 ∧
        (PGNUM (s.upte cur (PGNUM a.a2)) ≠ PGNUM (s.upte cur (PGNUM a.a4)) ∨
        test (s.upte cur (PGNUM a.a4)) PTE_P = false)) := by
  obtain ⟨t, rfl, hcur, -, hno, rfl, -⟩ := hcall
  simp only [JOS.ownEdits, hno, hcur, bne_self_eq_false, Bool.false_or] at h
  split at h <;> simp_all

/-- It looks up what it can map, too. -/
def tlbCheck (t : TlbState) : TlbEvent → Bool
  | .kern ev _ => sharingCheck ev.cpu t.kern ev && ownEdits t.kern ev
  | _ => true

/-- Only a call that maps a page maps it once more. -/
theorem Remaps.mapping (h : Remaps s ev e va) (hcall : SysCall s ev c cur a s₁) :
    SysNo.ofWord a.no = some .pageMap ∨ SysNo.ofWord a.no = some .ipcTrySend := by
  obtain ⟨_, _, _, _, ⟨_, _, _, _, hcall', hno, _⟩ | ⟨_, _, _, hcall', hno, _⟩, _⟩ := h
  · obtain ⟨rfl, rfl, rfl, rfl⟩ := hcall.unique hcall'
    exact .inl hno
  · obtain ⟨rfl, rfl, rfl, rfl⟩ := hcall.unique hcall'
    exact .inr hno

/-- Such a call edits the address space that its CPU has loaded. -/
theorem edits_own (h : ownEdits s ev = true) (hedits : Edits s ev e va) : s.curenv ev.cpu = some e ∧
    ¬ Remaps s ev e va := by
  have hself : ∀ {c cur a s₁ envid e}, SysCall s ev c cur a s₁ → envid = 0 →
      envid2env s₁ cur envid true = some e →
      s.curenv ev.cpu = some e := by
    rintro c cur a s₁ envid e hcall rfl henv
    obtain ⟨hcpu, hcur, -⟩ := hcall.cpu
    cases henv
    exact hcpu ▸ hcur
  rcases hedits with ⟨⟨perm, c, cur, a, s₁, hcall, hno, henv, -⟩, -⟩ |
    ⟨e₀, va₀, perm, p, hmaps, -⟩ | ⟨c, cur, a, s₁, hcall, hno, henv, -⟩
  · refine ⟨hself hcall ((hcall.ownEdits h).2.2.2.1 (.inl hno)) henv, ?_⟩
    intro hremaps
    rcases hremaps.mapping hcall with hno' | hno' <;> cases hno.symm.trans hno'
  · rcases hmaps with ⟨c, cur, a, s₁, hcall, hno, hargs, -, rfl, -⟩ | ⟨c, a, s₁, hcall, hno, -⟩
    · obtain ⟨-, -, -, hsrc, hdst⟩ := hcall.ownEdits h
      obtain ⟨hdst, hpages⟩ := hdst hno
      have hargs' : e₀ = cur ∧ e = cur := by
        have hcur : envid2env s₁ cur 0 true = some cur := if_pos rfl
        rw [hsrc (.inr (.inr hno)), hdst, pageMapArgs, hcur] at hargs
        dsimp only at hargs
        split_ifs at hargs
        cases hargs
        exact ⟨rfl, rfl⟩
      obtain ⟨rfl, rfl⟩ := hargs'
      obtain ⟨hcpu, hcur, -⟩ := hcall.cpu
      refine ⟨hcpu ▸ hcur, ?_⟩
      rintro ⟨e₁, va₁, perm₁, p₁, ⟨c', cur', a', s₁', hcall', hno', hargs', rfl, -⟩ |
        ⟨c', a', s₁', hcall', hno', -⟩, hn, hn'⟩
      · obtain ⟨rfl, rfl, rfl, rfl⟩ := hcall.unique hcall'
        rw [hargs] at hargs'
        cases hargs'
        rcases hpages with hne | hP
        · exact hne (hn.2.trans hn'.2.symm)
        · cases hP.symm.trans hn'.1
      · obtain ⟨rfl, rfl, rfl, rfl⟩ := hcall.unique hcall'
        cases hno.symm.trans hno'
    · exact absurd hno (hcall.ownEdits h).2.2.1
  · refine ⟨hself hcall ((hcall.ownEdits h).2.2.2.1 (.inr (.inl hno))) henv, ?_⟩
    intro hremaps
    rcases hremaps.mapping hcall with hno' | hno' <;> cases hno.symm.trans hno'

/-- **Events that pass** meet the condition. -/
theorem Coherent.tlbTame {ev : TlbEvent} (h : Coherent t) (hcheck : tlbCheck t ev = true) :
    TlbTame t ev := by
  cases ev with
  | kern ev fs =>
    obtain ⟨hsharing, hown⟩ := Bool.and_eq_true_iff.mp hcheck
    obtain ⟨k, hx⟩ := h.sound.sound
    refine ⟨⟨⟨?_, ?_, ?_⟩, fun e va d hlook hd => ?_, fun e va e' va' perm p hmaps hn => ?_,
      sharingCheck_image hsharing⟩, ?_, ?_⟩
    · rintro c e st ⟨cur, a, s₁, hcall, hno, -⟩ -
      exact absurd hno (hcall.ownEdits hown).2.1
    · rintro c e ⟨cur, a, s₁, hcall, hno, -⟩ -
      exact (hcall.ownEdits hown).2.2.1 hno
    · rintro c e ⟨cur, a, s₁, hcall, hno, -⟩ -
      exact absurd hno (hcall.ownEdits hown).1
    · obtain ⟨hP, hva⟩ := sharingCheck_present hsharing hlook
      exact not_emptyEntry hd hva hP
    · exact .inl (sharingCheck_room hsharing hx hmaps hn)
    · -- another CPU runs another environment, or has the kernel's directory
      rintro e va d c ⟨hedits, -⟩ hd hc rfl
      obtain ⟨hcur, -⟩ := edits_own hown hedits
      have hdir : k (t.kern.cpus c).cr3 = .dir e := (hx.vm.tables.dir e _).mp hd
      cases hcur' : t.kern.curenv c with
      | none =>
        have hkern : k t.kern.mem.kernPgdir = .reserved := hx.vm.tables.kernPgdir
        rw [h.idle c hcur', hkern] at hdir
        cases hdir
      | some e' =>
        have hdir' : k (t.kern.cpus c).cr3 = .dir e' :=
          (hx.vm.tables.dir e' _).mp (h.sound.loaded c e' hcur')
        rw [hdir] at hdir'
        cases hdir'
        exact hc (h.sound.alone.inj c ev.cpu e hcur' hcur)
    · rintro e va d ⟨hedits, -⟩ - -
      exact (edits_own hown hedits).2
  | _ => trivial

/-- A program is started on each of two CPUs, and both are cached. The first one gets two pages; the
second page is replaced, while both CPUs cache what they find. -/
def ownRun : List TlbEvent :=
  [.kern (.create 0 emptyElf) fun _ => [], .kern (.create 0 emptyElf) fun _ => [],
    .kern (.start 0) fun _ => [],
    .kern (.start 1) fun _ => [], .fill 1 0xeebfd000,
    .kern (.trap 0 (sysTrap 4 0 0x1000 7 0 0)) fun _ => [],
    .kern (.trap 0 (sysTrap 5 0 0x1000 0 0x2000 7)) fun _ => [], .fill 0 0x1000, .fill 0 0x2000,
    .kern (.trap 0 (sysTrap 4 0 0x2000 7 0 0)) fun _ => [(0, 0x1000), (0, 0x2000), (1, 0xeebfd000)],
    .fill 0 0x1000]

/-- The first program unmaps a page that its CPU has cached. -/
def ownUnmap : Event := .trap 0 (sysTrap 6 0 0x1000 0 0 0)

/-- It returns clean. -/
theorem noStale_own : ∃ t, Reach tlbStep TlbTame (bootTlb 2) t ∧ (1, t.kern.upte 0 1) ∈ t.tlb 0 ∧
    (t.tlb 1).card = 1 ∧
    ReturnsClean t ownUnmap ∧ ReachesData t := by
  have hrun : (ownRun.foldlM (fun t e => if tlbCheck t e then tlbStep t e else none)
    (bootTlb 2)).map
      (fun t => (decide ((1, t.kern.upte 0 1) ∈ t.tlb 0), (t.tlb 1).card,
        tlbCheck t (.kern ownUnmap fun _ => []))) =
      some (true, 1, true) := by decide +kernel
  obtain ⟨t, ht, hfacts⟩ := Option.map_eq_some_iff.mp hrun
  simp only [Prod.mk.injEq, decide_eq_true_eq] at hfacts
  obtain ⟨hmem, hcard, hcheck⟩ := hfacts
  have hchecked : Reach tlbStep (fun t e => tlbCheck t e = true) (bootTlb 2) t :=
    Reach.of_guarded ht fun _ _ => id
  obtain ⟨hcoherent, hreach⟩ :=
    hchecked.mono_of_invariant (bootTlb_booted 2).coherent
    (fun _ _ _ ht hok hs => ht.step (ht.tlbTame hok) hs) fun _ _ ht hok => ht.tlbTame hok
  obtain ⟨htame, hinv⟩ := hcoherent.tlbTame hcheck
  obtain ⟨hclean, hdata⟩ := noStale_of_reach (bootTlb_booted 2) hreach
  exact ⟨t, hreach, hmem, hcard, (hclean ownUnmap htame).mpr hinv, hdata⟩

/-! ### Stale translations -/

/-- A child is given a page, CPU 1 runs it and caches the page. -/
def cachedRun : List TlbEvent :=
  [.kern (.create 0 emptyElf) fun _ => [], .kern (.start 0) fun _ => [],
    .kern (.trap 0 (sysTrap 7 0 0 0 0 0)) fun _ => [],
    .kern (.trap 0 (sysTrap 4 0x1001 0x1000 7 0 0)) fun _ => [],
    .kern (.trap 0 (sysTrap 8 0x1001 2 0 0 0)) fun _ => [],
    .kern (.start 1) fun _ => [], .fill 1 0x1000]

/-- The parent, on CPU 0, unmaps the page. -/
def unmapTrap : TrapIn := sysTrap 6 0x1001 0x1000 0 0 0

theorem syscall_of_toOption {y : Word × KState} (h : (syscall s c cur a).toOption = some y) :
    syscall s c cur a = .ok y := by
  cases hr : syscall s c cur a with
  | error l =>
    rw [hr] at h
    cases h
  | ok y' =>
    rw [hr] at h
    exact congrArg Except.ok (Option.some.inj h)

/-- **A stale translation**: `sys_page_unmap` returns, and CPU 1 has the page cached that has been
freed. -/
theorem not_noStale : ∃ t t', Reach tlbStep (fun _ _ => True) (bootTlb 2) t ∧
    tlbStep t (.kern (.trap 0 unmapTrap) fun _ => []) = some t' ∧
    ¬ ReturnsClean t (.trap 0 unmapTrap) ∧ ¬ ReachesData t' := by
  have hrun : ((cachedRun.foldlM tlbStep (bootTlb 2)).bind fun t =>
      (tlbStep t (.kern (.trap 0 unmapTrap) fun _ => [])).bind fun t' =>
        (syscall (trapEntry t.kern.reset 0 0 unmapTrap) 0 0 unmapTrap.args).toOption.map fun y =>
          decide ((t.kern.curenv 0 = some 0 ∧ t.kern.status 0 ≠ .dying) ∧
            (test ((trapEntry t.kern.reset 0 0 unmapTrap).upte 1 1) PTE_P = true ∧
              y.2.upte 1 1 ≠ (trapEntry t.kern.reset 0 0 unmapTrap).upte 1 1 ∧
              y.2.dirs 1 = some (y.2.cpus 1).cr3 ∧
              (1, (trapEntry t.kern.reset 0 0 unmapTrap).upte 1 1) ∈
                syscallTlb (trapEntry t.kern.reset 0 0 unmapTrap) 0 0 unmapTrap.args
                  (fun _ => []) t.tlb 1) ∧
            (1, t.kern.upte 1 1) ∈ t'.tlb 1 ∧
            t'.kern.mem.userData (PGNUM (t.kern.upte 1 1)) = false)) = some true := by
    decide +kernel
  obtain ⟨t, ht, hrun⟩ := Option.bind_eq_some_iff.mp hrun
  obtain ⟨t', ht', hrun⟩ := Option.bind_eq_some_iff.mp hrun
  obtain ⟨⟨r, s₂⟩, hcall, hrun⟩ := Option.map_eq_some_iff.mp hrun
  obtain ⟨⟨hcur, hdying⟩, ⟨hP, hne, hd, hstale⟩, hmem, hfree⟩ := of_decide_eq_true hrun
  refine ⟨t, t', Reach.of_foldlM ht fun _ _ _ => trivial, ht', fun hclean => ?_, fun hreach => ?_⟩
  · exact hclean (fun _ => []) 0 0 _ _ r s₂ ⟨unmapTrap, rfl, hcur, hdying, rfl, rfl, rfl⟩
      (syscall_of_toOption hcall) 1 1 _ 1 hP hne
      hd rfl hstale
  · have hdata := (hreach 1 0x1000 _ (by decide) hmem).1
    rw [hfree] at hdata
    cases hdata

/-- One program, on one CPU, gets a page. -/
def writablePageRun : List TlbEvent :=
  [.kern (.create 0 emptyElf) fun _ => [], .kern (.start 0) fun _ => [],
    .kern (.trap 0 (sysTrap 4 0 0x1000 7 0 0)) fun _ => []]

/-- It gives up the right to write it: `sys_page_map` of the page where it is. -/
def remapTrap : TrapIn := sysTrap 5 0 0x1000 0 0x1000 5

/-- **A stale translation** on the caller's own CPU: it caches the page again after `invlpg`, with
the right to write it. -/
theorem not_returnsClean_remap : ∃ t, Reach tlbStep (fun _ _ => True) (bootTlb 1) t ∧
    ¬ ReturnsClean t (.trap 0 remapTrap) := by
  have hrun : ((writablePageRun.foldlM tlbStep (bootTlb 1)).bind fun t =>
      (syscall (trapEntry t.kern.reset 0 0 remapTrap) 0 0 remapTrap.args).toOption.map fun y =>
        decide ((t.kern.curenv 0 = some 0 ∧ t.kern.status 0 ≠ .dying) ∧
          test ((trapEntry t.kern.reset 0 0 remapTrap).upte 0 1) PTE_P = true ∧
          y.2.upte 0 1 ≠ (trapEntry t.kern.reset 0 0 remapTrap).upte 0 1 ∧
          y.2.dirs 0 = some (y.2.cpus 0).cr3 ∧
          (1, (trapEntry t.kern.reset 0 0 remapTrap).upte 0 1) ∈
            syscallTlb (trapEntry t.kern.reset 0 0 remapTrap) 0 0 remapTrap.args
              (fun i => if i = 2 then [(0, 0x1000)] else []) t.tlb 0)) = some true := by
    decide +kernel
  obtain ⟨t, ht, hrun⟩ := Option.bind_eq_some_iff.mp hrun
  obtain ⟨⟨r, s₂⟩, hcall, hrun⟩ := Option.map_eq_some_iff.mp hrun
  obtain ⟨⟨hcur, hdying⟩, hP, hne, hd, hstale⟩ := of_decide_eq_true hrun
  refine ⟨t, Reach.of_foldlM ht fun _ _ _ => trivial, fun hclean => ?_⟩
  exact hclean _ 0 0 _ _ r s₂ ⟨remapTrap, rfl, hcur, hdying, rfl, rfl, rfl⟩
    (syscall_of_toOption hcall) 0 1 _ 0 hP hne hd rfl hstale

end JOS
