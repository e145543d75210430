import JOS.Kern.Tlb
import JOS.Spaces.Sound

/-!
# Stores and invalidations

What a CPU can have cached after the acts of a system call: what it had cached before, and
what it found in one of the memories on the way (`actsTlb_subset`); a CPU other than the
caller's forgets nothing (`actsTlb_keeps`). `page_remove` clears the entry and then
invalidates it. `page_insert` does the same with an entry that names another page; of the
same page it invalidates the entry while that is still there (`Vm.pageInsertActs_present`).
-/

namespace JOS

open JOS.General

variable {s s' s₁ s₂ : KState} {ev : Event} {k : ℕ → Kind} {m m' m₁ : Mem} {D : ℕ → Option ℕ}
  {as bs : List TlbAct}
  {c c' cur d e p v : ℕ} {a : SysArgs} {va perm pte r : Word} {tlb : JOS.Tlb}
  {fs : ℕ → List (ℕ × Word)} {l : List (ℕ × Word)}

/-! ### What is cached -/

theorem mem_fills : (v, pte) ∈ tlb.fills s m l c ↔
    (v, pte) ∈ tlb c ∨ ∃ va, (c, va) ∈ l ∧ v = PGNUM va ∧ translate m
    (s.cpus c).cr3 va = some pte := by
  induction l generalizing tlb with
  | nil => simp [Tlb.fills]
  | cons x l ih =>
    obtain ⟨c', va'⟩ := x
    cases ht : translate m (s.cpus c').cr3 va' with
    | none =>
      have hcons : tlb.fills s m ((c', va') :: l) = tlb.fills s m l := by simp [Tlb.fills, ht]
      rw [hcons, ih]
      refine or_congr_right (exists_congr fun va => and_congr_left fun h => ?_)
      rw [List.mem_cons, or_iff_right]
      rintro ⟨rfl, rfl⟩
      rw [ht] at h
      exact absurd h.2 (by simp)
    | some pte' =>
      have hcons : tlb.fills s m ((c', va') :: l) = (tlb.fill c' va' pte').fills s m l := by
        simp [Tlb.fills, ht]
      rw [hcons, ih, Tlb.mem_fill, or_assoc]
      refine or_congr_right ⟨?_, ?_⟩
      · rintro (⟨rfl, rfl, rfl⟩ | ⟨va, hmem, h⟩)
        · exact ⟨va', List.mem_cons_self, rfl, ht⟩
        · exact ⟨va, List.mem_cons_of_mem _ hmem, h⟩
      · rintro ⟨va, hmem, hv, h⟩
        rcases List.mem_cons.mp hmem with heq | hmem
        · cases heq
          rw [ht] at h
          cases h
          exact .inl ⟨rfl, hv, rfl⟩
        · exact .inr ⟨va, hmem, hv, h⟩

/-- What is found in the memory `m` through the directory of CPU `c`. -/
def Finds (s : KState) (m : Mem) (c v : ℕ) (pte : Word) : Prop :=
  dirPte m.phys (s.cpus c).cr3 v = pte ∧ test pte PTE_P = true

theorem finds_of_translate (h : translate m (s.cpus c).cr3 va = some pte) :
    Finds s m c (PGNUM va) pte := by
  rw [translate_eq_dirPte] at h
  split_ifs at h with hP
  cases h
  exact ⟨rfl, hP⟩

theorem fills_subset (h : (v, pte) ∈ tlb.fills s m l c) : (v, pte) ∈ tlb c ∨ Finds s m c v pte := by
  rcases mem_fills.mp h with h | ⟨va, -, rfl, ht⟩
  · exact .inl h
  · exact .inr (finds_of_translate ht)

/-- `tlb_invalidate` executes `invlpg`, or does nothing. -/
theorem tlbInvalidate_cases : tlbInvalidate s c d va tlb = tlb.invlpg c va ∨
    tlbInvalidate s c d va tlb = tlb := by
  rw [tlbInvalidate]
  split
  · exact .inl rfl
  · split_ifs
    · exact .inl rfl
    · exact .inr rfl

theorem mem_of_tlbInvalidate (h : (v, pte) ∈ tlbInvalidate s c d va tlb c') :
    (v, pte) ∈ tlb c' := by
  rcases tlbInvalidate_cases with heq | heq <;> rw [heq] at h
  · exact (Tlb.mem_invlpg.mp h).1
  · exact h

theorem mem_tlbInvalidate (hc : c' ≠ c) (h : (v, pte) ∈ tlb c') :
    (v, pte) ∈ tlbInvalidate s c d va tlb c' := by
  rcases tlbInvalidate_cases with heq | heq <;> rw [heq]
  · exact Tlb.mem_invlpg.mpr ⟨h, fun h => absurd h hc⟩
  · exact h

/-- `tlb_invalidate` of the caller's directory. -/
theorem tlbInvalidate_own (hcur : s.curenv c = some cur) (hd : s.dirs cur = some d) :
    tlbInvalidate s c d va tlb = tlb.invlpg c va := by
  have hpgdir : (s.envs cur).envPgdir = some d := hd
  rw [tlbInvalidate, hcur]
  exact if_pos hpgdir

/-- **Nothing else gets in**: after the acts there is what was there before, and what was found in a
memory on the way. -/
theorem actsTlb_subset (h : (v, pte) ∈ actsTlb s c m as fs tlb c') :
    (v, pte) ∈ tlb c' ∨ Finds s m c' v pte ∨ ∃ m', .store m' ∈ as ∧ Finds s m' c' v pte := by
  induction as generalizing m fs tlb with
  | nil => exact (fills_subset h).imp_right .inl
  | cons act as ih =>
    cases act with
    | store m' =>
      rcases ih h with h | h | ⟨m'', hmem, h⟩
      · exact (fills_subset h).imp_right .inl
      · exact .inr (.inr ⟨m', List.mem_cons_self, h⟩)
      · exact .inr (.inr ⟨m'', List.mem_cons_of_mem _ hmem, h⟩)
    | invalidate pgdir va =>
      rcases ih h with h | h | ⟨m'', hmem, h⟩
      · exact (fills_subset (mem_of_tlbInvalidate h)).imp_right .inl
      · exact .inr (.inl h)
      · exact .inr (.inr ⟨m'', List.mem_cons_of_mem _ hmem, h⟩)

/-- Another CPU forgets nothing. -/
theorem actsTlb_keeps (hc : c' ≠ c) (h : (v, pte) ∈ tlb c' ∨ ∃ va, (c', va) ∈ fs 0 ∧ v = PGNUM va ∧
    translate m (s.cpus c').cr3 va = some pte) : (v, pte) ∈ actsTlb s c m as fs tlb c' := by
  induction as generalizing m fs tlb with
  | nil => exact mem_fills.mpr h
  | cons act as ih =>
    cases act with
    | store m' => exact ih (.inl (mem_fills.mpr h))
    | invalidate pgdir va => exact ih (.inl (mem_tlbInvalidate hc (mem_fills.mpr h)))

/-- Acts that begin with others. -/
theorem actsTlb_append : ∃ m' tlb', actsTlb s c m (as ++ bs) fs tlb = actsTlb s c m' bs
    (fun i => fs (i + as.length)) tlb' ∧
    (m' = m ∨ .store m' ∈ as) := by
  induction as generalizing m fs tlb with
  | nil => exact ⟨m, tlb, rfl, .inl rfl⟩
  | cons act as ih =>
    cases act with
    | store m₁ =>
      obtain ⟨m', tlb', heq, hm⟩ := @ih m₁ (tlb.fills s m (fs 0)) fun i => fs (i + 1)
      refine ⟨m', tlb', heq, .inr ?_⟩
      rcases hm with rfl | hm
      · exact List.mem_cons_self
      · exact List.mem_cons_of_mem _ hm
    | invalidate pgdir va =>
      obtain ⟨m', tlb', heq, hm⟩ := @ih m (tlbInvalidate s c pgdir va (tlb.fills s m (fs 0)))
        fun i => fs (i + 1)
      exact ⟨m', tlb', heq, hm.imp_right (List.mem_cons_of_mem _)⟩

/-- **An entry that is cleared before it is invalidated** is forgotten by the CPU whose directory it
is. -/
theorem actsTlb_clean (hcur : s.curenv c = some cur) (hd : s.dirs cur = some d)
    (hm : ¬ Finds s m c (PGNUM va) pte)
    (hbs : ∀ m', .store m' ∈ bs → ¬ Finds s m' c (PGNUM va) pte) :
    (PGNUM va, pte) ∉ actsTlb s c m₁ (as ++ .store m :: .invalidate d va :: bs) fs tlb c := by
  obtain ⟨m', tlb', heq, -⟩ := @actsTlb_append s m₁ as (.store m :: .invalidate d va :: bs) c tlb fs
  rw [heq, actsTlb, actsTlb, tlbInvalidate_own hcur hd]
  intro h
  rcases actsTlb_subset h with h | h | ⟨m'', hmem, h⟩
  · exact (Tlb.mem_invlpg.mp h).2 rfl rfl
  · exact hm h
  · exact hbs m'' hmem h

/-- **An entry that is invalidated before it is replaced** can be cached again. -/
theorem actsTlb_window (hm : translate m (s.cpus c).cr3 va = some pte) (hfs : (c, va) ∈ fs 2) :
    (PGNUM va, pte) ∈ actsTlb s c m₁ [.store m, .invalidate d va, .store m'] fs tlb c := by
  refine mem_fills.mpr (.inl (mem_fills.mpr (.inr ⟨va, hfs, rfl, hm⟩)))

/-! ### The acts of `page_remove` and `page_insert` -/

/-- A memory with sound address spaces, in which programs have the entries `u`. -/
structure ShowsEntries (D : ℕ → Option ℕ) (kd : ℕ) (u : ℕ → ℕ → Word) (m : Mem) : Prop where
  vm : ∃ k, Vm m D k
  kern : m.kernPgdir = kd
  entries : upte m.phys D = u

theorem Vm.shows (h : Vm m D k) : ShowsEntries D m.kernPgdir (upte m.phys D) m := ⟨⟨k, h⟩, rfl, rfl⟩

theorem Mapped.shows {k' : ℕ → Kind} {w : Word} (h : Mapped m D k e va w m' k') :
    ShowsEntries D m.kernPgdir (setAt (upte m.phys D) e (PGNUM va) w) m' :=
      ⟨⟨k', h.vm⟩, h.frame.base.kernPgdir, h.entries⟩

/-- `page_remove` of a page that is mapped clears the entry, and then invalidates it. -/
theorem Vm.pageRemoveActs (h : Vm m D k) (hd : D e = some d) (hva : va < UTOP)
    (hn : Names (upte m.phys D e (PGNUM va)) p)
    (hspare : Spare (upte m.phys D) e (PGNUM va)) : ∃ m', pageRemove m d va = .ok m' ∧
      JOS.pageRemoveActs m d va = [.store m', .invalidate d va] ∧
      ShowsEntries D m.kernPgdir (setAt (upte m.phys D) e (PGNUM va) 0) m' := by
  obtain ⟨t, hlook, -⟩ := h.pageLookup_some hd hva hn
  have hne : ¬ EmptyEntry m d va := by
    rintro ⟨-, hno⟩
    rw [← upte_of_dir hd ((PGNUM_lt_iff va).mpr hva)] at hno
    exact hno hn.1
  obtain ⟨m', hrem⟩ := h.pageRemove_ok hd hva hne
  obtain ⟨k', hm, -⟩ := pageRemove_spec h hd hva hn (hspare p hn) hrem
  exact ⟨m', hrem, by rw [JOS.pageRemoveActs, hlook, hrem], hm.shows⟩

/-- The acts by which `page_insert` writes the entry for `va`, and memory becomes `m'`. -/
inductive Inserts (D : ℕ → Option ℕ) (kd : ℕ) (u : ℕ → ℕ → Word) (e d p : ℕ) (va : Word)
    (m' : Mem) : List TlbAct → Prop where
  /-- Nothing has been mapped there. -/
  | fresh {m₁ : Mem} : ShowsEntries D kd u m₁ → test (u e (PGNUM va)) PTE_P ≠ true →
    Inserts D kd u e d p va m' [.store m₁, .store m']
  /-- The same page has been mapped there. -/
  | same {m₁ : Mem} : ShowsEntries D kd u m₁ → Names (u e (PGNUM va)) p →
      Inserts D kd u e d p va m' [.store m₁, .invalidate d va, .store m']
  /-- Another page has been mapped there. -/
  | other {m₁ m₂ : Mem} {q : ℕ} : ShowsEntries D kd u m₁ → Names (u e (PGNUM va)) q → q ≠ p →
      ShowsEntries D kd (setAt u e (PGNUM va) 0) m₂ →
      Inserts D kd u e d p va m' [.store m₁, .store m₂, .invalidate d va, .store m']

/-- `page_insert` finds no memory for a table, or writes the entry. -/
theorem Vm.pageInsertActs (h : Vm m D k) (hd : D e = some d) (hva : va < UTOP) (hdata : k p = .data)
    (hf : IsFlags perm)
    (hspare : Spare (upte m.phys D) e (PGNUM va)) (hins : pageInsert m d p va perm = .ok (r, m')) :
    r ≠ 0 ∧ m' = m ∧ JOS.pageInsertActs m d p va perm = [] ∧
      test (upte m.phys D e (PGNUM va)) PTE_P ≠ true ∨
      r = 0 ∧ ShowsEntries D m.kernPgdir (setAt (upte m.phys D) e (PGNUM va) (mkPte p perm)) m' ∧
        Inserts D m.kernPgdir (upte m.phys D) e d p va m' (JOS.pageInsertActs m d p va perm) := by
  rcases pageInsert_spec h hd hva hdata hf (fun q hq _ => hspare q hq) hins with ⟨rfl, rfl⟩ |
    ⟨rfl, k', hm⟩
  · rcases pageInsert_eq_ok hins with ⟨-, hwalk⟩ | ⟨hr, -⟩
    · refine .inl ⟨by decide, rfl, by rw [JOS.pageInsertActs, hwalk], fun hP => ?_⟩
      -- where there is an entry, there is a table
      rw [pgdirWalk, if_pos (pde_of_names hd hva ⟨hP, rfl⟩)] at hwalk
      obtain ⟨pt, -, hwalk⟩ := bind_eq_ok.mp hwalk
      cases hwalk
    · exact absurd hr (by decide)
  refine .inr ⟨rfl, hm.shows, ?_⟩
  rcases pageInsert_eq_ok hins with ⟨hr, -⟩ | ⟨-, pte, m₁, m₂, hwalk, -, -⟩
  · exact absurd hr (by decide)
  rcases pgdirWalk_true h hd hva hwalk with ⟨ho, -⟩ | ⟨t, k₁, ho, hw⟩
  · cases ho
  cases ho
  have hupte : upte m₁.phys D = upte m.phys D := funext fun e => funext fun v => hw.entries e v
  have hshows : ShowsEntries D m.kernPgdir (upte m.phys D) m₁ :=
    ⟨⟨k₁, hw.vm⟩, hw.frame.base.kernPgdir, hupte⟩
  have hword : m₁.word ⟨t, PTX va⟩ = upte m.phys D e (PGNUM va) := by
    rw [← hupte]
    exact (hw.vm.upte_walk hw.table).symm
  rw [JOS.pageInsertActs, hwalk, hins]
  simp only [hword]
  by_cases hP : test (upte m.phys D e (PGNUM va)) PTE_P = true
  · rw [if_pos hP]
    by_cases hsame : PGNUM (upte m.phys D e (PGNUM va)) = p
    · rw [if_pos ((PTE_ADDR_eq_iff (h.lt_of_data hdata)).mpr hsame)]
      exact .same hshows ⟨hP, hsame⟩
    · rw [if_neg fun heq => hsame ((PTE_ADDR_eq_iff (h.lt_of_data hdata)).mp heq)]
      obtain ⟨m₂, -, hacts, hclear⟩ :=
        hw.vm.pageRemoveActs hd hva (p := PGNUM (upte m.phys D e (PGNUM va)))
        (by rw [hupte]; exact ⟨hP, rfl⟩) (by rw [hupte]; exact hspare)
      rw [hacts]
      rw [hupte, hw.frame.base.kernPgdir] at hclear
      exact .other hshows ⟨hP, rfl⟩ hsame hclear
  · rw [if_neg hP]
    exact .fresh hshows hP

/-- On the way from the entries `u` to the entries `u'` each entry is the old one, the new one or
0. -/
structure Midway (D : ℕ → Option ℕ) (kd : ℕ) (u u' : ℕ → ℕ → Word) (m : Mem) : Prop where
  vm : ∃ k, Vm m D k
  kern : m.kernPgdir = kd
  entries : ∀ e v, upte m.phys D e v = u e v ∨ upte m.phys D e v = u' e v ∨ upte m.phys D e v = 0

variable {kd : ℕ} {u u' : ℕ → ℕ → Word} {w : Word}

theorem ShowsEntries.midway_old (h : ShowsEntries D kd u m) : Midway D kd u u' m :=
  ⟨h.vm, h.kern, fun e v => .inl (by rw [h.entries])⟩

theorem ShowsEntries.midway_new (h : ShowsEntries D kd u' m) : Midway D kd u u' m :=
  ⟨h.vm, h.kern, fun e v => .inr (.inl (by rw [h.entries]))⟩

theorem ShowsEntries.midway_clear (h : ShowsEntries D kd (setAt u e v 0) m) :
    Midway D kd u u' m := by
  refine ⟨h.vm, h.kern, fun e' v' => ?_⟩
  rw [h.entries]
  by_cases hev : e' = e ∧ v' = v
  · obtain ⟨rfl, rfl⟩ := hev
    exact .inr (.inr setAt_self)
  · exact .inl (setAt_of_ne hev)

theorem Inserts.midway (h : Inserts D kd u e d p va m' as) (hm' : ShowsEntries D kd u' m')
    (hm : .store m ∈ as) :
    Midway D kd u u' m := by
  cases h with
  | fresh h₁ _ =>
    simp only [List.mem_cons, TlbAct.store.injEq, List.not_mem_nil, or_false] at hm
    rcases hm with rfl | rfl
    · exact h₁.midway_old
    · exact hm'.midway_new
  | same h₁ _ =>
    simp only [List.mem_cons, TlbAct.store.injEq, reduceCtorEq, List.not_mem_nil, or_false,
      false_or] at hm
    rcases hm with rfl | rfl
    · exact h₁.midway_old
    · exact hm'.midway_new
  | other h₁ _ _ h₂ =>
    simp only [List.mem_cons, TlbAct.store.injEq, reduceCtorEq, List.not_mem_nil, or_false,
      false_or] at hm
    rcases hm with rfl | rfl | rfl
    · exact h₁.midway_old
    · exact h₂.midway_clear
    · exact hm'.midway_new

/-! ### The acts of the system calls -/

/-- The state after a call in which `page_insert` writes the entry for `va` of `e`. -/
structure Wrote (s : KState) (e p : ℕ) (va perm : Word) (s' : KState) : Prop where
  dirs : s'.dirs = s.dirs
  shows : ShowsEntries s.dirs s.mem.kernPgdir (setAt s.upte e (PGNUM va) (mkPte p perm)) s'.mem

theorem Wrote.same (h : Wrote s e p va perm s₁) (hs : SameSpaces s₁ s') : Wrote s e p va perm s' :=
  ⟨hs.2.trans h.dirs, by rw [hs.1]; exact h.shows⟩

theorem Wrote.upte (h : Wrote s e p va perm s') :
    s'.upte = setAt s.upte e (PGNUM va) (mkPte p perm) := by
  funext e v
  rw [KState.upte, h.dirs, h.shows.entries]

/-- `sys_page_alloc`, past its checks, stores nothing that programs see, or writes the entry of a
free page. -/
theorem sysPageAlloc_tlb {envid : Word} (hx : (s.vmState k).Sound)
    (henv : envid2env s cur envid true = some e)
    (hva : vaOk va = true) (hperm : permOk perm = true)
    (h : sysPageAlloc s cur envid va perm = .ok (r, s')) :
    (∀ m, .store m ∈ sysPageAllocActs s cur envid va perm →
        ShowsEntries s.dirs s.mem.kernPgdir s.upte m) ∧
        ¬ (s.mem.pageFreeList ≠ none ∧ test (s.upte e (PGNUM va)) PTE_P = true) ∨
      ∃ d p m₀ as, s.dirs e = some d ∧ k p = .free ∧ r = 0 ∧ Wrote s e p va perm s' ∧
        sysPageAllocActs s cur envid va perm = .store m₀ :: as ∧
        ShowsEntries s.dirs s.mem.kernPgdir s.upte m₀ ∧
        Inserts s.dirs s.mem.kernPgdir s.upte e d p va s'.mem as := by
  simp only [sysPageAlloc, henv, hva, hperm, Bool.not_true, Bool.false_eq_true, if_false] at h
  simp only [sysPageAllocActs, henv, hva, hperm, Bool.not_true, Bool.false_eq_true, if_false]
  obtain ⟨⟨o, m₁⟩, halloc, h⟩ := bind_eq_ok.mp h
  rw [halloc]
  rcases pageAlloc_spec hx.vm.pool halloc with ⟨rfl, rfl, hnone⟩ | ⟨p, rfl, ha⟩
  · exact .inl ⟨fun m hm => absurd hm List.not_mem_nil, fun hlist => hlist.1 hnone⟩
  obtain ⟨d, hd, h⟩ := bind_eq_ok.mp h
  obtain ⟨⟨flag, m₂⟩, hins, h⟩ := bind_eq_ok.mp h
  have hpgdir : (s.envs e).envPgdir = some d := deref_eq_some hd
  have hd : s.dirs e = some d := hpgdir
  have ho : Obtained s.mem s.dirs k p (m₁.markUser p true) := ha.obtained hx.vm
  have hkern : (m₁.markUser p true).kernPgdir = s.mem.kernPgdir := ho.base.kernPgdir
  have hentries : JOS.upte (m₁.markUser p true).phys s.dirs = s.upte := ho.entries
  have hshows : ShowsEntries s.dirs s.mem.kernPgdir s.upte (m₁.markUser p true) :=
    ⟨⟨_, ho.vm⟩, hkern, hentries⟩
  simp only [hpgdir]
  dsimp only at h
  rcases ho.vm.pageInsertActs hd (vaOk_lt hva) (Function.update_self _ _ _) (permOk_isFlags hperm)
    (by rw [hentries]; exact hx.small.spare e (PGNUM va)) hins with ⟨-, -, hacts, hno⟩ |
      ⟨rfl, hm, hacts⟩
  · rw [hacts]
    refine .inl ⟨fun m hm => ?_, fun hlist => hno (by rw [hentries]; exact hlist.2)⟩
    simp only [List.mem_singleton, TlbAct.store.injEq] at hm
    exact hm ▸ hshows
  · rw [if_neg (by decide)] at h
    cases h
    rw [hentries, hkern] at hm hacts
    exact .inr ⟨d, p, _, _, hd, ha.free, rfl, ⟨rfl, hm⟩, rfl, hshows, hacts⟩

/-- `sys_page_map`, past its checks, has no memory for a table, or writes the entry of the page that
it finds. -/
theorem sysPageMap_tlb {srcenvid srcva dstenvid dstva : Word} {e₁ e₂ : ℕ} (hx : (s.vmState k).Sound)
    (hargs : pageMapArgs s cur srcenvid srcva dstenvid dstva perm = .ok (e₁, e₂))
    (hlook : ∀ d, s.dirs e₁ = some d → ¬ EmptyEntry s.mem d srcva)
    (h : sysPageMap s cur srcenvid srcva dstenvid dstva perm = .ok (r, s')) :
    sysPageMapActs s cur srcenvid srcva dstenvid dstva perm = [] ∧
      test (s.upte e₂ (PGNUM dstva)) PTE_P ≠ true ∨
      ∃ d p, s.dirs e₂ = some d ∧ Names (s.upte e₁ (PGNUM srcva)) p ∧ r = 0 ∧
        Wrote s e₂ p dstva perm s' ∧
        Inserts s.dirs s.mem.kernPgdir s.upte e₂ d p dstva s'.mem
          (sysPageMapActs s cur srcenvid srcva dstenvid dstva perm) := by
  simp only [sysPageMap, hargs] at h
  simp only [sysPageMapActs, hargs]
  obtain ⟨d₁, hd₁, h⟩ := bind_eq_ok.mp h
  obtain ⟨o, ho, h⟩ := bind_eq_ok.mp h
  obtain ⟨⟨page, pte⟩, hpage, h⟩ := bind_eq_ok.mp h
  have hpgdir₁ : (s.envs e₁).envPgdir = some d₁ := deref_eq_some hd₁
  have ho : pageLookup s.mem d₁ srcva = .ok (some (page, pte)) := by rw [ho, deref_eq_some hpage]
  have hro : ¬ (s.mem.word pte &&& PTE_W = 0 ∧ perm &&& PTE_W = 1) := by
    rintro ⟨-, hw⟩
    have hbit := congrArg (fun w => w.getLsbD 0) hw
    simp [PTE_W] at hbit
  dsimp only at h
  rw [if_neg hro] at h
  obtain ⟨d₂, hd₂, h⟩ := bind_eq_ok.mp h
  obtain ⟨⟨flag, m⟩, hins, h⟩ := bind_eq_ok.mp h
  have hpgdir₂ : (s.envs e₂).envPgdir = some d₂ := deref_eq_some hd₂
  obtain ⟨hsrc, hdst, hperm⟩ := pageMapArgs_ok hargs
  obtain ⟨hn, -⟩ := pageLookup_names (x := s.vmState k) hx hpgdir₁ (vaOk_lt hsrc)
    (hlook d₁ hpgdir₁) ho
  simp only [hpgdir₁, hpgdir₂, ho, if_neg hro]
  dsimp only at h
  rcases hx.vm.pageInsertActs hpgdir₂ (vaOk_lt hdst) (hx.vm.tables.data_of_names hn)
    (permOk_isFlags hperm)
    (hx.small.spare _ _) hins with ⟨-, -, hacts, hno⟩ | ⟨rfl, hm, hacts⟩
  · exact .inl ⟨hacts, hno⟩
  · rw [if_neg (by decide)] at h
    cases h
    exact .inr ⟨d₂, page, hpgdir₂, hn, rfl, ⟨rfl, hm⟩, hacts⟩

/-- `sys_page_unmap`, past its checks, finds no table, or clears the entry. -/
theorem sysPageUnmap_tlb {envid : Word} (hx : (s.vmState k).Sound)
    (henv : envid2env s cur envid true = some e)
    (hva : vaOk va = true) (hlook : ∀ d, s.dirs e = some d → ¬ EmptyEntry s.mem d va)
    (h : sysPageUnmap s cur envid va = .ok (r, s')) :
    sysPageUnmapActs s cur envid va = [] ∧ test (s.upte e (PGNUM va)) PTE_P ≠ true ∨
      ∃ d, s.dirs e = some d ∧ r = 0 ∧ s'.dirs = s.dirs ∧
        ShowsEntries s.dirs s.mem.kernPgdir (setAt s.upte e (PGNUM va) 0) s'.mem ∧
        sysPageUnmapActs s cur envid va = [.store s'.mem, .invalidate d va] := by
  simp only [sysPageUnmap, henv, hva, Bool.not_true, Bool.false_eq_true, if_false] at h
  simp only [sysPageUnmapActs, henv, hva, Bool.not_true, Bool.false_eq_true, if_false]
  obtain ⟨d, hd, h⟩ := bind_eq_ok.mp h
  obtain ⟨m, hrem, h⟩ := bind_eq_ok.mp h
  have hpgdir : (s.envs e).envPgdir = some d := deref_eq_some hd
  simp only [hpgdir]
  cases h
  by_cases hP : test (s.upte e (PGNUM va)) PTE_P = true
  · obtain ⟨m', hrem', hacts, hm⟩ := hx.vm.pageRemoveActs (e := e) (d := d) hpgdir (vaOk_lt hva)
      ⟨hP, rfl⟩ (hx.small.spare _ _)
    have hrem' : pageRemove s.mem d va = .ok m' := hrem'
    rw [hrem] at hrem'
    cases hrem'
    exact .inr ⟨d, hpgdir, rfl, rfl, hm, hacts⟩
  · refine .inl ⟨?_, hP⟩
    -- there is no table
    obtain ⟨o, ho⟩ : ∃ o, pageLookup s.mem d va = .ok o :=
      hx.vm.pageLookup_ok hpgdir (vaOk_lt hva) (hlook d hpgdir)
    cases o with
    | none => rw [pageRemoveActs, ho]
    | some y => exact absurd (pageLookup_names (x := s.vmState k) hx hpgdir (vaOk_lt hva)
      (hlook d hpgdir) ho).1.1 hP

/-- `sys_ipc_try_send` of a page finds that it cannot be sent, or writes the entry of the page that
it finds. -/
theorem sysIpcTrySend_tlb {envid value srcva : Word} (hx : (s.vmState k).Sound)
    (hargs : ipcSendArgs s cur envid = .ok e)
    (hva : srcva < UTOP) (hlook : ∀ d, s.dirs cur = some d → ¬ EmptyEntry s.mem d srcva)
    (h : sysIpcTrySend s cur envid value srcva perm = .ok (r, s')) :
    sysIpcTrySendActs s cur envid srcva perm = [] ∧
        ¬ ((s.envs e).envIpcDstva < UTOP ∧ ipcPageOk (s.upte cur (PGNUM srcva)) srcva perm = true ∧
          test (s.upte cur (PGNUM srcva)) PTE_P = true ∧
          test (s.upte e (PGNUM (s.envs e).envIpcDstva)) PTE_P = true) ∨
      ∃ d p, s.dirs e = some d ∧ Names (s.upte cur (PGNUM srcva)) p ∧ r = 0 ∧
        Wrote s e p (s.envs e).envIpcDstva perm s' ∧
        (s.envs e).envIpcDstva < UTOP ∧ ipcPageOk (s.upte cur (PGNUM srcva)) srcva perm = true ∧
        Inserts s.dirs s.mem.kernPgdir s.upte e d p (s.envs e).envIpcDstva s'.mem
          (sysIpcTrySendActs s cur envid srcva perm) := by
  simp only [sysIpcTrySend, hargs, if_pos hva] at h
  simp only [sysIpcTrySendActs, hargs, if_pos hva]
  obtain ⟨⟨r₁, s₁⟩, hsend, h⟩ := bind_eq_ok.mp h
  simp only [ipcSendPage] at hsend
  obtain ⟨d, hd, hsend⟩ := bind_eq_ok.mp hsend
  obtain ⟨o, ho, hsend⟩ := bind_eq_ok.mp hsend
  have hpgdir : (s.envs cur).envPgdir = some d := deref_eq_some hd
  have hd : s.dirs cur = some d := hpgdir
  rw [hpgdir]
  cases hpgdir₂ : (s.envs e).envPgdir with
  | none =>
    refine .inl ⟨rfl, fun hok => ?_⟩
    obtain ⟨-, d₂, -, hd₂, -⟩ := hx.vm.tables.of_present hok.2.2.2
    have hd₂ : (s.envs e).envPgdir = some d₂ := hd₂
    rw [hpgdir₂] at hd₂
    cases hd₂
  | some d₂ =>
    cases o with
    | none =>
      -- no table
      refine .inl ⟨by simp only [ho], fun hok => ?_⟩
      obtain ⟨t, hsome, -⟩ := hx.vm.pageLookup_some (e := cur)
        (p := PGNUM (s.upte cur (PGNUM srcva))) hd hva ⟨hok.2.2.1, rfl⟩
      have hsome : pageLookup s.mem d srcva = _ := hsome
      rw [ho] at hsome
      cases hsome
    | some y =>
      obtain ⟨page, pte⟩ := y
      obtain ⟨hn, hword⟩ := pageLookup_names (x := s.vmState k) hx hd hva (hlook d hd) ho
      have hword : s.mem.word pte = s.upte cur (PGNUM srcva) := hword
      dsimp only at hsend
      rw [hword] at hsend
      simp only [ho, hword]
      by_cases hok : ipcPageOk (s.upte cur (PGNUM srcva)) srcva perm = true
      · by_cases hdst : (s.envs e).envIpcDstva < UTOP
        · simp only [hok, Bool.not_true, Bool.false_eq_true, if_false, if_pos hdst] at hsend ⊢
          obtain ⟨d₃, hd₃, hsend⟩ := bind_eq_ok.mp hsend
          have hd₃ : (s.envs e).envPgdir = some d₃ := deref_eq_some hd₃
          rw [hpgdir₂] at hd₃
          cases hd₃
          obtain ⟨⟨flag, m⟩, hins, hsend⟩ := bind_eq_ok.mp hsend
          dsimp only at hsend
          rcases hx.vm.pageInsertActs hpgdir₂ hdst (hx.vm.tables.data_of_names hn)
            (isFlags_of_ipcPageOk hok)
            (hx.small.spare _ _) hins with ⟨-, -, hacts, hno⟩ | ⟨rfl, hm, hacts⟩
          · exact .inl ⟨hacts, fun h => hno h.2.2.2⟩
          · rw [if_neg (by decide)] at hsend
            cases hsend
            rw [if_neg (show ¬ (0 : Word) ≠ 0 by decide)] at h
            cases h
            have hwrote : Wrote s e page (s.envs e).envIpcDstva perm { s with mem := m } :=
              ⟨rfl, hm⟩
            have hperm : SameSpaces { s with mem := m }
              (({ s with mem := m } : KState).setEnv e { s.envs e with envIpcPerm := perm }) :=
              sameSpaces_setEnv _ e _ rfl
            exact .inr ⟨d₂, page, hpgdir₂, hn, rfl,
              hwrote.same (hperm.trans (sameSpaces_deliver _ cur e value)), hdst, trivial, hacts⟩
        · -- the receiver wants no page
          refine .inl ⟨?_, fun h => hdst h.1⟩
          simp only [hok, Bool.not_true, Bool.false_eq_true, if_false, if_neg hdst]
      · -- it may not be sent so
        rw [Bool.not_eq_true] at hok
        refine .inl ⟨by simp only [hok, Bool.not_false, if_true], fun h => ?_⟩
        rw [hok] at h
        exact absurd h.2.1 (by simp)

end JOS
