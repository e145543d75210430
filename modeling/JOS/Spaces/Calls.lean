import JOS.Spaces.Touch
import JOS.Sched.Step

/-!
# Whose address space a kernel function writes

What every function of the kernel does to the address spaces, in one form (`Affects`):
it writes below `UTOP` of the environments it is asked to work on, and pages of the free
list, and no page directory is used that was not one before, but for a new one with the
kernel's half of `kern_pgdir`.
-/

namespace JOS

open JOS.General

open Function (update)

variable {s s' s₁ s₂ : KState} {m : Mem} {T T' : ℕ → Prop} {l : List ℕ} {B c cur d e p : ℕ}
  {r va : Word}

/-- The directory `d` is new: it has the kernel's half of `kern_pgdir`, and itself at `UVPT`. -/
structure NewDir (s s' : KState) (d : ℕ) : Prop where
  kern : ∀ i, NUPDX ≤ i → i ≠ PDX UVPT → s'.mem.phys d i = s.mem.phys s.mem.kernPgdir i
  uvpt : s'.mem.phys d (PDX UVPT) = page2pa d ||| PTE_P ||| PTE_U

/-- Since `s`, only the address spaces of the environments in `T` and pages of `l` have been
written. -/
structure Affects (T : ℕ → Prop) (l : List ℕ) (s s' : KState) : Prop where
  kernPgdir : s'.mem.kernPgdir = s.mem.kernPgdir
  words : ∀ q x, s'.mem.phys q x = s.mem.phys q x ∨ q ∈ l ∨ ∃ e d, T e ∧ s.dirs e = some d ∧
    Below s.mem.phys d q x
  dirs : ∀ e d, s'.dirs e = some d → s.dirs e = some d ∨ d ∈ l ∧ NewDir s s' d

/-- The address spaces are the same. -/
def SameSpaces (s s' : KState) : Prop := s'.mem = s.mem ∧ s'.dirs = s.dirs

theorem SameSpaces.refl (s : KState) : SameSpaces s s := ⟨rfl, rfl⟩

theorem SameSpaces.trans (h : SameSpaces s s₁) (h' : SameSpaces s₁ s') : SameSpaces s s' :=
  ⟨h'.1.trans h.1, h'.2.trans h.2⟩

theorem SameSpaces.affects (h : SameSpaces s s') : Affects T l s s' := by
  obtain ⟨hmem, hdirs⟩ := h
  refine ⟨by rw [hmem], fun q x => .inl (by rw [hmem]), fun e d hd => .inl ?_⟩
  rwa [hdirs] at hd

namespace Affects

theorem mono (h : Affects T l s s') (hT : ∀ e, T e → T' e) : Affects T' l s s' := by
  refine ⟨h.kernPgdir, fun q x => ?_, h.dirs⟩
  rcases h.words q x with hw | hq | ⟨e, d, he, hd, hb⟩
  · exact .inl hw
  · exact .inr (.inl hq)
  · exact .inr (.inr ⟨e, d, hT e he, hd, hb⟩)

/-- What follows does not matter. -/
theorem same (h : Affects T l s s₁) (hs : SameSpaces s₁ s') : Affects T l s s' := by
  obtain ⟨hmem, hdirs⟩ := hs
  refine ⟨by rw [hmem]; exact h.kernPgdir, by rw [hmem]; exact h.words, fun e d hd => ?_⟩
  rw [hdirs] at hd
  rcases h.dirs e d hd with hd | ⟨hl, hnew⟩
  · exact .inl hd
  · exact .inr ⟨hl, ⟨by rw [hmem]; exact hnew.kern, by rw [hmem]; exact hnew.uvpt⟩⟩

/-- What came before does not matter. -/
theorem of_same (hs : SameSpaces s s₁) (h : Affects T l s₁ s') : Affects T l s s' := by
  obtain ⟨hmem, hdirs⟩ := hs
  obtain ⟨hkern, hwords, hnew⟩ := h
  rw [hmem] at hkern
  rw [hmem, hdirs] at hwords
  rw [hdirs] at hnew
  refine ⟨hkern, hwords, fun e d hd => ?_⟩
  rcases hnew e d hd with hd | ⟨hl, hn⟩
  · exact .inl hd
  · have hk := hn.kern
    rw [hmem] at hk
    exact .inr ⟨hl, ⟨hk, hn.uvpt⟩⟩

/-- A function of the memory code for the directory of one environment. -/
theorem of_touched (h : Touched s.mem l d m) (he : T e) (hd : s.dirs e = some d) :
    Affects T l s { s with mem := m } := by
  refine ⟨h.kernPgdir, fun q x => ?_, fun e d hd => .inl hd⟩
  rcases h.words q x with hw | hq | hb
  · exact .inl hw
  · exact .inr (.inl hq)
  · exact .inr (.inr ⟨e, d, he, hd, hb⟩)

end Affects

/-- The free list is a list, and no page on it is in use as a page directory or a page table. -/
structure Apart (s : KState) (l : List ℕ) : Prop where
  list : FreeList s.mem l
  kernPgdir : s.mem.kernPgdir ∉ l
  used : ∀ p, InUse s.mem.phys s.dirs p → p ∉ l

theorem Apart.same (h : Apart s l) (hs : SameSpaces s s') : Apart s' l := by
  obtain ⟨hmem, hdirs⟩ := hs
  refine ⟨by rw [hmem]; exact h.list, by rw [hmem]; exact h.kernPgdir, ?_⟩
  rw [hmem, hdirs]
  exact h.used

/-! ### Translation -/

/-- What the hardware finds at `va` in the address space of `e`. -/
def translateOf (s : KState) (e : ℕ) (va : Word) : Option Word :=
  (s.dirs e).bind fun d => translate s.mem d va

theorem SameSpaces.translateOf (h : SameSpaces s s') :
    translateOf s' e va = translateOf s e va := by
  rw [JOS.translateOf, JOS.translateOf, h.1, h.2]

/-- **An address space that is not written** translates as before. -/
theorem Affects.translateOf (h : Affects T l s s') (hl : Apart s l)
    (hun : Unshared s.mem.phys s.dirs)
    (hdir : s'.dirs B = s.dirs B) (hB : ¬ T B) (hva : va < UTOP) :
    translateOf s' B va = translateOf s B va := by
  rw [JOS.translateOf, JOS.translateOf, hdir]
  cases hd : s.dirs B with
  | none => rfl
  | some d =>
    -- a word that is in use, and not below `UTOP` of an address space that is written
    have hword : ∀ q, q ∉ l →
        (∀ e d', e ≠ B → s.dirs e = some d' → ∀ x, ¬ Below s.mem.phys d' q x) →
        ∀ x, s'.mem.phys q x = s.mem.phys q x := by
      intro q hq hbelow x
      rcases h.words q x with hw | hql | ⟨e, d', he, hd', hb⟩
      · exact hw
      · exact absurd hql hq
      · have heB : e ≠ B := by
          rintro rfl
          exact hB he
        exact absurd hb (hbelow e d' heB hd' x)
    have hdword := hword d (hl.used d (.inl ⟨B, hd⟩)) fun e d' he hd' =>
      (hun.not_below hd' hd he.symm).1
    refine translate_congr (fun t => by rw [hdword]) fun t ht => ?_
    · have htable : TableOf s.mem.phys s.dirs B (PDX va) t := ⟨d, hd, PDX_lt_of_lt hva, ht⟩
      refine hword t (hl.used t (.inr ⟨B, _, htable⟩)) (fun e d' he hd' => ?_) _
      exact (hun.not_below hd' hd he.symm).2 _ t htable

/-! ### Scheduling -/

/-- A change to a record that is not about its directory. -/
theorem sameSpaces_setEnv (s : KState) (e : ℕ) (x : Env) (hx : x.envPgdir = (s.envs e).envPgdir) :
    SameSpaces s (s.setEnv e x) := by
  refine ⟨rfl, ?_⟩
  funext e'
  by_cases hee : e' = e
  · subst hee
    rw [KState.dirs, KState.dirs, KState.setEnv_envs_self, hx]
  · simp [KState.dirs, KState.setEnv, Function.update_of_ne hee]

/-- The result of a system call does not change address spaces. -/
theorem sameSpaces_returned (s : KState) (cur : ℕ) (r : Word) : SameSpaces s (returned s cur r) :=
  sameSpaces_setEnv s cur _ rfl

theorem trapEntry_spaces (s : KState) (c cur : ℕ) (t : TrapIn) :
    SameSpaces s (trapEntry s c cur t) :=
  (show SameSpaces s (s.setCpu c { s.cpus c with cpuStatus := .started }) from ⟨rfl, rfl⟩).trans
    (sameSpaces_setEnv _ _ _ rfl)

/-- A system call starts with the address spaces of the state it is made in. -/
theorem SysCall.spaces {ev : Event} {cur : ℕ} {a : SysArgs} (hcall : SysCall s ev c cur a s₁) :
    SameSpaces s s₁ := by
  obtain ⟨t, -, -, -, -, -, rfl⟩ := hcall
  exact trapEntry_spaces s.reset c cur t

theorem sameSpaces_setStatus (s : KState) (e : ℕ) (st : EnvStatus) :
    SameSpaces s (s.setStatus e st) :=
  sameSpaces_setEnv s e { s.envs e with envStatus := st } rfl

theorem sameSpaces_log (s : KState) (a : Act) : SameSpaces s (s.log a) := ⟨rfl, rfl⟩

theorem sameSpaces_setCurenv (s : KState) (c : ℕ) (o : Option ℕ) :
    SameSpaces s (s.setCurenv c o) := ⟨rfl, rfl⟩

theorem sameSpaces_release (s : KState) (c : ℕ) : SameSpaces s (release s c) := by
  unfold release
  split
  · split_ifs
    · exact sameSpaces_setEnv _ _ _ rfl
    · exact .refl s
  · exact .refl s

theorem envRun_spaces (h : envRun s c e = .gone s') : SameSpaces s s' := by
  have hrel : SameSpaces s ((release (s.log (.run c e)) c).setCurenv c (some e)) :=
    (sameSpaces_release (s.log (.run c e)) c).trans (sameSpaces_setCurenv _ c (some e))
  simp only [envRun] at h
  generalize (release (s.log (.run c e)) c).setCurenv c (some e) = s₁ at h hrel
  have hset : SameSpaces s₁
    (s₁.setEnv e { s₁.envs e with envStatus := .running, envRuns := (s₁.envs e).envRuns + 1 }) :=
    sameSpaces_setEnv s₁ e _ rfl
  generalize s₁.setEnv e { s₁.envs e with
    envStatus := .running, envRuns := (s₁.envs e).envRuns + 1 } = s₂ at h hset
  split at h
  · cases h
  · rename_i pgdir hd
    cases h
    have hcpu : SameSpaces s₂ ((s₂.lcr3 c pgdir).setEnv e { s₂.envs e with envCpunum := c }) :=
      (show SameSpaces s₂ (s₂.lcr3 c pgdir) from ⟨rfl, rfl⟩).trans (sameSpaces_setEnv _ _ _ rfl)
    exact (hrel.trans hset).trans hcpu

theorem schedHalt_spaces (h : schedHalt s c = .gone s') : SameSpaces s s' := by
  rw [schedHalt] at h
  split_ifs at h
  cases h
  exact ⟨rfl, rfl⟩

theorem schedYield_spaces (h : schedYield s c = .gone s') : SameSpaces s s' := by
  rcases schedYield_cases h with ⟨e, -, h⟩ | ⟨-, e, -, -, h⟩ | ⟨-, -, h⟩
  · exact envRun_spaces h
  · exact envRun_spaces h
  · exact schedHalt_spaces h

theorem trapReturn_spaces (h : trapReturn s c = .gone s') : SameSpaces s s' := by
  rcases trapReturn_cases h with ⟨e, -, -, h⟩ | h
  · exact envRun_spaces h
  · exact schedYield_spaces h

theorem sameSpaces_blocked (s : KState) (cur : ℕ) (dstva : Word) :
    SameSpaces s (blocked s cur dstva) :=
  (sameSpaces_setEnv s cur { s.envs cur with
    envIpcRecving := true, envStatus := .notRunnable, envIpcDstva := dstva } rfl).trans
      (sameSpaces_log _ _)

/-! ### `env_free` and `env_destroy` -/

theorem deref_eq_some {α : Type} {o : Option α} {a : α} (h : deref o = .ok a) : o = some a := by
  cases o with
  | none => cases h
  | some b =>
    cases h
    rfl

theorem envFree_affects (h : envFree s c e = .ok s') : Affects (· = e) l s s' := by
  simp only [envFree, bind_eq_ok, pure_eq_ok, Except.ok.injEq] at h
  obtain ⟨pgdir, hd, m, hm, rfl⟩ := h
  have hlcr3 : SameSpaces s (if (s.log (.free c e)).curenv c = some e then
      (s.log (.free c e)).lcr3 c (s.log (.free c e)).mem.kernPgdir else s.log (.free c e)) := by
    split_ifs <;> exact ⟨rfl, rfl⟩
  generalize (if (s.log (.free c e)).curenv c = some e then
    (s.log (.free c e)).lcr3 c (s.log (.free c e)).mem.kernPgdir else s.log (.free c e)) =
      s₁ at hlcr3 hd hm ⊢
  refine Affects.of_same hlcr3 ⟨(envFreeVm_cleared hm).kernPgdir, fun q x => ?_,
    fun e' d hd' => .inl ?_⟩
  · rcases (envFreeVm_cleared hm).words q x with hw | ⟨-, hb⟩
    · exact .inl hw
    · exact .inr (.inr ⟨e, pgdir, rfl, deref_eq_some hd, hb⟩)
  · by_cases hee : e' = e
    · subst hee
      simp [KState.dirs, KState.setEnv] at hd'
    · simpa [KState.dirs, KState.setEnv, Function.update_of_ne hee] using hd'

/-- `env_destroy`, whether it comes back or not. -/
theorem envDestroy_affects (h : envDestroy s c e = .ok s' ∨ envDestroy s c e = .error (.gone s')) :
    Affects (· = e) l s s' := by
  rcases h with h | h
  · obtain ⟨-, ⟨-, rfl⟩ | ⟨-, hfree⟩⟩ := envDestroy_ok h
    · exact ((sameSpaces_setStatus s e .dying).trans (sameSpaces_log _ _)).affects
    · exact envFree_affects hfree
  · obtain ⟨-, s₁, hfree, h⟩ := envDestroy_gone h
    have hs : SameSpaces s₁ ((s₁.setCurenv c none).log (.clear c)) := sameSpaces_setCurenv s₁ c none
    exact (envFree_affects hfree).same (hs.trans (schedYield_spaces h))

/-- `user_mem_assert` may destroy its environment. -/
theorem userMemAssert_affects {va len perm : Word}
    (h : userMemAssert s c cur va len perm = .ok s') :
    Affects (· = cur) l s s' := by
  rcases userMemAssert_ok h with rfl | h
  · exact (SameSpaces.refl _).affects
  · exact envDestroy_affects (.inl h)

theorem sysCputs_affects {str len : Word} (h : sysCputs s c cur str len = .ok s') :
    Affects (· = cur) l s s' := by
  obtain ⟨s₁, hassert, h⟩ := bind_eq_ok.mp h
  split at h
  · cases h
    exact userMemAssert_affects hassert
  · cases h

/-! ### New environments -/

theorem envSetupVm_affects (hs : Apart s l) (h : envSetupVm s e = .ok (r, s')) :
    Affects T l s s' := by
  obtain ⟨⟨o, m₁⟩, halloc, h₁⟩ := bind_eq_ok.mp h
  rcases pageAlloc_list hs.list halloc with ⟨rfl, rfl⟩ | ⟨p, t, rfl, rfl, -, hbase, -, hphys⟩
  · cases h₁
    exact (SameSpaces.refl s).affects
  obtain ⟨pgdir, hkaddr, h₂⟩ := bind_eq_ok.mp h₁
  have hp : p < 2 ^ 20 := hs.list.lt p List.mem_cons_self
  have hkp : s.mem.kernPgdir ≠ p := fun h => hs.kernPgdir (h ▸ List.mem_cons_self)
  rw [kaddr, PGNUM_page2pa hp] at hkaddr
  split_ifs at hkaddr
  cases hkaddr
  cases h₂
  rw [if_pos rfl] at hphys
  -- the words of the new directory
  have hdir : ∀ i, i ≠ PDX UVPT → (setW (update m₁.phys p (m₁.phys m₁.kernPgdir)) p (PDX UVPT)
      (page2pa p ||| PTE_P ||| PTE_U)) p i = s.mem.phys s.mem.kernPgdir i := by
    intro i hi
    rw [setW_of_ne_index hi, Function.update_self, hbase.kernPgdir, hphys,
      Function.update_of_ne hkp]
  refine ⟨hbase.kernPgdir, fun q x => ?_, fun e' d hd => ?_⟩
  · by_cases hq : q = p
    · exact .inr (.inl (hq ▸ List.mem_cons_self))
    · refine .inl ?_
      have hw : (setW (update m₁.phys p (m₁.phys m₁.kernPgdir)) p (PDX UVPT)
          (page2pa p ||| PTE_P ||| PTE_U)) q x =
          s.mem.phys q x := by rw [setW_of_ne hq, Function.update_of_ne hq, hphys,
            Function.update_of_ne hq]
      exact hw
  · by_cases hee : e' = e
    · subst hee
      have hd : some p = some d := by simpa [KState.dirs, KState.setEnv] using hd
      cases hd
      exact .inr ⟨List.mem_cons_self, ⟨fun i _ hi => hdir i hi, setW_self⟩⟩
    · refine .inl ?_
      simpa [KState.dirs, KState.setEnv, Function.update_of_ne hee] using hd

theorem envAlloc_affects {parentId : Word} {y : Except Word ℕ} (hs : Apart s l)
    (h : envAlloc s parentId = .ok (y, s')) :
    Affects T l s s' := by
  rw [envAlloc] at h
  cases hfl : s.envFreeList with
  | none =>
    simp only [hfl] at h
    cases h
    exact (SameSpaces.refl s).affects
  | some e =>
    simp only [hfl] at h
    obtain ⟨⟨r₁, s₁⟩, hvm, h⟩ := bind_eq_ok.mp h
    dsimp only at h
    have haff := envSetupVm_affects (T := T) hs hvm
    split_ifs at h with hr
    · cases h
      exact haff
    · cases h
      exact haff.same (sameSpaces_setEnv s₁ e _ rfl)

theorem sysExofork_affects (hs : Apart s l) (h : sysExofork s cur = .ok (r, s')) :
    Affects T l s s' := by
  obtain ⟨⟨y, s₁⟩, halloc, h⟩ := bind_eq_ok.mp h
  have haff := envAlloc_affects (T := T) hs halloc
  cases y with
  | error w =>
    cases h
    exact haff
  | ok e =>
    cases h
    have hlog : SameSpaces s₁ ((s₁.setStatus e .notRunnable).log (.alloc e .notRunnable)) :=
      (sameSpaces_setStatus s₁ e .notRunnable).trans (sameSpaces_log _ _)
    exact (haff.same hlog).same (sameSpaces_setEnv _ e _ rfl)

/-! ### Mapping pages -/

/-- Clearing a page that is not in use does not change what a directory names. -/
theorem below_update {phys : ℕ → ℕ → Word} {f : ℕ → Word} {q x : ℕ} (hdp : d ≠ p)
    (h : Below (update phys p f) d q x) :
    Below phys d q x := by
  rcases h with h | ⟨i, hi, hn⟩
  · exact .inl h
  · rw [Function.update_of_ne hdp] at hn
    exact .inr ⟨i, hi, hn⟩

theorem sysPageAlloc_affects {envid va perm : Word} (hs : Apart s l)
    (h : sysPageAlloc s cur envid va perm = .ok (r, s')) :
    Affects (fun e => envid2env s cur envid true = some e) l s s' := by
  simp only [sysPageAlloc] at h
  cases henv : envid2env s cur envid true with
  | none =>
    simp only [henv] at h
    cases h
    exact (SameSpaces.refl s).affects
  | some e =>
    simp only [henv] at h
    split_ifs at h with hva hperm
    · cases h
      exact (SameSpaces.refl s).affects
    · cases h
      exact (SameSpaces.refl s).affects
    obtain ⟨⟨o, m₁⟩, halloc, h⟩ := bind_eq_ok.mp h
    rcases pageAlloc_list hs.list halloc with ⟨rfl, rfl⟩ | ⟨p, t, rfl, rfl, ht, hbase, -, hphys⟩
    · cases h
      exact (SameSpaces.refl s).affects
    obtain ⟨pgdir, hd, h⟩ := bind_eq_ok.mp h
    obtain ⟨⟨flag, m₂⟩, hins, h⟩ := bind_eq_ok.mp h
    have hd : s.dirs e = some pgdir := deref_eq_some hd
    have hdp : pgdir ≠ p := by
      rintro rfl
      exact hs.used pgdir (.inl ⟨e, hd⟩) List.mem_cons_self
    have hva : va < UTOP := by
      rw [vaOk] at hva
      simp at hva
      exact hva.1
    have htouch : Touched (m₁.markUser p true) t pgdir m₂ :=
      pageInsert_touched ⟨ht.chain, ht.lt⟩ hva hins
    -- the page, and what `page_insert` writes
    have hall : Touched s.mem (p :: t) pgdir m₂ := by
      refine ⟨htouch.kernPgdir.trans hbase.kernPgdir, fun q x => ?_⟩
      have hm₁ : (m₁.markUser p true).phys = update s.mem.phys p fun _ => 0 := by
        rw [if_pos rfl] at hphys
        exact hphys
      have hwords := htouch.words
      rw [hm₁] at hwords
      by_cases hq : q = p
      · exact .inr (.inl (hq ▸ List.mem_cons_self))
      rcases hwords q x with hw | hqt | hb
      · rw [Function.update_of_ne hq] at hw
        exact .inl hw
      · exact .inr (.inl (List.mem_cons_of_mem _ hqt))
      · exact .inr (.inr (below_update hdp hb))
    dsimp only at h
    split_ifs at h
    · obtain ⟨m₃, hfree, h⟩ := bind_eq_ok.mp h
      cases h
      have hkern : m₃.kernPgdir = m₂.kernPgdir := by
        rw [pageFree] at hfree
        split_ifs at hfree
        cases hfree
        rfl
      refine Affects.of_touched (d := pgdir) ⟨hkern.trans hall.kernPgdir, ?_⟩ (e := e) rfl hd
      rw [pageFree_phys hfree]
      exact hall.words
    · cases h
      exact Affects.of_touched hall (e := e) rfl hd

/-- The two environments of `sys_page_map`. -/
theorem pageMapArgs_eq {srcenvid srcva dstenvid dstva perm : Word} {e₁ e₂ : ℕ}
    (h : pageMapArgs s cur srcenvid srcva dstenvid dstva perm = .ok (e₁, e₂)) :
    envid2env s cur srcenvid true = some e₁ ∧ envid2env s cur dstenvid true = some e₂ ∧
        dstva < UTOP := by
  rw [pageMapArgs] at h
  split at h
  · rename_i h₁ h₂
    split_ifs at h with hs hd hp
    cases h
    refine ⟨h₁, h₂, ?_⟩
    rw [vaOk] at hd
    simp at hd
    exact hd.1
  · cases h

theorem sysPageMap_affects {srcenvid srcva dstenvid dstva perm : Word} (hs : Apart s l)
    (h : sysPageMap s cur srcenvid srcva dstenvid dstva perm = .ok (r, s')) :
    Affects (fun e => envid2env s cur dstenvid true = some e) l s s' := by
  simp only [sysPageMap] at h
  cases hargs : pageMapArgs s cur srcenvid srcva dstenvid dstva perm with
  | error w =>
    simp only [hargs] at h
    cases h
    exact (SameSpaces.refl s).affects
  | ok es =>
    obtain ⟨e₁, e₂⟩ := es
    simp only [hargs] at h
    obtain ⟨pgdir₁, -, h⟩ := bind_eq_ok.mp h
    obtain ⟨o, -, h⟩ := bind_eq_ok.mp h
    obtain ⟨⟨page, pte⟩, -, h⟩ := bind_eq_ok.mp h
    dsimp only at h
    split_ifs at h
    · cases h
      exact (SameSpaces.refl s).affects
    obtain ⟨pgdir₂, hd, h⟩ := bind_eq_ok.mp h
    obtain ⟨⟨flag, m⟩, hins, h⟩ := bind_eq_ok.mp h
    obtain ⟨-, henv, hva⟩ := pageMapArgs_eq hargs
    have haff : Affects (fun e => envid2env s cur dstenvid true = some e) l s { s with mem := m } :=
      Affects.of_touched (pageInsert_touched hs.list hva hins) henv (deref_eq_some hd)
    dsimp only at h
    split_ifs at h <;> (cases h; exact haff)

theorem sysPageUnmap_affects {envid va : Word} (h : sysPageUnmap s cur envid va = .ok (r, s')) :
    Affects (fun e => envid2env s cur envid true = some e) l s s' := by
  simp only [sysPageUnmap] at h
  cases henv : envid2env s cur envid true with
  | none =>
    simp only [henv] at h
    cases h
    exact (SameSpaces.refl s).affects
  | some e =>
    simp only [henv] at h
    split_ifs at h with hva
    · cases h
      exact (SameSpaces.refl s).affects
    obtain ⟨pgdir, hd, h⟩ := bind_eq_ok.mp h
    obtain ⟨m, hrem, h⟩ := bind_eq_ok.mp h
    cases h
    rw [vaOk] at hva
    simp at hva
    exact Affects.of_touched (pageRemove_touched hva.1 hrem l) (e := e) rfl (deref_eq_some hd)

/-! ### IPC -/

theorem ipcSendPage_affects {srcva perm : Word} (hs : Apart s l)
    (h : ipcSendPage s cur e srcva perm = .ok (r, s')) :
    Affects (· = e) l s s' := by
  simp only [ipcSendPage] at h
  obtain ⟨pgdir, -, h⟩ := bind_eq_ok.mp h
  obtain ⟨o, -, h⟩ := bind_eq_ok.mp h
  cases o with
  | none =>
    cases h
    exact (SameSpaces.refl s).affects
  | some y =>
    obtain ⟨pg, pte⟩ := y
    dsimp only at h
    split_ifs at h with hok hva
    · cases h
      exact (SameSpaces.refl s).affects
    · obtain ⟨dst, hd, h⟩ := bind_eq_ok.mp h
      obtain ⟨⟨flag, m⟩, hins, h⟩ := bind_eq_ok.mp h
      have haff : Affects (· = e) l s { s with mem := m } :=
        Affects.of_touched (pageInsert_touched hs.list hva hins) rfl (deref_eq_some hd)
      dsimp only at h
      split_ifs at h
      · cases h
        exact haff
      · cases h
        exact haff.same (sameSpaces_setEnv _ e _ rfl)
    · cases h
      exact (SameSpaces.refl s).affects

theorem sameSpaces_deliver (s : KState) (cur e : ℕ) (value : Word) :
    SameSpaces s (ipcDeliver s cur e value) :=
  (sameSpaces_setEnv s e { s.envs e with
    envIpcRecving := false
    envIpcFrom := (s.envs cur).envId
    envIpcValue := value
    envStatus := .runnable
    envTf := { (s.envs e).envTf with tfRegs := { (s.envs e).envTf.tfRegs with regEax := 0 } } }
      rfl).trans
    (sameSpaces_log _ _)

theorem sysIpcTrySend_affects {envid value srcva perm : Word} (hs : Apart s l)
    (h : sysIpcTrySend s cur envid value srcva perm = .ok (r, s')) :
    Affects (fun e => ipcSendArgs s cur envid = .ok e) l s s' := by
  simp only [sysIpcTrySend] at h
  cases hargs : ipcSendArgs s cur envid with
  | error w =>
    simp only [hargs] at h
    cases h
    exact (SameSpaces.refl s).affects
  | ok e =>
    have hmono : ∀ {s₁}, Affects (· = e) l s s₁ →
      Affects (fun e' => (Except.ok e : Except Word ℕ) = .ok e') l s s₁ :=
      fun h => h.mono fun e' he => congrArg Except.ok he.symm
    simp only [hargs] at h
    split_ifs at h with hva
    · obtain ⟨⟨r₁, s₁⟩, hpage, h⟩ := bind_eq_ok.mp h
      have haff := ipcSendPage_affects hs hpage
      dsimp only at h
      split_ifs at h
      · cases h
        exact hmono haff
      · cases h
        exact hmono (haff.same (sameSpaces_deliver s₁ cur e value))
    · cases h
      exact (sameSpaces_deliver s cur e value).affects

/-! ### System calls -/

/-- The environments a system call by `cur` may work on: those that `envid2env` lets through when it
checks permissions, and the receiver of a message. -/
def Target (s : KState) (cur : ℕ) (a : SysArgs) (e : ℕ) : Prop :=
  (∃ envid, envid2env s cur envid true = some e) ∨
    SysNo.ofWord a.no = some .ipcTrySend ∧ ipcSendArgs s cur a.a1 = .ok e

theorem target_self (s : KState) (cur : ℕ) (a : SysArgs) : Target s cur a cur :=
  .inl ⟨0, if_pos rfl⟩

variable {a : SysArgs}

/-- **A system call that returns** affects its targets only. -/
theorem syscall_affects (hs : Apart s l) (h : syscall s c cur a =
    .ok (r, s')) : Affects (Target s cur a) l s s' := by
  rw [syscall] at h
  cases hno : SysNo.ofWord a.no with
  | none =>
    simp only [hno] at h
    cases h
    exact (SameSpaces.refl s).affects
  | some no =>
    simp only [hno] at h
    cases no with
    | cputs =>
      obtain ⟨s₁, hputs, h⟩ := bind_eq_ok.mp h
      cases h
      exact (sysCputs_affects hputs).mono fun e he => he ▸ target_self s cur a
    | envDestroy =>
      rw [sysEnvDestroy] at h
      cases henv : envid2env s cur a.a1 true with
      | none =>
        simp only [henv] at h
        cases h
        exact (SameSpaces.refl s).affects
      | some e =>
        simp only [henv] at h
        obtain ⟨s₁, hd, h⟩ := bind_eq_ok.mp h
        cases h
        exact (envDestroy_affects (.inl hd)).mono fun e' he => .inl ⟨a.a1, he ▸ henv⟩
    | pageAlloc =>
      exact (sysPageAlloc_affects hs (liftStop_eq_ok.mp h)).mono fun e he => .inl ⟨_, he⟩
    | pageMap =>
      exact (sysPageMap_affects hs (liftStop_eq_ok.mp h)).mono fun e he => .inl ⟨_, he⟩
    | pageUnmap =>
      exact (sysPageUnmap_affects (liftStop_eq_ok.mp h)).mono fun e he => .inl ⟨_, he⟩
    | exofork => exact sysExofork_affects hs (liftStop_eq_ok.mp h)
    | ipcTrySend => exact (sysIpcTrySend_affects hs
      (liftStop_eq_ok.mp h)).mono fun e he => .inr ⟨hno, he⟩
    | envSetStatus =>
      simp only [Except.ok.injEq, sysEnvSetStatus] at h
      cases hst : statusArg a.a2 with
      | none =>
        simp only [hst] at h
        cases h
        exact (SameSpaces.refl s).affects
      | some st =>
        simp only [hst] at h
        cases henv : envid2env s cur a.a1 true with
        | none =>
          simp only [henv] at h
          cases h
          exact (SameSpaces.refl s).affects
        | some e =>
          simp only [henv] at h
          cases h
          exact ((sameSpaces_setStatus s e st).trans (sameSpaces_log _ _)).affects
    | envSetPgfaultUpcall =>
      simp only [Except.ok.injEq, sysEnvSetPgfaultUpcall] at h
      cases henv : envid2env s cur a.a1 true with
      | none =>
        simp only [henv] at h
        cases h
        exact (SameSpaces.refl s).affects
      | some e =>
        simp only [henv] at h
        cases h
        exact (sameSpaces_setEnv s e { s.envs e with envPgfaultUpcall := a.a2 } rfl).affects
    | ipcRecv =>
      rw [sysIpcRecv] at h
      split_ifs at h
      cases h
      exact (SameSpaces.refl s).affects
    | yield => cases h
    | cgetc =>
      cases h
      exact (SameSpaces.refl s).affects
    | getenvid =>
      cases h
      exact (SameSpaces.refl s).affects

/-- **A system call that does not return**, too. -/
theorem syscall_gone_affects (h : syscall s c cur a = .error (.gone s')) :
    Affects (Target s cur a) l s s' := by
  rcases syscall_gone_cases h with ⟨-, h⟩ | ⟨-, -, h⟩ | ⟨e, -, henv, h⟩ | ⟨-, h⟩
  · exact (schedYield_spaces h).affects
  · exact ((sameSpaces_blocked s cur a.a1).trans (schedYield_spaces h)).affects
  · exact (envDestroy_affects (.inr h)).mono fun e' he => .inl ⟨a.a1, he ▸ henv⟩
  · exact (envDestroy_affects (.inr h)).mono fun e he => he ▸ target_self s cur a

end JOS
