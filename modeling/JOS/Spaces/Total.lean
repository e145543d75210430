import JOS.Spaces.Work
import JOS.Sched.Loaded
import JOS.Sched.Teardown

/-!
# The kernel comes to its end

Where every environment that is not free has a page directory, and the address spaces
are sound, the functions that leave the kernel do leave it: the one way in which
`sched_yield` stops is the kernel monitor, which has the machine when no environment
is left that could run.
-/

namespace JOS

open JOS.General

variable {s s' s₁ : KState} {k : ℕ → Kind} {c cur e d : ℕ} {w : Stop} {p : Procs} {a : SysArgs}

theorem LiveOk.dirs (h : LiveOk s.procs) (he : s.status e ≠ .free) : ∃ d, s.dirs e = some d :=
  Option.isSome_iff_exists.mp (h e he)

theorem LiveOk.free (h : LiveOk p) : LiveOk (p.act (.free c e)) := by
  intro e' he'
  by_cases hee : e' = e
  · simp [Procs.act, hee] at he'
  · simp only [Procs.act, Function.update_of_ne hee] at he' ⊢
    exact h e' he'

/-- `env_run` of an environment that has a page directory. -/
theorem envRun_gone (hd : s.dirs e = some d) : ∃ s', envRun s c e = .gone s' := by
  have hs : SameSpaces s ((release (s.log (.run c e)) c).setCurenv c (some e)) :=
    (sameSpaces_release (s.log (.run c e)) c).trans (sameSpaces_setCurenv _ c (some e))
  generalize hs₁ : (release (s.log (.run c e)) c).setCurenv c (some e) = s₁ at hs
  have hd₁ : (s₁.envs e).envPgdir = some d := (congrFun hs.2 e).trans hd
  simp only [envRun, hs₁, KState.setEnv_envs_self, hd₁]
  exact ⟨_, rfl⟩

/-- `sched_yield` runs an environment, or halts, or gives the machine to the monitor, when there is
nothing to wait for. -/
theorem schedYield_stop (hlive : LiveOk s.procs) (h : schedYield s c = .stop w) : w = .monitor ∧
    ¬ Busy s := by
  have hhalt : schedHalt s c = .stop w → w = .monitor ∧ ¬ Busy s := by
    intro h
    rw [schedHalt] at h
    split_ifs at h with hnone
    cases h
    refine ⟨rfl, ?_⟩
    rintro ⟨e, he, hst⟩
    exact hnone (List.any_eq_true.mpr ⟨e, List.mem_range.mpr he, decide_eq_true hst⟩)
  have hrun : ∀ e, s.status e ≠ .free → envRun s c e ≠ .stop w := by
    intro e he hr
    obtain ⟨d, hd⟩ := hlive.dirs he
    obtain ⟨s', hgone⟩ := envRun_gone (c := c) hd
    rw [hgone] at hr
    cases hr
  rcases schedYield_cases h with ⟨e, hn, h⟩ | ⟨-, e, -, hr, h⟩ | ⟨-, -, h⟩
  · exact absurd h (hrun e (by rw [nextRunnable_runnable hn]; simp))
  · exact absurd h (hrun e (by rw [hr]; simp))
  · exact hhalt h

theorem trapReturn_stop (hlive : LiveOk s.procs) (h : trapReturn s c = .stop w) : w = .monitor ∧
    ¬ Busy s := by
  rcases trapReturn_cases h with ⟨e, -, hr, h⟩ | h
  · obtain ⟨d, hd⟩ := hlive.dirs (e := e) (by rw [hr]; simp)
    obtain ⟨s', hgone⟩ := envRun_gone (c := c) hd
    rw [hgone] at h
    cases h
  · exact schedYield_stop hlive h

/-- `env_free` of an environment that has a page directory. -/
theorem envFree_ok (hx : (s.vmState k).Sound) (hd : s.dirs e = some d) : ∃ s',
    envFree s c e = .ok s' := by
  obtain ⟨m, hm⟩ := hx.vm.envFreeVm_ok hx.small hd
  have hm : envFreeVm s.mem d = .ok m := hm
  have hs : SameSpaces s (if (s.log (.free c e)).curenv c = some e then (s.log (.free c e)).lcr3 c
      (s.log (.free c e)).mem.kernPgdir
      else s.log (.free c e)) := by
    split_ifs <;> exact ⟨rfl, rfl⟩
  simp only [envFree]
  generalize (if (s.log (.free c e)).curenv c = some e then (s.log (.free c e)).lcr3 c
      (s.log (.free c e)).mem.kernPgdir
      else s.log (.free c e)) = s₁ at hs ⊢
  have hd₁ : (s₁.envs e).envPgdir = some d := (congrFun hs.2 e).trans hd
  rw [hd₁, hs.1]
  simp only [deref, ok_bind, hm, pure_eq_ok]
  exact ⟨_, rfl⟩

/-- `env_free` of the environment of the CPU, and then `sched_yield`. -/
theorem exits_stop (hlive : LiveOk s.procs) (hfree : envFree s c e = .ok s₁)
    (h : schedYield ((s₁.setCurenv c none).log (.clear c)) c = .stop w) : w = .monitor := by
  refine (schedYield_stop ?_ h).1
  intro e' he'
  have hprocs : s₁.procs = s.procs.act (.free c e) := (envFree_acts hfree).1.1
  have hfree : LiveOk s₁.procs := by
    rw [hprocs]
    exact hlive.free
  exact hfree e' he'

/-- `env_destroy` of an environment that has a page directory. -/
theorem envDestroy_stop (hx : (s.vmState k).Sound) (hlive : LiveOk s.procs) (hd : s.dirs e = some d)
    (h : envDestroy s c e = .error (.stop w)) : w = .monitor := by
  rw [envDestroy] at h
  split_ifs at h
  obtain ⟨s₁, hfree⟩ := envFree_ok (c := c) hx hd
  simp only [hfree, liftStop, ok_bind] at h
  split_ifs at h
  · exact exits_stop hlive hfree (Except.error.inj h)
  · cases h

/-! ### System calls -/

/-- The environments that `envid2env` gives have a page directory, when the caller has one. -/
theorem LiveOk.envid2env {envid : Word} {checkperm : Bool} (hlive : LiveOk s.procs)
    (hd : s.dirs cur = some d)
    (h : envid2env s cur envid checkperm = some e) : ∃ d, s.dirs e = some d := by
  rcases envid2env_some h with rfl | he
  · exact ⟨d, hd⟩
  · exact hlive.dirs he

theorem sysPageAlloc_ok {envid va perm : Word} (hx : (s.vmState k).Sound)
    (henvs : ∀ e, envid2env s cur envid true = some e → ∃ d, s.dirs e = some d) :
    ∃ y, sysPageAlloc s cur envid va perm = .ok y := by
  rw [sysPageAlloc]
  cases henv : envid2env s cur envid true with
  | none => exact ⟨_, rfl⟩
  | some e =>
    dsimp only
    split_ifs with hva hperm
    · exact ⟨_, rfl⟩
    · exact ⟨_, rfl⟩
    rw [Bool.not_eq_true, Bool.not_eq_false'] at hva hperm
    obtain ⟨⟨o, m₁⟩, halloc⟩ := hx.vm.pool.pageAlloc_ok true
    have halloc : pageAlloc s.mem true = .ok (o, m₁) := halloc
    rw [halloc, ok_bind]
    rcases pageAlloc_spec hx.vm.pool halloc with ⟨rfl, rfl, -⟩ | ⟨p, rfl, ha⟩
    · exact ⟨_, rfl⟩
    obtain ⟨d, hd⟩ := henvs e henv
    have hpgdir : (s.envs e).envPgdir = some d := hd
    have hlt := vaOk_lt hva
    have ho : Obtained s.mem s.dirs k p (m₁.markUser p true) := ha.obtained hx.vm
    obtain ⟨⟨flag, m₂⟩, hins⟩ : ∃ y, pageInsert (m₁.markUser p true) d p va perm = .ok y :=
      ho.vm.pageInsert_ok hd hlt
    simp only [hpgdir, deref, ok_bind, hins]
    split_ifs with hflag
    · -- the page goes back
      rcases ho.insert hd hlt (permOk_isFlags hperm) (hx.small.spare e (PGNUM va)) hins with
        ⟨-, rfl⟩ | ⟨hzero, -⟩
      · have hdata : Function.update k p .data p = .data := Function.update_self _ _ _
        have hz : (m₁.markUser p true).ref p = 0 := by
          rw [show (m₁.markUser p true).ref p = m₁.ref p from rfl, ha.ref]
          exact hx.vm.pool.zero p ha.free
        obtain ⟨m₃, hfree⟩ := ho.vm.pool.pageFree_ok (p := p) (by rw [hdata]; simp)
          (by rw [hdata]; simp) hz
        rw [hfree]
        exact ⟨_, rfl⟩
      · exact absurd hzero hflag
    · exact ⟨_, rfl⟩

/-- `sys_page_map` of a page that is mapped. -/
theorem sysPageMap_ok {srcenvid srcva dstenvid dstva perm : Word} (hx : (s.vmState k).Sound)
    (henvs : ∀ e envid, envid2env s cur envid true = some e → ∃ d, s.dirs e = some d)
    (hlook : ∀ e₁ e₂ d, pageMapArgs s cur srcenvid srcva dstenvid dstva perm = .ok (e₁, e₂) →
    s.dirs e₁ = some d →
      test (s.mem.phys d (PDX srcva)) PTE_P = true ∧ ¬ EmptyEntry s.mem d srcva) :
    ∃ y, sysPageMap s cur srcenvid srcva dstenvid dstva perm = .ok y := by
  rw [sysPageMap]
  cases hargs : pageMapArgs s cur srcenvid srcva dstenvid dstva perm with
  | error r => exact ⟨_, rfl⟩
  | ok es =>
    obtain ⟨e₁, e₂⟩ := es
    obtain ⟨hsrc, hdst, -⟩ := pageMapArgs_ok hargs
    obtain ⟨henv₁, henv₂⟩ : envid2env s cur srcenvid true = some e₁ ∧
        envid2env s cur dstenvid true = some e₂ := by
      rw [pageMapArgs] at hargs
      split at hargs
      · rename_i h₁ h₂
        split_ifs at hargs
        cases hargs
        exact ⟨h₁, h₂⟩
      · cases hargs
    obtain ⟨d₁, hd₁⟩ := henvs e₁ _ henv₁
    obtain ⟨d₂, hd₂⟩ := henvs e₂ _ henv₂
    have hpgdir₁ : (s.envs e₁).envPgdir = some d₁ := hd₁
    have hpgdir₂ : (s.envs e₂).envPgdir = some d₂ := hd₂
    obtain ⟨htable, hne⟩ := hlook e₁ e₂ d₁ hargs hd₁
    obtain ⟨o, ho⟩ := hx.vm.pageLookup_ok hd₁ (vaOk_lt hsrc) hne
    have ho : pageLookup s.mem d₁ srcva = .ok o := ho
    cases o with
    | none =>
      -- there is a table, so that `pgdir_walk` finds an entry
      exfalso
      rcases pageLookup_spec hx.vm hd₁ (vaOk_lt hsrc) ho with ⟨-, hno⟩ | ⟨t, -, hsome⟩
      · exact hno htable
      · cases hsome
    | some y =>
      obtain ⟨page, pte⟩ := y
      obtain ⟨⟨flag, m⟩, hins⟩ : ∃ y, pageInsert s.mem d₂ page dstva perm = .ok y :=
        hx.vm.pageInsert_ok hd₂ (vaOk_lt hdst)
      simp only [hpgdir₁, hpgdir₂, deref, ok_bind, ho, hins]
      split_ifs <;> exact ⟨_, rfl⟩

theorem sysPageUnmap_ok {envid va : Word} (hx : (s.vmState k).Sound)
    (henvs : ∀ e, envid2env s cur envid true = some e → ∃ d, s.dirs e = some d)
    (hlook : ∀ e d, envid2env s cur envid true = some e → vaOk va = true → s.dirs e = some d →
    ¬ EmptyEntry s.mem d va) :
    ∃ y, sysPageUnmap s cur envid va = .ok y := by
  rw [sysPageUnmap]
  cases henv : envid2env s cur envid true with
  | none => exact ⟨_, rfl⟩
  | some e =>
    dsimp only
    split_ifs with hva
    · exact ⟨_, rfl⟩
    rw [Bool.not_eq_true, Bool.not_eq_false'] at hva
    obtain ⟨d, hd⟩ := henvs e henv
    have hpgdir : (s.envs e).envPgdir = some d := hd
    obtain ⟨m, hm⟩ := hx.vm.pageRemove_ok hd (vaOk_lt hva) (hlook e d henv hva hd)
    have hm : pageRemove s.mem d va = .ok m := hm
    simp only [hpgdir, deref, ok_bind, hm]
    exact ⟨_, rfl⟩

theorem ipcSendPage_ok {srcva perm : Word} (hx : (s.vmState k).Sound) (hd : s.dirs cur = some d)
    (he : ∃ d, s.dirs e = some d) (hva : srcva < UTOP) (hne : ¬ EmptyEntry s.mem d srcva) :
    ∃ y, ipcSendPage s cur e srcva perm = .ok y := by
  obtain ⟨d', hd'⟩ := he
  have hpgdir : (s.envs cur).envPgdir = some d := hd
  have hpgdir' : (s.envs e).envPgdir = some d' := hd'
  obtain ⟨o, ho⟩ := hx.vm.pageLookup_ok hd hva hne
  have ho : pageLookup s.mem d srcva = .ok o := ho
  simp only [ipcSendPage, hpgdir, deref, ok_bind, ho]
  cases o with
  | none => exact ⟨_, rfl⟩
  | some y =>
    obtain ⟨pg, pte⟩ := y
    dsimp only
    split_ifs with hok hdst
    · exact ⟨_, rfl⟩
    · obtain ⟨⟨flag, m⟩, hins⟩ : ∃ y, pageInsert s.mem d' pg (s.envs e).envIpcDstva perm = .ok y :=
        hx.vm.pageInsert_ok hd' hdst
      simp only [hpgdir', ok_bind, hins]
      split_ifs <;> exact ⟨_, rfl⟩
    · exact ⟨_, rfl⟩

theorem sysIpcTrySend_ok {envid value srcva perm : Word} (hx : (s.vmState k).Sound)
    (hlive : LiveOk s.procs)
    (hd : s.dirs cur = some d)
    (hlook : ∀ e, ipcSendArgs s cur envid = .ok e → srcva < UTOP → ¬ EmptyEntry s.mem d srcva) :
    ∃ y, sysIpcTrySend s cur envid value srcva perm = .ok y := by
  rw [sysIpcTrySend]
  cases hargs : ipcSendArgs s cur envid with
  | error r => exact ⟨_, rfl⟩
  | ok e =>
    dsimp only
    split_ifs with hva
    · obtain ⟨⟨r, s₁⟩, hpage⟩ : ∃ y, ipcSendPage s cur e srcva perm = .ok y :=
        ipcSendPage_ok hx hd (hlive.envid2env hd (ipcSendArgs_ok hargs)) hva (hlook e hargs hva)
      simp only [hpage, ok_bind]
      split_ifs <;> exact ⟨_, rfl⟩
    · exact ⟨_, rfl⟩

theorem sysExofork_ok (hx : (s.vmState k).Sound) : ∃ y, sysExofork s cur = .ok y := by
  have halloc : ∀ parentId, ∃ y, envAlloc s parentId = .ok y := by
    intro parentId
    rw [envAlloc]
    cases hfl : s.envFreeList with
    | none => exact ⟨_, rfl⟩
    | some e =>
      obtain ⟨y, hvm⟩ : ∃ y, envSetupVm s e = .ok y := by
        obtain ⟨⟨o, m⟩, halloc⟩ := hx.vm.pool.pageAlloc_ok true
        have halloc : pageAlloc s.mem true = .ok (o, m) := halloc
        rw [envSetupVm, halloc]
        rcases pageAlloc_spec hx.vm.pool halloc with ⟨rfl, rfl, -⟩ | ⟨p, rfl, ha⟩
        · exact ⟨_, rfl⟩
        have hheld : Function.update (s.vmState k).kind p .held p = .held :=
          Function.update_self _ _ _
        have hp20 : p < 2 ^ 20 := hx.vm.pool.lt (by rw [ha.free]; simp)
        have hnp : p < (m.setRef p ((m.pages p).ppRef + 1)).npages :=
          ha.pool.lt_npages (by rw [hheld]; simp)
        have hkaddr : kaddr (m.setRef p ((m.pages p).ppRef + 1)) (page2pa p) = .ok p := by
          rw [kaddr, PGNUM_page2pa hp20, if_neg (not_le.mpr hnp)]
        simp only [ok_bind, hkaddr]
        exact ⟨_, rfl⟩
      simp only [hvm, ok_bind]
      split_ifs <;> exact ⟨_, rfl⟩
  obtain ⟨⟨y, s₁⟩, hy⟩ := halloc (s.envs cur).envId
  rw [sysExofork, hy]
  cases y <;> exact ⟨_, rfl⟩

/-- `user_mem_assert` destroys the caller when its check fails. -/
theorem userMemAssert_stop {va len perm : Word} (hx : (s.vmState k).Sound) (hlive : LiveOk s.procs)
    (hd : s.dirs cur = some d)
    (htab : TablesInMemory s.mem d) (h : userMemAssert s c cur va len perm = .error (.stop w)) :
    w = .monitor := by
  have hpgdir : (s.envs cur).envPgdir = some d := hd
  obtain ⟨bad, r, hcheck, -, -⟩ := userMemCheck_eq htab va len (perm ||| PTE_U)
  simp only [userMemAssert, hpgdir, deref, liftStop, ok_bind, hcheck] at h
  split_ifs at h
  · exact envDestroy_stop hx hlive hd h
  · cases h

end JOS
