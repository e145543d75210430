import JOS.Lib.Faults
import JOS.Sched.RoundRobin

/-!
# A fault is taken to the handler

The kernel destroys an environment whose fault it cannot hand over. With an upcall set and room on
the exception stack it does not (`enters_total`), and the upcall then calls the C handler
(`upcalled_total`).
-/

namespace JOS

open JOS.General Running

variable {x y : Running} {s₀ s s' : KState} {P : ℕ → Prop} {addrs : UpcallAddrs} {a va w : Word}
  {c cur d : ℕ} {K : ℕ → Kind}

/-! ### The kernel -/

/-- A test of one flag. -/
theorem and_of_test {i : ℕ} (h : test w (BitVec.twoPow 32 i) = true) :
    w &&& BitVec.twoPow 32 i = BitVec.twoPow 32 i := by
  rw [test, BitVec.and_twoPow] at h
  rw [BitVec.and_twoPow]
  split_ifs at h ⊢
  · rfl
  · simp at h

/-- What the program can write passes the check of the kernel. -/
theorem addrOk_of_canWrite (h : x.CanWrite a) : AddrOk x.mem x.dir (PTE_W ||| PTE_U) a := by
  obtain ⟨ha, pte, ht, hW, hU⟩ := h
  have hlt : UTOP < ULIM := by decide
  have hW : pte &&& PTE_W = PTE_W := and_of_test (i := 1) hW
  have hU : pte &&& PTE_U = PTE_U := and_of_test (i := 2) hU
  exact ⟨BitVec.lt_trans ha hlt, pte, ht, by rw [BitVec.and_or_distrib_left, hW, hU]⟩

/-- `page_fault_handler` lets the environment go on when it has an upcall, and room for the
frame. -/
theorem pageFaultHandler_total (hx : (s.vmState K).Sound) (htab : TablesInMemory s.mem d)
    (hcur : s.curenv c = some cur)
    (hd : s.dirs cur = some d) (hcr3 : (s.cpus c).cr3 = d) (hup : (s.envs cur).envPgfaultUpcall ≠ 0)
    (hw : FrameWritable s.mem d (s.envs cur).envTf.tfEsp) :
    ∃ m s', pageFaultHandler s c cur va = .error (.gone s') ∧
        envRun (atUpcall s cur m) c cur = .gone s' := by
  subst hcr3
  obtain ⟨bad, r, hcheck, hiff⟩ := userMemCheck_frame (s.envs cur).envTf.tfEsp htab
  obtain ⟨m, hstore, -⟩ := storeFrame va hx hd hw (s.envs cur).envTf
  have hrun : pageFaultHandler s c cur va = .error (envRun (atUpcall s cur m) c cur) :=
    pageFaultHandler_resumes hup hcur hd (by rw [hcheck, hiff.mpr hw]; rfl) hstore
  obtain ⟨s', hgone⟩ := envRun_gone (c := c) ((congrFun (atUpcall_dirs s cur m) cur).trans hd)
  exact ⟨m, s', by rw [hrun, hgone], hgone⟩

/-- The page fault of a program with the registers `r`. -/
def pageFaultTrap (r : UserRegs) : TrapIn where
  tf := { Trapframe.fresh with
    tfRegs := ⟨r.edi, r.esi, r.ebp, 0, r.ebx, r.edx, r.ecx, r.eax⟩
    tfTrapno := T_PGFLT
    tfEip := r.eip
    tfEflags := r.eflags
    tfEsp := r.esp }
  cr2 := 0
  getc := 0

/-- **The kernel takes a program to its upcall**, when it has set one and there is room for the
frame. -/
theorem enters_total (h₀ : Booted s₀) (hx : HasStack s₀ cur x) (hst : x.kern.status cur ≠ .dying)
    (hup : (x.kern.envs cur).envPgfaultUpcall ≠ 0) (hfit : Fits (utfAddr x.regs.esp)) :
    ∃ x₁, Enters cur x x₁ ∧ RunsTo s₀ x₁.kern ∧ x₁.regs.eip = (x.kern.envs cur).envPgfaultUpcall ∧
      x₁.kern.status cur = .running ∧ (x₁.kern.envs cur).envPgfaultUpcall =
        (x.kern.envs cur).envPgfaultUpcall := by
  have hok := hx.stackOk h₀
  obtain ⟨hsound, hgood⟩ := hx.ran.sound h₀
  obtain ⟨K, hK⟩ := hsound.sound
  have hcur₀ : x.kern.reset.curenv x.cpu = some cur := hx.curenv
  have hreset : SameSpaces x.kern x.kern.reset := ⟨rfl, rfl⟩
  have hspaces := hreset.trans (trapEntry_spaces x.kern.reset x.cpu cur (pageFaultTrap x.regs))
  have hcur := trapEntry_curenv hcur₀ (pageFaultTrap x.regs)
  have henv := trapEntry_envs x.kern.reset x.cpu cur (pageFaultTrap x.regs)
  have hcr3 : ((trapEntry x.kern.reset x.cpu cur (pageFaultTrap x.regs)).cpus x.cpu).cr3 =
      x.dir := by
    simp [trapEntry, KState.setEnv, KState.setCpu, KState.reset, Running.dir]
  have htab := hgood.tablesInMemory hK.vm hok.dirs
  have hframe : FrameWritable x.kern.mem x.dir x.regs.esp := by
    intro a hle hlt
    have haddr : a = utfAddr x.regs.esp + BitVec.ofNat 32
        (a.toNat - (utfAddr x.regs.esp).toNat) := by
      refine BitVec.eq_of_toNat_eq ?_
      rw [hfit.add (by omega)]
      omega
    rw [haddr]
    exact addrOk_of_canWrite (hok.canWrite (hfit.onStack (by omega)))
  have hfits : trapFits x.kern x.cpu (pageFaultTrap x.regs) = true := by
    simp only [trapFits, hx.curenv]
    exact (by decide : (Trapframe.fresh.tfCs &&& 3 == 3) = true)
  have htrap := trap_user hx.curenv hst hfits
  rw [trapDispatch, if_pos (show (pageFaultTrap x.regs).tf.tfTrapno = T_PGFLT from rfl)] at htrap
  generalize trapEntry x.kern.reset x.cpu cur (pageFaultTrap x.regs) =
    s at hspaces hcur henv hcr3 htrap
  rw [← hspaces.1] at htab hframe
  obtain ⟨m, s', hgone, hrun⟩ : ∃ m s', pageFaultHandler s x.cpu cur (pageFaultTrap x.regs).cr2 =
      .error (.gone s') ∧
      envRun (atUpcall s cur m) x.cpu cur = .gone s' :=
    pageFaultHandler_total (hspaces.sound hK) htab hcur
      ((congrFun hspaces.2 cur).trans hok.dirs) hcr3
      (by rw [henv]; exact hup) (by rw [henv]; exact hframe)
  have hstep : step x.kern (.trap x.cpu (pageFaultTrap x.regs)) = some s' := by
    simp only [step]
    rw [if_pos (show trapFits x.kern.reset x.cpu (pageFaultTrap x.regs) = true from hfits),
      htrap, hgone]
    rfl
  refine ⟨⟨s', x.cpu, (s'.envs cur).envTf.user⟩,
    ⟨pageFaultTrap x.regs, rfl, rfl, hstep, rfl, curenv_of_envRun hrun, rfl⟩,
    hx.ran.trap rfl hstep, ?_, ?_, ?_⟩
  · have ht := congrArg (fun τ : Table => (τ.envs cur).envTf.tfEip) (envRun_writes hrun)
    simp only [Table.write_run_self] at ht
    refine Eq.trans ht ?_
    rw [show ((atUpcall s cur m).table.envs cur).envTf = _ from atUpcall_envTf s cur m, henv]
    rfl
  · have ht := congrArg (fun τ : Table => (τ.envs cur).envStatus) (envRun_writes hrun)
    simp only [Table.write_run_self] at ht
    exact ht
  · have ht := congrArg (fun τ : Table => (τ.envs cur).envPgfaultUpcall) (envRun_writes hrun)
    simp only [Table.write_run_self] at ht
    refine Eq.trans ht ?_
    rw [show (atUpcall s cur m).table.envs cur = _ from KState.setEnv_envs_self _ _ _, henv]
    rfl

/-! ### The beginning of the upcall -/

/-- What can be read is not changed by stores to data. -/
theorem Running.Stores.load8_isSome {A : Word → Prop} (hP : DataPages x.mem x.dir P)
    (hs : Stores P x y A) (ha : a < UTOP) :
    (y.load8 a).isSome = (x.load8 a).isSome := by
  rw [load8_eq, load8_eq, hs.translate hP ha]
  cases JOS.translate x.mem x.dir a with
  | none => rfl
  | some pte =>
    simp only [Option.bind_some]
    split_ifs <;> rfl

theorem load_isSome (h : ∀ k < 4, (x.load8 (a + BitVec.ofNat 32 k)).isSome = true) : ∃ w,
    x.load a = some w := by
  have h₀ := h 0 (by decide)
  rw [show a + BitVec.ofNat 32 0 = a from BitVec.add_zero a] at h₀
  obtain ⟨b₀, h₀⟩ := Option.isSome_iff_exists.mp h₀
  obtain ⟨b₁, h₁⟩ := Option.isSome_iff_exists.mp (h 1 (by decide))
  obtain ⟨b₂, h₂⟩ := Option.isSome_iff_exists.mp (h 2 (by decide))
  obtain ⟨b₃, h₃⟩ := Option.isSome_iff_exists.mp (h 3 (by decide))
  refine ⟨b₃ ++ b₂ ++ b₁ ++ b₀, ?_⟩
  rw [load, h₀, show x.load8 (a + 1) = some b₁ from h₁, show x.load8 (a + 2) = some b₂ from h₂,
    show x.load8 (a + 3) = some b₃ from h₃]
  rfl

/-- The upcall calls the handler, when it can read where that is. -/
theorem execAll_upcallHead_total (hok : StackOk cur x) (hfit : Fits x.regs.esp)
    (hvar : ∀ k < 4, addrs.pgfaultHandler + BitVec.ofNat 32 k < UTOP ∧
    (x.load8 (addrs.pgfaultHandler + BitVec.ofNat 32 k)).isSome = true) :
    ∃ y, execAll (upcallHead addrs) x = some y := by
  obtain ⟨P, hP⟩ := hok.tables
  have hpush : ∀ k < 8, x.CanWrite (x.regs.esp - 8#32 + BitVec.ofNat 32 k) := fun k hk =>
    hok.canWrite (hfit.pushed ⟨k, hk, rfl⟩).1
  have hw₁ : ∀ k < 4, x.CanWrite (x.regs.esp - 4 + BitVec.ofNat 32 k) := fun k hk => by
    have haddr : x.regs.esp - 4 + BitVec.ofNat 32 k = x.regs.esp - 8#32 + BitVec.ofNat 32
      (4 + k) := by bv_omega
    rw [haddr]
    exact hpush _ (by omega)
  obtain ⟨m₁, hstore₁, hc₁⟩ := store_ok (w := x.regs.esp) hP hok.running hw₁
  have hs₁ : Stores P x (x.withMem m₁) fun b => ∃ k < 4, b = x.regs.esp - 4 + BitVec.ofNat 32 k :=
    Stores.of_copied hc₁ rfl rfl
  have hok₁ := hok.withMem_stores hP hs₁
  have hP₁ := hs₁.dataPages hP
  obtain ⟨w, hw⟩ := load_isSome (x := x.withMem m₁) (a := addrs.pgfaultHandler) fun k hk => by
    rw [hs₁.load8_isSome hP (hvar k hk).1]
    exact (hvar k hk).2
  have hw₂ : ∀ k < 4, (x.withMem m₁).CanWrite (x.regs.esp - 4 - 4 + BitVec.ofNat 32 k) :=
      fun k hk => by
    have haddr : x.regs.esp - 4 - 4 + BitVec.ofNat 32 k = x.regs.esp - 8#32 +
      BitVec.ofNat 32 k := by bv_omega
    rw [haddr]
    exact (hs₁.canWrite hP).mpr (hpush k (by omega))
  obtain ⟨m₂, hstore₂, -⟩ := store_ok (w := addrs.next) hP₁ hok₁.running hw₂
  simp only [execAll, upcallHead, List.foldlM_cons, List.foldlM_nil, exec, UserRegs.get,
    UserRegs.set, withRegs_load, withRegs_regs,
    withRegs_store, hstore₁, Option.bind_eq_bind, Option.bind_some, Option.pure_def, hw, hstore₂,
    Option.map_some]
  exact ⟨_, rfl⟩

/-- **A fault is taken to the C handler.** -/
theorem upcalled_total (h₀ : Booted s₀) (hx : HasStack s₀ cur x) (hst : x.kern.status cur ≠ .dying)
    (hup : (x.kern.envs cur).envPgfaultUpcall = addrs.pgfaultUpcall) (hne : addrs.pgfaultUpcall ≠ 0)
    (hfit : Fits (utfAddr x.regs.esp))
    (hvar : ∀ k < 4, addrs.pgfaultHandler + BitVec.ofNat 32 k < UTOP ∧
    (x.load8 (addrs.pgfaultHandler + BitVec.ofNat 32 k)).isSome = true) :
    ∃ y, Upcalled cur addrs x y ∧ RunsTo s₀ y.kern ∧ y.kern.status cur = .running ∧
      (y.kern.envs cur).envPgfaultUpcall = addrs.pgfaultUpcall := by
  obtain ⟨x₁, henters, hran, heip, hst₁, hup₁⟩ := enters_total h₀ hx hst (by rwa [hup]) hfit
  have hok := hx.stackOk h₀
  obtain ⟨P, hP⟩ := hok.tables
  obtain ⟨va, tf, -, hok₁, hesp₁, -, -, hs₁⟩ := henters.spec hok hP hfit
  obtain ⟨y, hhead⟩ : ∃ y, execAll (upcallHead addrs) x₁ = some y :=
      execAll_upcallHead_total hok₁ (by rwa [hesp₁]) fun k hk =>
    ⟨(hvar k hk).1, (hs₁.load8_isSome hP (hvar k hk).1).trans (hvar k hk).2⟩
  have henvs := execAll_envs hhead
  refine ⟨y, ⟨x₁, henters, heip.trans hup, hhead⟩, hran.execAll hhead, ?_, ?_⟩
  · rw [← hst₁, KState.status, KState.status, henvs]
  · rw [henvs, hup₁, hup]

end JOS
