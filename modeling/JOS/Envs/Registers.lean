import JOS.Envs.Frames
import JOS.Envs.Saved
import JOS.Kern.Board
import JOS.Sched.Teardown

/-!
# Every program has registers of its own

Programs share the CPUs, and the kernel uses the same registers. Beside the machine runs what a
program is to believe: registers that are its alone, which it changes by its instructions and by its
system calls, whose result is in `eax`, and by page faults, which take it to its upcall. Whenever a
CPU runs a program, the CPU has those registers (`ownRegs_of_reach`): they get through the stubs,
`_alltraps`, `env_tf`, the changes of CPU and `env_pop_tf`.
-/

namespace JOS

open JOS.General

/-! ### What programs are to believe -/

/-- The registers after a system call that returns `r`. -/
def ProgRegs.answered (x : ProgRegs) (r : Word) : ProgRegs :=
  { x with regs := { x.regs with eax := r } }

/-- The registers with which the page fault upcall begins. -/
def ProgRegs.atUpcall (x : ProgRegs) (upcall : Word) : ProgRegs :=
  { x with regs := { x.regs with eip := upcall, esp := utfAddr x.regs.esp } }

/-- What the system call of a trap returns, if it returns at once. -/
def sysResult (s : KState) (c cur : ℕ) (t : TrapIn) : Option Word :=
  (syscall (trapEntry s.reset c cur t) c cur t.args).toOption.map Prod.fst

/-- The registers of a program when it goes on after a trap. -/
def trapRegs (s : KState) (c cur : ℕ) (t : TrapIn) (x : ProgRegs) : ProgRegs :=
  if t.tf.tfTrapno = T_PGFLT then x.atUpcall (s.envs cur).envPgfaultUpcall
  else if t.tf.tfTrapno = T_SYSCALL then (sysResult s c cur t).elim x x.answered
  else x

/-- The registers of environment `e` after a step of the kernel from `s` to `s'`. A child begins
with those of its parent and the result 0, and `sys_ipc_recv` has the result 0 when a message
arrives. -/
def Event.regs (ev : Event) (s s' : KState) (R : ℕ → ProgRegs) (e : ℕ) : ProgRegs :=
  match ev with
  | .create _ elf => if s.envFreeList = some e then
      { Trapframe.fresh with tfEip := elf.eEntry : Trapframe }.prog else R e
  | .trap c t =>
    match s.curenv c with
    | some cur =>
      if e = cur then trapRegs s c cur t (R e)
      else if s.envFreeList = some e then (R cur).answered 0
      else if .ipc e ∈ s'.acts then (R e).answered 0
      else R e
    | none => R e
  | _ => R e

namespace Board

variable (k : KernelAddrs)

/-- The registers of environment `e` after a step of the board `b` to `b'`. -/
def regs (b : Board) (ev : BoardEvent) (b' : Board) (R : ℕ → ProgRegs) (e : ℕ) : ProgRegs :=
  match ev with
  | .user c r => if b.kern.curenv c = some e then r else R e
  | .trap c cause err cr2 getc _ =>
      (Event.trap c (b.trapIn k c cause err cr2 getc)).regs b.kern b'.kern R e
  | .other ev _ => ev.regs b.kern b'.kern R e

/-- A step of the board, and of the registers that programs believe to have. -/
def stepWith (x : Board × (ℕ → ProgRegs)) (ev : BoardEvent) : Option (Board × (ℕ → ProgRegs)) :=
  (x.1.step k ev).map fun b' => (b', x.1.regs k ev b' x.2)

/-- System calls leave the environments of other CPUs alone. -/
def LeavesOthers (x : Board × (ℕ → ProgRegs)) (ev : BoardEvent) : Prop :=
  ∀ kev, x.1.event k ev = some kev → JOS.LeavesOthers RunningOrDying x.1.kern kev

end Board

variable {k : KernelAddrs} {b b' : Board} {s s' : KState} {ev : Event} {c cur e : ℕ} {t : TrapIn}
  {R : ℕ → ProgRegs} {x : ProgRegs}
  {z : Core}

@[simp] theorem ProgRegs.answered_cpl {r : Word} : (x.answered r).cpl = x.cpl := rfl

@[simp] theorem ProgRegs.atUpcall_cpl {upcall : Word} : (x.atUpcall upcall).cpl = x.cpl := rfl

@[simp] theorem Trapframe.answered_prog {tf : Trapframe} {r : Word} :
    (tf.answered r).prog = tf.prog.answered r := rfl

@[simp] theorem Trapframe.atUpcall_prog {tf : Trapframe} {upcall : Word} :
    (tf.atUpcall upcall).prog = tf.prog.atUpcall upcall := rfl

@[simp] theorem trapRegs_cpl : (trapRegs s c cur t x).cpl = x.cpl := by
  rw [trapRegs]
  split_ifs with hpf hsys
  · exact ProgRegs.atUpcall_cpl
  · cases sysResult s c cur t with
    | none => rfl
    | some r => exact ProgRegs.answered_cpl
  · rfl

/-- Events that only schedule, or only store. -/
theorem start_kept (hs : step s (.start c) = some s') (e : ℕ) : (s.envs e).Kept (s'.envs e) := by
  simp only [step] at hs
  split_ifs at hs
  exact schedYield_kept (state?_eq_some.mp hs) e

theorem store_kept {va : Word} {w : BitVec 8} (hs : step s (.store c va w) = some s') (e : ℕ) :
    (s.envs e).Kept (s'.envs e) := by
  simp only [step, userStore] at hs
  split_ifs at hs
  split at hs
  · split_ifs at hs
    cases hs
    exact .refl _
  · cases hs

/-- A CPU without a program changes nothing but what scheduling does. -/
theorem halted_kept (hs : step s (.trap c t) = some s') (hcur : s.curenv c = none) (e : ℕ) :
    (s.envs e).Kept (s'.envs e) := by
  simp only [step] at hs
  split_ifs at hs
  cases trapEnds (state?_eq_some.mp hs) with
  | dying hcur' => exact absurd (hcur'.symm.trans hcur) (by simp)
  | user hcur' => exact absurd (hcur'.symm.trans hcur) (by simp)
  | wakes _ hw => exact hw.elim (fun hw => trapReturn_kept hw e) fun hw => schedYield_kept hw e

/-! ### Between two steps -/

/-- The kernel's half of the invariant: what is not on a CPU is in `env_tf`. -/
structure SavedOk (s : KState) (R : ℕ → ProgRegs) : Prop where
  one : OneCpu RunningOrDying none s.procs
  free : FreeOk s.procs
  live : LiveOk s.procs
  /-- An environment that no CPU runs. -/
  saved : ∀ e, s.status e ≠ .free → (∀ c, s.curenv c ≠ some e) → (s.envs e).envTf.prog = R e
  /-- Programs are in user mode. -/
  user : ∀ e, s.status e ≠ .free → (R e).cpl = 3

/-- The invariant: what is on a CPU, too. -/
structure RegsOk (b : Board) (R : ℕ → ProgRegs) : Prop where
  kern : SavedOk b.kern R
  runs : ∀ c e, b.kern.curenv c = some e → (b.cores c).toProgRegs = R e

/-- The event takes CPU `c` out of the program it runs. -/
def Event.Interrupts (ev : Event) (c : ℕ) : Prop := ∃ t, ev = .trap c t

namespace SavedOk

variable (h : SavedOk s R)
include h

theorem running (hcur : s.curenv c = some e) : s.status e ≠ .free := fun hfree => by
  have hst : RunningOrDying (s.status e) := h.one.status c e (by simp) hcur
  rw [hfree] at hst
  exact hst.elim (by simp) (by simp)

/-- What is to be allocated is free, and no CPU runs it. -/
theorem head (hhead : s.envFreeList = some e) : s.status e = .free := by
  by_contra hst
  have hlive := h.live e hst
  rw [h.free.head hhead] at hlive
  cases hlive

theorem head_ne (hhead : s.envFreeList = some e) (hcur : s.curenv c = some cur) : e ≠ cur := by
  rintro rfl
  exact h.running hcur (h.head hhead)

theorem not_running (hfree : s.status e = .free) (c : ℕ) : s.curenv c ≠ some e :=
  fun hcur => h.running hcur hfree

/-- Only what is allocated becomes an environment. -/
theorem status_of (hs : step s ev = some s') (hhead : s.envFreeList ≠ some e)
    (hst : s'.status e ≠ .free) : s.status e ≠ .free :=
  fun hfree => hst ((step_written hs).free hfree (h.not_running hfree) hhead).1

/-! ### Programs that the event does not interrupt -/

theorem regs_elsewhere (hok : LeavesOthers RunningOrDying s ev) (hs : step s ev = some s')
    (hcur : s.curenv c = some e)
    (hnot : ¬ ev.Interrupts c) : ev.regs s s' R e = R e := by
  have hhead : s.envFreeList ≠ some e := fun hhead => h.running hcur (h.head hhead)
  cases ev with
  | create c' elf => exact if_neg hhead
  | trap c' t =>
    have hne : c ≠ c' := fun heq => hnot ⟨t, by rw [heq]⟩
    simp only [Event.regs]
    cases hcur' : s.curenv c' with
    | none => rfl
    | some cur =>
      have hecur : e ≠ cur := by
        rintro rfl
        exact hne (h.one.inj _ _ _ hcur hcur')
      have hipc : .ipc e ∉ s'.acts := fun hmem => by
        obtain ⟨p, -, -, hsends⟩ :=
          (step_logged hs).1.of_mem (I := fun _ => True) trivial (fun _ _ _ _ _ => trivial) hmem
        exact hok.2.1 _ _ hsends ⟨c, hne, hcur⟩
      simp only [if_neg hecur, if_neg hhead, if_neg hipc]
  | start c' => rfl
  | store c' va b => rfl

/-! ### Programs whose registers the kernel has -/

theorem saved_trap (hs : step s (.trap c t) = some s') (hcur : s.curenv c = some cur)
    (htf : t.tf.prog = R cur)
    (hst : s'.status cur ≠ .free) : (s'.envs cur).envTf.prog = trapRegs s c cur t (R cur) := by
  have hcur₁ : (trapEntry s.reset c cur t).curenv c = some cur :=
    @trapEntry_curenv s.reset c cur hcur t
  have hhead : (trapEntry s.reset c cur t).envFreeList ≠ some cur :=
    fun hhead => h.head_ne hhead hcur rfl
  cases trap_records hcur hs with
  | freed hfree _ => exact absurd hfree hst
  | back hpf hsys htf' _ =>
    rw [htf', htf, trapRegs, if_neg hpf]
    split_ifs with hno
    · obtain ⟨l, hl⟩ := hsys hno
      rw [sysResult, hl]
      rfl
    · rfl
  | upcall hpf htf' _ => rw [htf', Trapframe.atUpcall_prog, htf, trapRegs, if_pos hpf]
  | @answered r s₂ hsys hcall hkept =>
    have hresult : sysResult s c cur t = some r := by
      rw [sysResult, hcall]
      rfl
    rw [(hkept cur).envTf, syscall_caller hcur₁ hhead hcall, trapEntry_self,
      Trapframe.answered_prog, htf, trapRegs,
      if_neg (by rw [hsys]; decide), if_pos hsys, hresult]
    rfl

theorem saved_regs (hs : step s ev = some s')
    (htf : ∀ c t cur, ev = .trap c t → s.curenv c = some cur → t.tf.prog = R cur)
    (hst : s'.status e ≠ .free) (hcur : ∀ c, s.curenv c = some e → ev.Interrupts c) :
    (s'.envs e).envTf.prog = ev.regs s s' R e := by
  have hkept : (s.envs e).Kept (s'.envs e) → (∀ c, s.curenv c ≠ some e) →
      (s'.envs e).envTf.prog = R e := fun hkept hno => by
    rw [hkept.envTf]
    exact h.saved e (fun hfree => hst (hkept.free hfree)) hno
  -- without an interrupt no CPU runs `e`
  have hidle : (∀ c, ¬ ev.Interrupts c) → ∀ c, s.curenv c ≠ some e :=
    fun hnot c hcur' => hnot c (hcur c hcur')
  cases ev with
  | create c elf =>
    have hno := hidle (by rintro c' ⟨t, ht⟩; cases ht)
    by_cases hhead : s.envFreeList = some e
    · rw [Event.regs, if_pos hhead, (created_saved hhead hs).1]
    · rw [Event.regs, if_neg hhead]
      refine hkept ?_ hno
      rw [created_other hs hhead]
      exact .refl _
  | start c => exact hkept (start_kept hs e) (hidle (by rintro c' ⟨t, ht⟩; cases ht))
  | store c va b => exact hkept (store_kept hs e) (hidle (by rintro c' ⟨t, ht⟩; cases ht))
  | trap c t =>
    cases hcur' : s.curenv c with
    | none =>
      have hno : ∀ c, s.curenv c ≠ some e := fun c' hc' => by
        obtain ⟨t, ht⟩ := hcur c' hc'
        cases ht
        exact absurd (hc'.symm.trans hcur') (by simp)
      simp only [Event.regs, hcur']
      exact hkept (halted_kept hs hcur' e) hno
    | some cur =>
      simp only [Event.regs, hcur']
      by_cases hecur : e = cur
      · subst hecur
        rw [if_pos rfl]
        exact h.saved_trap hs hcur' (htf c t e rfl hcur') hst
      have hno : ∀ c, s.curenv c ≠ some e := fun c' hc' => by
        obtain ⟨t, ht⟩ := hcur c' hc'
        cases ht
        exact hecur (Option.some.inj (hc'.symm.trans hcur'))
      rw [if_neg hecur]
      by_cases hhead : s.envFreeList = some e
      · rw [if_pos hhead, born_saved hcur' (h.head hhead) hhead hecur hs hst,
          Trapframe.answered_prog, htf c t cur rfl hcur']
      · have hsaved : (s'.envs e).envTf = if .ipc e ∈ s'.acts then (s.envs e).envTf.answered 0
          else (s.envs e).envTf :=
          (step_written hs).saved (hno _) hhead
        have hold := h.saved e (h.status_of hs hhead hst) hno
        rw [if_neg hhead, hsaved]
        split_ifs
        · rw [Trapframe.answered_prog, hold]
        · exact hold

theorem user_regs (hs : step s ev = some s') (hst : s'.status e ≠ .free) :
    (ev.regs s s' R e).cpl = 3 := by
  have hsame : s.envFreeList ≠ some e → (R e).cpl = 3 :=
    fun hhead => h.user e (h.status_of hs hhead hst)
  have hkept : (s.envs e).Kept (s'.envs e) → (R e).cpl = 3 := fun hkept =>
    h.user e fun hfree => hst (hkept.free hfree)
  cases ev with
  | create c elf =>
    simp only [Event.regs]
    split_ifs with hhead
    · exact (by decide : Trapframe.fresh.tfCs &&& 3 = 3)
    · exact hsame hhead
  | start c => exact hkept (start_kept hs e)
  | store c va b => exact hkept (store_kept hs e)
  | trap c t =>
    simp only [Event.regs]
    cases hcur : s.curenv c with
    | none => exact hkept (halted_kept hs hcur e)
    | some cur =>
      dsimp only
      split_ifs with hecur hhead
      · subst hecur
        rw [trapRegs_cpl]
        exact h.user e (h.running hcur)
      · rw [ProgRegs.answered_cpl]
        exact h.user cur (h.running hcur)
      · rw [ProgRegs.answered_cpl]
        exact hsame hhead
      · exact hsame hhead

end SavedOk

/-! ### Steps -/

/-- What a CPU runs changes only when it enters the kernel. -/
theorem curenv_of_not_enters (hs : step s ev = some s') (hc : ev.enters ≠ some c) :
    s'.curenv c = s.curenv c := by
  obtain ⟨hlog, -, halloc⟩ := step_logged hs
  cases henter : ev.enters with
  | none =>
    refine hlog.invariant (I := fun p => p.curenv c = s.curenv c) rfl fun p a ha hp _ => ?_
    obtain ⟨e, st, rfl⟩ := halloc henter a ha
    exact hp
  | some c' =>
    have hcpu : ev.cpu = c' := by
      cases ev with
      | start c => exact Option.some.inj henter
      | trap c t => exact Option.some.inj henter
      | create c elf => cases henter
      | store c va b => cases henter
    refine (step_written hs).curenv c fun heq => hc ?_
    rw [henter, heq, hcpu]

theorem Event.Interrupts.enters (h : ev.Interrupts c) : ev.enters = some c := by
  obtain ⟨t, rfl⟩ := h
  rfl

/-- A CPU that is taken into the kernel, but not out of a program, runs none. -/
theorem curenv_of_enters (hs : step s ev = some s') (henter : ev.enters = some c)
    (hnot : ¬ ev.Interrupts c) : s.curenv c = none := by
  cases ev with
  | start c' =>
    cases henter
    simp only [step] at hs
    split_ifs at hs with hc
    exact hc.1
  | trap c' t =>
    cases henter
    exact absurd ⟨t, rfl⟩ hnot
  | create c' elf => cases henter
  | store c' va b => cases henter

/-- A step of the kernel, after which the CPU that has come out of it has the registers in
`env_tf`. -/
theorem RegsOk.kernel {cores : ℕ → Core} (h : RegsOk b R)
    (hok : LeavesOthers RunningOrDying b.kern ev)
    (hs : step b.kern ev = some s')
    (htf : ∀ c t cur, ev = .trap c t → b.kern.curenv c = some cur → t.tf.prog = R cur)
    (hsame : ∀ c, ev.enters ≠ some c → cores c = b.cores c)
    (hleft : ∀ c e, ev.enters = some c → s'.curenv c = some e → (s'.envs e).envTf.prog.cpl = 3 →
      (cores c).toProgRegs = (s'.envs e).envTf.prog) :
    RegsOk ⟨s', cores⟩ (ev.regs b.kern s' R) := by
  have hone : OneCpu RunningOrDying none s'.procs :=
    h.kern.one.step occupied_runningOrDying h.kern.free hok hs
  -- a program that is not interrupted is still on its CPU
  have hstays : ∀ c e, b.kern.curenv c = some e → ¬ ev.Interrupts c → s'.curenv c = some e :=
      fun c e hcur hnot => by
    rw [curenv_of_not_enters hs fun henter =>
      absurd (hcur.symm.trans (curenv_of_enters hs henter hnot)) (by simp), hcur]
  refine ⟨⟨hone, h.kern.free.step hs, h.kern.live.step h.kern.one hs, fun e hst hno => ?_,
    fun e hst => h.kern.user_regs hs hst⟩,
    fun c e hcur => ?_⟩
  · exact h.kern.saved_regs hs htf hst fun c hcur => by_contra fun hnot =>
      hno c (hstays c e hcur hnot)
  · by_cases henter : ev.enters = some c
    · have hst : s'.status e ≠ .free := by
        rw [(((step_logged hs).2.1 c henter).2 e hcur).1]
        decide
      have hprog : (s'.envs e).envTf.prog = ev.regs b.kern s' R e := by
        refine h.kern.saved_regs hs htf hst fun c' hcur' => by_contra fun hnot => ?_
        cases hone.inj c c' e hcur (hstays c' e hcur' hnot)
        exact absurd (hcur'.symm.trans (curenv_of_enters hs henter hnot)) (by simp)
      rw [← hprog]
      refine hleft c e henter hcur ?_
      rw [hprog]
      exact h.kern.user_regs hs hst
    · have hcur₀ : b.kern.curenv c = some e := (curenv_of_not_enters hs henter).symm.trans hcur
      rw [h.kern.regs_elsewhere hok hs hcur₀ fun hint => henter hint.enters]
      exact (congrArg Core.toProgRegs (hsame c henter)).trans (h.runs c e hcur₀)

/-- A CPU that leaves the kernel. -/
theorem leave_spec (h : b.leave k c s z = some b') :
    b'.kern = s ∧ (∀ c', c' ≠ c → b'.cores c' = b.cores c') ∧
      ∀ e, s.curenv c = some e → (s.envs e).envTf.prog.cpl = 3 →
      (b'.cores c).toProgRegs = (s.envs e).envTf.prog := by
  rw [Board.leave] at h
  split_ifs at h with hcs
  cases hcur : s.curenv c with
  | none =>
    simp only [hcur] at h
    cases h
    exact ⟨rfl, fun c' hc' => Function.update_of_ne hc' _ _, fun e he => by cases he⟩
  | some e =>
    simp only [hcur] at h
    split_ifs at h with hread
    cases h
    refine ⟨rfl, fun c' hc' => Function.update_of_ne hc' _ _, fun e' he hcpl => ?_⟩
    cases he
    have hcpl' : (readFrame z.mem (k.envTf e)).tfCs &&& 3 ≠ z.cpl := by
      rw [hread, ProgRegs.cpl, hcs]
      intro heq
      exact absurd (hcpl.symm.trans heq) (by decide)
    have hself : (Function.update b.cores c (z.execAll (envPopTf (k.envTf e)))) c = _ :=
      Function.update_self _ _ _
    refine (congrArg Core.toProgRegs hself).trans ?_
    rw [envPopTf_prog hcpl', hread]

/-- **The frame that `trap` gets** holds the registers of the program. -/
theorem RegsOk.trapIn {cause : Cause} {err cr2 getc : Word} (h : RegsOk b R)
    (hcur : b.kern.curenv c = some e)
    (hpos : cause.possible 3) : (b.trapIn k c cause err cr2 getc).tf =
      (R e).frame (k.ts c) (cause.vector 3) (if cause.pushesError 3 then err else 0) := by
  have hregs := h.runs c e hcur
  have hcpl : (b.cores c).cpl = 3 := by
    rw [hregs]
    exact h.kern.user e (h.kern.running hcur)
  obtain ⟨harg, hframe⟩ := readFrame_enter (k.ts c) err k.next hcpl hpos
  rw [← hregs, ← hframe, ← harg]
  rfl

theorem RegsOk.step {bev : BoardEvent} (h : RegsOk b R) (hok : Board.LeavesOthers k (b, R) bev)
    (hs : b.step k bev = some b') :
    RegsOk b' (b.regs k bev b' R) := by
  cases bev with
  | user c r =>
    rw [Board.step] at hs
    split_ifs at hs with hc
    cases hs
    obtain ⟨hrun, hcpl⟩ := hc
    refine ⟨⟨h.kern.one, h.kern.free, h.kern.live, fun e hst hno => ?_, fun e hst => ?_⟩,
      fun c' e hcur => ?_⟩
    · rw [Board.regs, if_neg (hno c)]
      exact h.kern.saved e hst hno
    · rw [Board.regs]
      split_ifs with hcur
      · rw [hcpl, h.runs c e hcur]
        exact h.kern.user e hst
      · exact h.kern.user e hst
    · have hcur₀ : b.kern.curenv c' = some e := hcur
      rw [Board.regs]
      by_cases hcc : c' = c
      · subst hcc
        have hself : (Function.update b.cores c' { b.cores c' with toProgRegs := r }) c' = _ :=
          Function.update_self _ _ _
        rw [if_pos hcur₀]
        exact congrArg Core.toProgRegs hself
      · have hsame : (Function.update b.cores c { b.cores c with toProgRegs := r }) c' = _ :=
          Function.update_of_ne hcc _ _
        have hne : ¬ b.kern.curenv c = some e :=
          fun hcur' => hcc (h.kern.one.inj c' c e hcur₀ hcur')
        rw [if_neg hne]
        exact (congrArg Core.toProgRegs hsame).trans (h.runs c' e hcur₀)
  | trap c cause err cr2 getc z =>
    rw [Board.step] at hs
    split_ifs at hs with hpos
    obtain ⟨s', hstep, hleave⟩ := Option.bind_eq_some_iff.mp hs
    obtain ⟨rfl, hsame, hleft⟩ := leave_spec hleave
    refine h.kernel (hok _ rfl) hstep (fun c' t cur heq hcur => ?_)
      (fun c' hc' => hsame c' fun heq => hc' (by rw [heq]; rfl))
      fun c' e henter => ?_
    · cases heq
      have hpos : cause.possible 3 := by
        rw [h.runs c cur hcur, h.kern.user cur (h.kern.running hcur)] at hpos
        exact hpos
      rw [h.trapIn hcur hpos]
      rfl
    · cases henter
      exact hleft e
  | other ev z =>
    have hother : ∀ {s'}, JOS.step b.kern ev = some s' → ev.enters = none →
        b' = { b with kern := s' } →
        (∀ c t, ev ≠ .trap c t) → RegsOk b' (ev.regs b.kern b'.kern R) :=
          fun hstep henter hb hev => by
      subst hb
      exact h.kernel (hok _ rfl) hstep (fun c t cur heq _ => absurd heq (hev c t)) (fun _ _ => rfl)
          fun c e henter' => by
        rw [henter] at henter'
        cases henter'
    cases ev with
    | trap c t => cases hs
    | start c =>
      obtain ⟨s', hstep, hleave⟩ := Option.bind_eq_some_iff.mp hs
      obtain ⟨rfl, hsame, hleft⟩ := leave_spec hleave
      refine h.kernel (hok _ rfl) hstep (by simp) (fun c' hc' => hsame c' fun heq =>
        hc' (by rw [heq]; rfl)) fun c' e henter => ?_
      cases henter
      exact hleft e
    | create c elf =>
      obtain ⟨s', hstep, hb⟩ := Option.map_eq_some_iff.mp hs
      exact hother hstep rfl hb.symm (by simp)
    | store c va w =>
      obtain ⟨s', hstep, hb⟩ := Option.map_eq_some_iff.mp hs
      exact hother hstep rfl hb.symm (by simp)

/-! ### In every state of a run -/

theorem Booted.regsOk (h : Booted b.kern) : RegsOk b R :=
  ⟨⟨h.oneCpu, h.freeOk, h.liveOk, fun e hst => absurd (h.envs e).1 hst, fun e hst =>
      absurd (h.envs e).1 hst⟩, fun c _ hcur =>
    absurd ((h.cpus c).symm.trans hcur) (by simp)⟩

/-- **Every program has registers of its own**, in any run in which system calls leave the
environments of other CPUs alone: a CPU that runs it has them, and so has the frame that `trap` gets
when it traps. -/
theorem ownRegs_of_reach {b₀ : Board} {R₀ : ℕ → ProgRegs} (h₀ : Booted b₀.kern)
    (h : Reach (Board.stepWith k) (Board.LeavesOthers k) (b₀, R₀) (b, R)) :
    (∀ c e, b.kern.curenv c = some e → (b.cores c).toProgRegs = R e) ∧
      ∀ c e cause err cr2 getc, b.kern.curenv c = some e → Cause.possible 3 cause →
        (b.trapIn k c cause err cr2 getc).tf =
          (R e).frame (k.ts c) (cause.vector 3) (if cause.pushesError 3 then err else 0) := by
  have hregs : RegsOk b R := by
    refine h.invariant (I := fun x => RegsOk x.1 x.2) h₀.regsOk fun x y ev hx hok hs => ?_
    obtain ⟨b', hb, rfl⟩ := Option.map_eq_some_iff.mp hs
    exact hx.step hok hb
  exact ⟨hregs.runs, fun _ _ _ _ _ _ hcur hpos => hregs.trapIn hcur hpos⟩

/-- The words of a `struct Trapframe`. -/
def frameWords (tf : Trapframe) : List Word :=
  [tf.tfRegs.regEdi, tf.tfRegs.regEsi, tf.tfRegs.regEbp, tf.tfRegs.regOesp, tf.tfRegs.regEbx,
    tf.tfRegs.regEdx, tf.tfRegs.regEcx,
    tf.tfRegs.regEax, tf.tfEs.setWidth 32, tf.tfDs.setWidth 32, tf.tfTrapno, tf.tfErr, tf.tfEip,
    tf.tfCs.setWidth 32, tf.tfEflags,
    tf.tfEsp, tf.tfSs.setWidth 32]

/-- A CPU in the kernel, with `tf` at `a`. -/
def kernelCore (a : Word) (tf : Trapframe) : Core where
  toProgRegs := ⟨⟨0, 0, 0, 0, 0, 0, 0, 0, 0, 0⟩, GD_KD, GD_KD, GD_KT, GD_KD⟩
  mem := fun b => byteOf ((frameWords tf).getD ((b - a).toNat / 4) 0) ((b - a).toNat % 4)

/-- A place for the kernel's data. -/
def someAddrs : KernelAddrs :=
  ⟨fun _ => ⟨KSTACKTOP, GD_KD⟩, 0xf0104000, fun e => 0xf0200000 + BitVec.ofNat 32 (124 * e)⟩

/-- The frame of an environment that has not run yet. -/
def firstFrame : Trapframe := { Trapframe.fresh with tfEip := emptyElf.eEntry }

/-- A program that has put `w` in `eax`. -/
def withEax (w : Word) : ProgRegs := firstFrame.prog.answered w

/-- Two programs take turns on one CPU, by the timer; each of them puts its own value in `eax`. -/
def turnsRun : List BoardEvent :=
  let z e tf := kernelCore (someAddrs.envTf e) tf
  let timer := BoardEvent.trap 0 (.hardware IRQ_OFFSET) 0 0 0
  [.other (.create 0 emptyElf) (z 0 firstFrame), .other (.create 0 emptyElf) (z 0 firstFrame),
    .other (.start 0) (z 0 firstFrame),
    .user 0 (withEax 7), timer (z 1 firstFrame), .user 0 (withEax 9),
    timer (z 0 ((withEax 7).frame (someAddrs.ts 0) IRQ_OFFSET 0))]

/-- The event is no system call. -/
def noSysCall (x : Board × (ℕ → ProgRegs)) (ev : BoardEvent) : Bool :=
  match x.1.event someAddrs ev with
  | some (.trap _ t) => t.tf.tfTrapno != T_SYSCALL
  | _ => true

theorem leavesOthers_of_noSysCall {y : Board × (ℕ → ProgRegs)} {bev : BoardEvent}
    (h : noSysCall y bev = true) :
    Board.LeavesOthers someAddrs y bev := by
  intro kev hkev
  rw [noSysCall, hkev] at h
  cases kev with
  | trap c t =>
    have hno : t.tf.tfTrapno ≠ T_SYSCALL := bne_iff_ne.mp h
    refine ⟨?_, ?_, ?_⟩
    · rintro _ _ _ ⟨_, _, _, hcall, _⟩
      exact absurd hcall (not_sysCall_of_trapno hno)
    · rintro _ _ ⟨_, _, _, hcall, _⟩
      exact absurd hcall (not_sysCall_of_trapno hno)
    · rintro _ _ ⟨_, _, _, hcall, _⟩
      exact absurd hcall (not_sysCall_of_trapno hno)
  | _ => exact leavesOthers_of_not_trap (by simp)

/-- After `turnsRun` the first program is back, with what it had in `eax`. -/
theorem ownRegs_turns : ∃ b R, Reach (Board.stepWith someAddrs) (Board.LeavesOthers someAddrs)
    (⟨bootState 1, fun _ => kernelCore 0 firstFrame⟩, fun _ => firstFrame.prog) (b, R) ∧
    b.kern.curenv 0 = some 0 ∧ (R 0).regs.eax = 7 ∧ (R 1).regs.eax = 9 ∧
    (b.cores 0).toProgRegs = R 0 := by
  have hrun : ((turnsRun.foldlM (fun y bev =>
      if noSysCall y bev then Board.stepWith someAddrs y bev else none)
      (⟨bootState 1, fun _ => kernelCore 0 firstFrame⟩, fun _ => firstFrame.prog)).map fun y =>
      (y.1.kern.curenv 0, (y.2 0).regs.eax, (y.2 1).regs.eax)) =
        some (some 0, 7, 9) := by decide +kernel
  obtain ⟨⟨b, R⟩, hs, hcur⟩ := Option.map_eq_some_iff.mp hrun
  have hreach := Reach.of_guarded hs fun _ _ => leavesOthers_of_noSysCall
  have hcur₀ : b.kern.curenv 0 = some 0 := congrArg Prod.fst hcur
  exact ⟨b, R, hreach, hcur₀, congrArg (fun x => x.2.1) hcur, congrArg (fun x => x.2.2) hcur,
    (ownRegs_of_reach (bootState_booted 1) hreach).1 0 0 hcur₀⟩

end JOS
