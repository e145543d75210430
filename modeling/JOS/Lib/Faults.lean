import JOS.Lib.Pfentry
import JOS.Lib.RunsTo
import JOS.Sched.Loaded
import JOS.Spaces.Contents

/-!
# Faults inside faults

A page fault takes a program to its upcall, with a frame on the exception stack (`Upcalled`), and
the C handler that the upcall calls may fault in turn (`Handler`). A fault in a handler finds the
stack pointer on the exception stack, and its frame goes below the others. When it is over they are
as they were (`Handler.keeps`), so every fault, at any depth, gives the program its registers back.
-/

namespace JOS

open JOS.General Running

variable {x x₁ y z : Running} {s₀ s s' : KState} {P : ℕ → Prop} {t : TrapIn} {tf : Trapframe}
  {addrs : UpcallAddrs} {F : List Word}
  {a utf esp va : Word} {c cur k : ℕ}

/-- A page fault of the program at `x`, after which the kernel has it go on at `x₁`. -/
def Enters (cur : ℕ) (x x₁ : Running) : Prop :=
  ∃ t : TrapIn, t.tf.tfTrapno = T_PGFLT ∧ t.tf.user = x.regs ∧
    step x.kern (.trap x.cpu t) = some x₁.kern ∧
    x₁.cpu = x.cpu ∧ x₁.kern.curenv x.cpu = some cur ∧ x₁.regs = (x₁.kern.envs cur).envTf.user

theorem atUpcall_envTf (s : KState) (cur : ℕ) (m : Mem) :
    ((atUpcall s cur m).envs cur).envTf = { (s.envs cur).envTf with
    tfEip := (s.envs cur).envPgfaultUpcall, tfEsp := utfAddr (s.envs cur).envTf.tfEsp } :=
  congrArg Env.envTf (KState.setEnv_envs_self _ _ _)

/-- The kernel's part of a page fault that it lets the program handle. -/
theorem pageFault_resumes (hcur : s.curenv c = some cur) (hno : t.tf.tfTrapno = T_PGFLT)
    (hs : step s (.trap c t) = some s')
    (hcur' : s'.curenv c = some cur) :
    ∃ m, storeWords s.mem (s.cpus c).cr3 (utfAddr t.tf.tfEsp) (utfWords t.cr2 t.tf) = .ok m ∧
      envRun (atUpcall (trapEntry s.reset c cur t) cur m) c cur = .gone s' := by
  have hcur₀ : s.reset.curenv c = some cur := hcur
  simp only [step] at hs
  split_ifs at hs with hfits
  have htrap := state?_eq_some.mp hs
  cases trapEnds htrap with
  | dying hc hst hfree hyield =>
    cases hcur.symm.trans hc
    exact absurd hcur' (leaves_of_envFree hfree hyield).curenv_ne
  | wakes hk hw => exact absurd (trapFits_user hcur hfits) hk
  | user hc hst h =>
    cases hcur.symm.trans hc
    rw [trap_user hcur hst hfits, trapDispatch, if_pos hno] at htrap
    rcases leaveWith_gone htrap with hgone | ⟨s₁, hok, -⟩
    · rcases pageFaultHandler_cases (trapEntry_curenv hcur₀ t) hgone with h | ⟨-, -, m, hstore, h⟩
      · exact absurd hcur' (envDestroy_leaves h).2.curenv_ne
      · refine ⟨m, ?_, h⟩
        have henv : ((trapEntry s.reset c cur t).envs cur).envTf = t.tf :=
          congrArg Env.envTf (trapEntry_envs s.reset c cur t)
        have hcr3 : ((trapEntry s.reset c cur t).cpus c).cr3 = (s.cpus c).cr3 := by
          simp [trapEntry, KState.setEnv, KState.setCpu, KState.reset]
        rw [henv, hcr3] at hstore
        exact hstore
    · exact absurd hok pageFaultHandler_ne_ok

/-- **A page fault** that the kernel lets the program handle: the frame is on the exception
stack. -/
theorem Enters.spec (hok : StackOk cur x) (hP : DataPages x.mem x.dir P)
    (hfit : Fits (utfAddr x.regs.esp)) (h : Enters cur x x₁) :
    ∃ va tf, tf.user = x.regs ∧ StackOk cur x₁ ∧ x₁.regs.esp = utfAddr x.regs.esp ∧
      x₁.regs.eflags = x.regs.eflags ∧
      x₁.Shows (utfAddr x.regs.esp) (wordsByte (utfWords va tf)) 52 ∧
      Stores P x x₁ fun a => ∃ k < 52, a = utfAddr x.regs.esp + BitVec.ofNat 32 k := by
  obtain ⟨t, hno, huser, hs, hcpu, hcur', hregs⟩ := h
  have hesp : t.tf.tfEsp = x.regs.esp := congrArg UserRegs.esp huser
  obtain ⟨m, hstore, hrun⟩ := pageFault_resumes hok.curenv hno hs hcur'
  rw [hesp] at hstore
  have hle : (utfAddr x.regs.esp).toNat + 52 ≤ UTOP.toNat := hfit.2
  have hw : ∀ k < 52, x.CanWrite (utfAddr x.regs.esp + BitVec.ofNat 32 k) :=
    fun k hk => hok.canWrite (hfit.onStack hk)
  obtain ⟨m', hm', hc⟩ := hP.storeBytes (f := wordsByte (utfWords t.cr2 t.tf)) hle fun k hk => by
    obtain ⟨-, pte, ht, hW, -⟩ := hw k hk
    exact ⟨pte, ht, hW⟩
  rw [storeWords_eq] at hstore
  cases hm'.symm.trans hstore
  have hspaces := envRun_spaces hrun
  have hentry : (atUpcall (trapEntry x.kern.reset x.cpu cur t) cur m).dirs = x.kern.dirs :=
    (atUpcall_dirs _ cur m).trans (trapEntry_spaces x.kern.reset x.cpu cur t).2
  have hmem : x₁.mem = m := hspaces.1
  have hdirs : x₁.kern.dirs cur = some x.dir := by
    rw [hspaces.2, hentry]
    exact hok.dirs
  have hdir : x₁.dir = x.dir := by
    have hcr3 := (envRun_lands hrun).cr3 cur hcur'
    rw [hdirs] at hcr3
    rw [Running.dir, hcpu]
    exact (Option.some.inj hcr3).symm
  have hst : Stores P x x₁ fun a => ∃ k < 52, a = utfAddr x.regs.esp + BitVec.ofNat 32 k :=
    Stores.of_copied hc hmem hdir
  have henv : (x₁.kern.envs cur).envTf = { t.tf with
      tfEip := (x.kern.envs cur).envPgfaultUpcall, tfEsp := utfAddr t.tf.tfEsp } := by
    have ht := congrArg (fun τ : Table => (τ.envs cur).envTf) (envRun_writes hrun)
    simp only [Table.write_run_self] at ht
    refine Eq.trans ht ?_
    rw [show ((atUpcall (trapEntry x.kern.reset x.cpu cur t) cur m).table.envs cur).envTf =
      _ from atUpcall_envTf _ cur m,
      trapEntry_envs]
    rfl
  rw [henv] at hregs
  refine ⟨t.cr2, t.tf, huser, hok.stores hP hst (by rw [hcpu]; exact hcur') hdirs, ?_, ?_,
    fun k hk => ?_, hst⟩
  · rw [hregs, ← hesp]
    rfl
  · rw [hregs, ← huser]
    rfl
  · exact load8_copied hP hc hmem hdir (by decide) hw hk

/-! ### The handler -/

/-- The program of `cur` runs, on a machine that has come to this from `s₀`, and has an exception
stack. -/
structure HasStack (s₀ : KState) (cur : ℕ) (x : Running) : Prop where
  ran : RunsTo s₀ x.kern
  curenv : x.kern.curenv x.cpu = some cur
  stack : x.CanWrite (UXSTACKTOP - PGSIZE)

theorem HasStack.stackOk (h₀ : Booted s₀) (h : HasStack s₀ cur x) : StackOk cur x := by
  have hsound := (h.ran.sound h₀).1
  have hdirs : x.kern.dirs cur = some x.dir := hsound.loaded x.cpu cur h.curenv
  obtain ⟨k, hx⟩ := hsound.sound
  exact ⟨h.curenv, hdirs, ⟨_, hx.vm.dataPages hdirs⟩, h.stack⟩

/-- A fault at `x` takes the program to its C handler at `y`. -/
def Upcalled (cur : ℕ) (addrs : UpcallAddrs) (x y : Running) : Prop :=
  ∃ x₁, Enters cur x x₁ ∧ x₁.regs.eip = addrs.pgfaultUpcall ∧ execAll (upcallHead addrs) x₁ = some y

/-- The C handler for the frame at `utf` has returned. -/
def Returned (addrs : UpcallAddrs) (utf : Word) (x : Running) : Prop := x.regs.eip = addrs.next ∧
    x.regs.esp = utf - 4#32

/-- A C handler goes from `x` to `y`, with the frames `F` on the exception stack. `allowed` is what
is known of the faults that it has: the frames that were there, the trap-time stack pointer, and the
state in which their handlers return. -/
inductive Handler (s₀ : KState) (cur : ℕ) (addrs : UpcallAddrs)
    (allowed : List Word → Word → Running → Prop) :
    List Word → Running → Running → Prop where
  | done {F : List Word} {x : Running} : Handler s₀ cur addrs allowed F x x
  /-- The program does something else, or something happens to it, and nothing is written to the
  frames. -/
  | own {F : List Word} {x y z : Running} : HasStack s₀ cur y →
      (∀ utf ∈ F, ∀ k < 52, y.load8 (utf + BitVec.ofNat 32 k) = x.load8 (utf + BitVec.ofNat 32 k)) →
      FlagsFrom x.regs.eflags y.regs.eflags → Handler s₀ cur addrs allowed F y z →
      Handler s₀ cur addrs allowed F x z
  /-- A fault, which is handled. -/
  | fault {F : List Word} {x y z u v : Running} : Upcalled cur addrs x y →
      Handler s₀ cur addrs allowed (utfAddr x.regs.esp :: F) y z →
      Returned addrs (utfAddr x.regs.esp) z →
      allowed F x.regs.esp z → execAll upcallTail z = some u → Handler s₀ cur addrs allowed F u v →
      Handler s₀ cur addrs allowed F x v

theorem Handler.trans {allowed : List Word → Word → Running → Prop}
    (h : Handler s₀ cur addrs allowed F x y)
    (h' : Handler s₀ cur addrs allowed F y z) : Handler s₀ cur addrs allowed F x z := by
  induction h with
  | done => exact h'
  | own hy hkeep hfl _ ih => exact .own hy hkeep hfl (ih h')
  | fault hup hinner hret hallowed htail _ _ ih =>
      exact .fault hup hinner hret hallowed htail (ih h')

/-! ### What may be written -/

/-- The exception stack, below the trap-time stack pointer `esp` when that is there. -/
def BelowTop (esp a : Word) : Prop := OnStack a ∧ (OnStack esp → a < esp)

/-- The exception stack below its trap-time top, and the word below the trap-time stack pointer
`esp`. -/
def UpcallSpace (esp a : Word) : Prop := BelowTop esp a ∨ ∃ k < 4,
    a = esp - 4#32 + BitVec.ofNat 32 k

/-- No bytes of memory change but those at the addresses `A`. -/
def ChangesOnly (x y : Running) (A : Word → Prop) : Prop :=
  ∀ p o, (∀ a, A a → ¬ Slot x.mem x.dir a p o) → y.mem.byte p o = x.mem.byte p o

/-- The word below the trap-time stack pointer is on the exception stack, or it is other memory that
the program can write. -/
def WordOk (x : Running) (esp : Word) : Prop :=
  OnStack esp ∨ ∀ k < 4, x.CanWrite (esp - 4#32 + BitVec.ofNat 32 k) ∧ ∀ b, OnStack b →
    x.Apart (esp - 4#32 + BitVec.ofNat 32 k) b

/-- The frame of a recursive fault is 56 bytes below the stack pointer. -/
theorem utfAddr_onStack (h : OnStack esp) : (utfAddr esp).toNat = esp.toNat - 56 := by
  rw [utfAddr_toNat, if_pos (onStack_iff.mp h)]

theorem belowTop_of_lt (ha : OnStack a) (hlt : a.toNat < (utfAddr esp).toNat + 52) :
    BelowTop esp a := by
  refine ⟨ha, fun hesp => ?_⟩
  have hutf := utfAddr_onStack hesp
  rw [onStack_iff] at ha hesp
  rw [BitVec.lt_def]
  omega

theorem belowTop_frame (hfit : Fits (utfAddr esp)) (hk : k < 52) :
    BelowTop esp (utfAddr esp + BitVec.ofNat 32 k) := by
  refine belowTop_of_lt (hfit.onStack hk) ?_
  rw [hfit.add (by omega)]
  omega

theorem belowTop_pushed (hfit : Fits (utfAddr esp)) (ha : Pushed (utfAddr esp) a) :
    BelowTop esp a :=
  belowTop_of_lt (hfit.pushed ha).1 (by have := (hfit.pushed ha).2; omega)

theorem upcallSpace_unwound (hfit : Fits (utfAddr esp)) (ha : Unwound (utfAddr esp) esp a) :
    UpcallSpace esp a := by
  rcases ha with ⟨k, hk, rfl⟩ | ha
  · rw [slot_add]
    exact .inl (belowTop_frame hfit (by omega))
  · exact .inr ha

/-- The word below the stack pointer is not in the frame. -/
theorem WordOk.word (hok : StackOk cur x) (hfit : Fits (utfAddr esp)) (h : WordOk x esp)
    (hk : k < 4) :
    x.CanWrite (esp - 4#32 + BitVec.ofNat 32 k) ∧
      ∀ j < 52, x.Apart (esp - 4#32 + BitVec.ofNat 32 k) (utfAddr esp + BitVec.ofNat 32 j) := by
  rcases h with hesp | h
  · -- in the word that the kernel has left free
    have hutf := utfAddr_onStack hesp
    have haddr : esp - 4#32 + BitVec.ofNat 32 k = utfAddr esp + BitVec.ofNat 32 (52 + k) := by
      have hadd := hfit.add (k := 52 + k) (by omega)
      rw [onStack_iff] at hesp
      refine BitVec.eq_of_toNat_eq ?_
      rw [hadd]
      unfold Fits at hfit
      rw [BitVec.toNat_add, BitVec.toNat_sub, BitVec.toNat_ofNat, BitVec.toNat_ofNat]
      omega
    have hstack : OnStack (utfAddr esp + BitVec.ofNat 32 (52 + k)) := by
      rw [onStack_iff, hfit.add (by omega)]
      rw [onStack_iff] at hesp
      unfold Fits at hfit
      omega
    rw [haddr]
    exact ⟨hok.canWrite hstack, fun j hj => OnStack.apart x hstack (hfit.onStack hj)
      (hfit.ne (by omega) (by omega) (by omega))⟩
  · exact ⟨(h k hk).1, fun j hj => (h k hk).2 _ (hfit.onStack hj)⟩

/-! ### One fault -/

/-- The kernel and the beginning of the upcall. -/
theorem Upcalled.spec (hok : StackOk cur x) (hP : DataPages x.mem x.dir P)
    (hfit : Fits (utfAddr x.regs.esp))
    (h : Upcalled cur addrs x y) : ∃ va tf, tf.user = x.regs ∧ StackOk cur y ∧
    y.regs.eflags = x.regs.eflags ∧
      y.Shows (utfAddr x.regs.esp) (wordsByte (utfWords va tf)) 52 ∧
      Stores P x y (BelowTop x.regs.esp) := by
  obtain ⟨x₁, henters, -, hhead⟩ := h
  obtain ⟨va, tf, huser, hok₁, hesp₁, hfl₁, hshow₁, hs₁⟩ := henters.spec hok hP hfit
  have hP₁ := hs₁.dataPages hP
  obtain ⟨hoky, hfl, hs⟩ := execAll_upcallHead hok₁ hP₁ hfit hesp₁ hhead
  refine ⟨va, tf, huser, hoky, hfl.trans hfl₁, fun k hk => ?_, ?_⟩
  · -- the pushes are below the frame
    rw [hs.load8 hP₁ (hfit.onStack hk).lt fun b hb => ?_, hshow₁ k hk]
    obtain ⟨hb, hlt⟩ := hfit.pushed hb
    refine OnStack.apart x₁ hb (hfit.onStack hk) fun heq => ?_
    have hadd := hfit.add (k := k) (by omega)
    rw [← heq] at hadd
    omega
  · refine (Stores.mono hs₁ ?_).trans hP (Stores.mono hs fun a ha => belowTop_pushed hfit ha)
      fun a ha => ha.1.lt
    rintro a ⟨k, hk, rfl⟩
    exact belowTop_frame hfit hk

/-- The end of the upcall, when the frame is as it was. -/
theorem Returned.spec (hok : StackOk cur z) (hP : DataPages z.mem z.dir P)
    (hfit : Fits (utfAddr esp)) (hword : WordOk z esp)
    (hret : Returned addrs (utfAddr esp) z) (hesp : tf.tfEsp = esp)
    (hframe : z.Shows (utfAddr esp) (wordsByte (utfWords va tf)) 52)
    (hflags : FlagsFrom z.regs.eflags tf.tfEflags) :
    ∃ u, execAll upcallTail z = some u ∧ StackOk cur u ∧ u.regs = tf.user ∧
      Stores P z u (UpcallSpace esp) ∧
      u.Shows (utfAddr esp) (wordsByte (utfWords va tf.unwound)) 52 := by
  subst hesp
  obtain ⟨u, htail, hoku, hregs, hs, hshow⟩ := execAll_upcallTail hok hP hfit hret.2 hframe hflags
    (fun k hk => (hword.word hok hfit hk).1) fun k hk => (hword.word hok hfit hk).2
  exact ⟨u, htail, hoku, hregs, hs.mono fun a ha => upcallSpace_unwound hfit ha, hshow⟩

/-- **A fault** is undone when its handler returns and has left the frame as it was. -/
theorem Upcalled.undone (hok : StackOk cur x) (hup : Upcalled cur addrs x y)
    (hfit : Fits (utfAddr x.regs.esp))
    (hkeep : StackOk cur y → StackOk cur z ∧ FlagsFrom y.regs.eflags z.regs.eflags ∧
      ∀ k < 52, z.load8 (utfAddr x.regs.esp + BitVec.ofNat 32 k) = y.load8
        (utfAddr x.regs.esp + BitVec.ofNat 32 k))
    (hret : Returned addrs (utfAddr x.regs.esp) z) (hword : WordOk z x.regs.esp) :
    ∃ u, execAll upcallTail z = some u ∧ StackOk cur u ∧ u.regs = x.regs ∧
      (∃ P, DataPages x.mem x.dir P ∧ Stores P x y (UpcallSpace x.regs.esp)) ∧
      ∃ P, DataPages z.mem z.dir P ∧ Stores P z u (UpcallSpace x.regs.esp) := by
  obtain ⟨P, hP⟩ := hok.tables
  obtain ⟨va, tf, huser, hoky, hfly, hshow, hs⟩ := hup.spec hok hP hfit
  obtain ⟨hokz, hflz, hkeepz⟩ := hkeep hoky
  have hesp : tf.tfEsp = x.regs.esp := congrArg UserRegs.esp huser
  have hfl : tf.tfEflags = x.regs.eflags := congrArg UserRegs.eflags huser
  have hshowz : z.Shows (utfAddr x.regs.esp) (wordsByte (utfWords va tf)) 52 :=
    fun k hk => (hkeepz k hk).trans (hshow k hk)
  have hflags : FlagsFrom z.regs.eflags tf.tfEflags := by
    rw [hfl, ← hfly]
    exact hflz.symm
  obtain ⟨Q, hQ⟩ := hokz.tables
  obtain ⟨u, htail, hoku, hregs, hs', -⟩ := hret.spec hokz hQ hfit hword hesp hshowz hflags
  exact ⟨u, htail, hoku, hregs.trans huser, ⟨P, hP, hs.mono fun a ha => .inl ha⟩, Q, hQ, hs'⟩

/-! ### Faults inside faults -/

/-- The frame of the fault, with the words that the upcall pushes, fits the exception stack, and the
handlers whose frames are at `F` run on that stack, below their frames. -/
structure Nested (F : List Word) (esp : Word) (z : Running) : Prop where
  fits : Fits (utfAddr esp)
  word : WordOk z esp
  below : ∀ g ∈ F, OnStack esp ∧ esp.toNat ≤ g.toNat

/-- What the kernel and the upcall write for a fault inside handlers is not in the frames of
these. -/
theorem load8_outer {g : Word} (hP : DataPages x.mem x.dir P) (hs : Stores P x y (UpcallSpace esp))
    (hfits : Fits (utfAddr esp))
    (hesp : OnStack esp) (hle : esp.toNat ≤ g.toNat) (hg : Fits g) (hk : k < 52) :
    y.load8 (g + BitVec.ofNat 32 k) = x.load8 (g + BitVec.ofNat 32 k) := by
  have hutf := utfAddr_onStack hesp
  have hadd := hg.add (k := k) (by omega)
  refine hs.load8 hP (hg.onStack hk).lt ?_
  have hbelow : ∀ b, UpcallSpace esp b → OnStack b ∧ b.toNat < esp.toNat := by
    rintro b (⟨hb, hlt⟩ | ⟨j, hj, rfl⟩)
    · exact ⟨hb, hlt hesp⟩
    · rw [onStack_iff] at hesp ⊢
      unfold Fits at hfits
      rw [BitVec.toNat_add, BitVec.toNat_sub, BitVec.toNat_ofNat, BitVec.toNat_ofNat]
      omega
  intro b hb
  obtain ⟨hb, hlt⟩ := hbelow b hb
  refine OnStack.apart x hb (hg.onStack hk) fun heq => ?_
  rw [← heq] at hadd
  omega

/-- **A handler** leaves the frames as they are. -/
theorem Handler.keeps (h₀ : Booted s₀) (h : Handler s₀ cur addrs Nested F x y)
    (hok : StackOk cur x) :
    StackOk cur y ∧ FlagsFrom x.regs.eflags y.regs.eflags ∧
      ∀ g ∈ F, Fits g → ∀ k < 52, y.load8 (g + BitVec.ofNat 32 k) = x.load8
        (g + BitVec.ofNat 32 k) := by
  induction h with
  | done => exact ⟨hok, .refl _, fun _ _ _ _ _ => rfl⟩
  | own hy hkeep hfl _ ih =>
    obtain ⟨hokz, hflz, hkeepz⟩ := ih (hy.stackOk h₀)
    exact ⟨hokz, hfl.trans hflz, fun g hg hfits k hk =>
      (hkeepz g hg hfits k hk).trans (hkeep g hg k hk)⟩
  | @fault F x y z u v hup _ hret hnested htail _ ih ih' =>
    have hinner : StackOk cur y → StackOk cur z ∧ FlagsFrom y.regs.eflags z.regs.eflags ∧
        ∀ k < 52, z.load8 (utfAddr x.regs.esp + BitVec.ofNat 32 k) = y.load8
          (utfAddr x.regs.esp + BitVec.ofNat 32 k) := by
      intro hoky
      obtain ⟨hokz, hflz, hkeepz⟩ := ih hoky
      exact ⟨hokz, hflz, hkeepz _ (List.mem_cons_self ..) hnested.fits⟩
    obtain ⟨u', htail', hoku, hregs, ⟨P, hP, hs⟩, Q, hQ, hs'⟩ :=
      hup.undone hok hnested.fits hinner hret hnested.word
    cases htail.symm.trans htail'
    obtain ⟨hokv, hflv, hkeepv⟩ := ih' hoku
    refine ⟨hokv, by rwa [hregs] at hflv, fun g hg hfits k hk => ?_⟩
    obtain ⟨hst, hle⟩ := hnested.below g hg
    have hoky : StackOk cur y := by
      obtain ⟨_, _, _, hoky, -⟩ := hup.spec hok hP hnested.fits
      exact hoky
    rw [hkeepv g hg hfits k hk, load8_outer hQ hs' hnested.fits hst hle hfits hk,
      (ih hoky).2.2 g (List.mem_cons_of_mem _ hg) hfits k hk,
      load8_outer hP hs hnested.fits hst hle hfits hk]

end JOS
