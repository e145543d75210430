import JOS.Lib.Taken

/-!
# The upcall is transparent

A program that has a page fault goes on where it was, with the registers that it had, when its
handler returns (`goesBack_of_nested`). The handler may have faults of its own, as long as it runs
on the exception stack. The kernel takes only the page below `UXSTACKTOP` for that stack: a program
may map the pages below it, but the frame of a fault that a handler has there is at the top again,
over the frame of the first fault (`not_goesBack_second`).
-/

namespace JOS

open JOS.General Running

variable {x y z : Running} {s₀ : KState} {P : ℕ → Prop} {tf : Trapframe} {addrs : UpcallAddrs}
  {F : List Word}
  {a b esp va utf : Word} {cur p q k : ℕ}

/-- The fault at `x`, whose handler begins at `y` and returns at `z`, inside handlers whose frames
are at `F`. -/
structure Handled (s₀ : KState) (cur : ℕ) (addrs : UpcallAddrs)
    (allowed : List Word → Word → Running → Prop) (F : List Word)
    (x y z : Running) : Prop where
  upcalled : Upcalled cur addrs x y
  handler : Handler s₀ cur addrs allowed (utfAddr x.regs.esp :: F) y z
  returned : Returned addrs (utfAddr x.regs.esp) z
  allowed : allowed F x.regs.esp z

/-- The upcall takes the program back to where it was, with its registers. The kernel and the upcall
have written to the exception stack below its trap-time top, and to the word below the trap-time
stack pointer. -/
def GoesBack (x y z : Running) : Prop :=
  ∃ u, execAll upcallTail z = some u ∧ u.regs = x.regs ∧ ChangesOnly x y (UpcallSpace x.regs.esp) ∧
    ChangesOnly z u (UpcallSpace x.regs.esp)

/-- **Faults are transparent**, at any depth. -/
theorem goesBack_of_nested (h₀ : Booted s₀) (hx : HasStack s₀ cur x)
    (h : Handled s₀ cur addrs Nested F x y z) : GoesBack x y z := by
  have hok := hx.stackOk h₀
  have hkeep : StackOk cur y → StackOk cur z ∧ FlagsFrom y.regs.eflags z.regs.eflags ∧
      ∀ k < 52, z.load8 (utfAddr x.regs.esp + BitVec.ofNat 32 k) = y.load8
        (utfAddr x.regs.esp + BitVec.ofNat 32 k) := by
    intro hoky
    obtain ⟨hokz, hflz, hkeepz⟩ := h.handler.keeps h₀ hoky
    exact ⟨hokz, hflz, hkeepz _ (List.mem_cons_self ..) h.allowed.fits⟩
  obtain ⟨u, htail, -, hregs, ⟨P, -, hs⟩, Q, -, hs'⟩ :=
    h.upcalled.undone hok h.allowed.fits hkeep h.returned h.allowed.word
  exact ⟨u, htail, hregs, hs.others, hs'.others⟩

/-! ### A program with two pages of exception stack -/

/-- The program can write to page `p` of memory at the address `a`. -/
def WritesTo (x : Running) (a : Word) (p : ℕ) : Prop :=
  a < UTOP ∧ ∃ pte, translate x.mem x.dir a = some pte ∧ test pte PTE_W = true ∧
    test pte PTE_U = true ∧ PGNUM pte = p

theorem WritesTo.canWrite (h : WritesTo x a p) : x.CanWrite a := by
  obtain ⟨ha, pte, ht, hW, hU, -⟩ := h
  exact ⟨ha, pte, ht, hW, hU⟩

theorem WritesTo.same_page (h : WritesTo x a p) (hb : b < UTOP) (hpage : PGNUM b = PGNUM a) :
    WritesTo x b p := by
  obtain ⟨-, hpte⟩ := h
  rw [← translate_congr_page hpage] at hpte
  exact ⟨hb, hpte⟩

theorem WritesTo.stores {A : Word → Prop} (hP : DataPages x.mem x.dir P) (hs : Stores P x y A)
    (h : WritesTo x a p) :
    WritesTo y a p := by
  obtain ⟨ha, hpte⟩ := h
  rw [← hs.translate hP ha] at hpte
  exact ⟨ha, hpte⟩

/-- Different pages are different memory. -/
theorem wordOk_of_writesTo (hstack : WritesTo x (UXSTACKTOP - PGSIZE) p)
    (hword : ∀ k < 4, WritesTo x (esp - 4#32 + BitVec.ofNat 32 k) q) (hpq : p ≠ q) :
    WordOk x esp := by
  refine .inr fun k hk => ⟨(hword k hk).canWrite, fun b hb p' o hs hs' => ?_⟩
  obtain ⟨-, pte, ht, -, -, hpte⟩ := hword k hk
  obtain ⟨-, pte', ht', -, -, hpte'⟩ := hstack
  obtain ⟨w, hw, rfl, -⟩ := hs
  obtain ⟨w', hw', heq, -⟩ := hs'
  rw [ht] at hw
  rw [translate_congr_page hb, ht'] at hw'
  cases hw
  cases hw'
  exact hpq (hpte'.symm.trans (heq.symm.trans hpte))

/-- The addresses of its upcall. -/
def upcallAddrs : UpcallAddrs := ⟨0x800020, 0x800800, 0x800028⟩

/-- The program after it has set its upcall and its handler. -/
structure Prepared (x : Running) : Prop where
  hasStack : HasStack (bootState 1) 0 x
  status : x.kern.status 0 = .running
  upcall : (x.kern.envs 0).envPgfaultUpcall = upcallAddrs.pgfaultUpcall
  handler : ∀ k < 4, (x.load8 (upcallAddrs.pgfaultHandler + BitVec.ofNat 32 k)).isSome = true
  stack : WritesTo x (UXSTACKTOP - PGSIZE) 0x3ffc
  below : WritesTo x (UXSTACKTOP - 2 * PGSIZE) 0x3ffb
  user : WritesTo x (USTACKTOP - PGSIZE) 0x3ffe

namespace Prepared

theorem withRegs (h : Prepared x) (r : UserRegs) : Prepared (x.withRegs r) :=
  ⟨⟨h.hasStack.ran, h.hasStack.curenv, h.hasStack.stack⟩, h.status, h.upcall, h.handler, h.stack,
    h.below, h.user⟩

theorem handler_lt (hk : k < 4) : upcallAddrs.pgfaultHandler + BitVec.ofNat 32 k < UTOP := by
  interval_cases k <;> decide

theorem stores {A : Word → Prop} (h : Prepared x) (hP : DataPages x.mem x.dir P)
    (hs : Stores P x y A) (hok : StackOk 0 y)
    (hran : RunsTo (bootState 1) y.kern) (hst : y.kern.status 0 = .running)
    (hup : (y.kern.envs 0).envPgfaultUpcall = upcallAddrs.pgfaultUpcall) : Prepared y where
  hasStack := ⟨hran, hok.curenv, hok.stack⟩
  status := hst
  upcall := hup
  handler k hk := (hs.load8_isSome hP (handler_lt hk)).trans (h.handler k hk)
  stack := h.stack.stores hP hs
  below := h.below.stores hP hs
  user := h.user.stores hP hs

/-- A fault. -/
theorem upcalled (h : Prepared x) (hfit : Fits (utfAddr x.regs.esp)) :
    ∃ y va tf, Upcalled 0 upcallAddrs x y ∧ Prepared y ∧ tf.user = x.regs ∧
      y.regs.eflags = x.regs.eflags ∧
      y.Shows (utfAddr x.regs.esp) (wordsByte (utfWords va tf)) 52 := by
  have hboot := bootState_booted 1
  have hok := h.hasStack.stackOk hboot
  obtain ⟨P, hP⟩ := hok.tables
  obtain ⟨y, hup, hran, hst, hupcall⟩ :=
    upcalled_total hboot h.hasStack (by rw [h.status]; decide) h.upcall (by decide) hfit
    fun k hk => ⟨handler_lt hk, h.handler k hk⟩
  obtain ⟨va, tf, huser, hoky, hfl, hshow, hs⟩ := hup.spec hok hP hfit
  exact ⟨y, va, tf, hup, h.stores hP hs hoky hran hst hupcall, huser, hfl, hshow⟩

/-- The return from its handler. -/
theorem returned (h : Prepared z) (hfit : Fits (utfAddr esp)) (hword : WordOk z esp)
    (hret : Returned upcallAddrs (utfAddr esp) z) (hesp : tf.tfEsp = esp)
    (hframe : z.Shows (utfAddr esp) (wordsByte (utfWords va tf)) 52)
    (hflags : FlagsFrom z.regs.eflags tf.tfEflags) :
    ∃ u, execAll upcallTail z = some u ∧ Prepared u ∧ u.regs = tf.user ∧
      u.Shows (utfAddr esp) (wordsByte (utfWords va tf.unwound)) 52 := by
  have hok := h.hasStack.stackOk (bootState_booted 1)
  obtain ⟨P, hP⟩ := hok.tables
  obtain ⟨u, htail, hoku, hregs, hs, hshow⟩ := hret.spec hok hP hfit hword hesp hframe hflags
  have henvs := execAll_envs htail
  refine ⟨u, htail, h.stores hP hs hoku (h.hasStack.ran.execAll htail) ?_ ?_, hregs, hshow⟩
  · rw [KState.status, henvs]
    exact h.status
  · rw [henvs]
    exact h.upcall

end Prepared

/-- The program at the return from the C handler. -/
def atReturn (x : Running) (utf : Word) : Running :=
  x.withRegs { x.regs with eip := upcallAddrs.next, esp := utf - 4#32 }

theorem returned_atReturn (x : Running) (utf : Word) :
    Returned upcallAddrs utf (atReturn x utf) := ⟨rfl, rfl⟩

theorem atReturn_shows {f : ℕ → BitVec 8} {n : ℕ} (h : x.Shows a f n) :
    (atReturn x utf).Shows a f n := h

theorem atReturn_eflags (x : Running) (utf : Word) :
    (atReturn x utf).regs.eflags = x.regs.eflags := rfl

/-- It maps the page below its exception stack, and a page for `_pgfault_handler`. -/
def preparedRun : List Event :=
  handlerRun ++ [.trap 0 (sysTrap 4 0 0xeebfe000 7 0 0), .trap 0 (sysTrap 4 0 0x800000 7 0 0),
    .store 0 0x800802 0x80]

/-- What is to be known of a page. -/
def pageFacts (s : KState) (a : Word) : Option (Bool × Bool × ℕ) :=
  (translate s.mem (s.cpus 0).cr3 a).map fun pte => (test pte PTE_W, test pte PTE_U, PGNUM pte)

theorem writesTo_of_facts {s : KState} {r : UserRegs} (h : pageFacts s a = some (true, true, p))
    (ha : a < UTOP) :
    WritesTo ⟨s, 0, r⟩ a p := by
  obtain ⟨pte, ht, hfacts⟩ := Option.map_eq_some_iff.mp h
  simp only [Prod.mk.injEq] at hfacts
  exact ⟨ha, pte, ht, hfacts⟩

/-- What is to be known of its state. -/
def preparedCheck (s : KState) : Bool :=
  s.curenv 0 == some 0 && decide (s.status 0 = .running) && (s.envs 0).envPgfaultUpcall ==
    upcallAddrs.pgfaultUpcall &&
    pageFacts s (UXSTACKTOP - PGSIZE) == some (true, true, 0x3ffc) && pageFacts s
      (UXSTACKTOP - 2 * PGSIZE) == some (true, true, 0x3ffb) &&
    pageFacts s (USTACKTOP - PGSIZE) == some (true, true, 0x3ffe) && (List.range 4).all fun k =>
      (Running.load8 ⟨s, 0, (s.envs 0).envTf.user⟩
        (upcallAddrs.pgfaultHandler + BitVec.ofNat 32 k)).isSome

theorem prepared : ∃ s, Reach step Tame (bootState 1) s ∧ ∀ r, Prepared ⟨s, 0, r⟩ := by
  have hrun : (preparedRun.foldlM (fun t e => if tameCheck t e then step t e else none)
      (bootState 1)).map preparedCheck = some true := by
    decide +kernel
  obtain ⟨s, hs, hcheck⟩ := Option.map_eq_some_iff.mp hrun
  simp only [preparedCheck, Bool.and_eq_true, beq_iff_eq, decide_eq_true_eq, List.all_eq_true,
    List.mem_range] at hcheck
  obtain ⟨⟨⟨⟨⟨⟨hcur, hst⟩, hup⟩, hstack⟩, hbelow⟩, huser⟩, hload⟩ := hcheck
  have hreach : Reach step Tame (bootState 1) s := Reach.of_guarded hs fun _ _ => tame_of_check
  refine ⟨s, hreach, fun r => ?_⟩
  have hstack : WritesTo ⟨s, 0, r⟩ (UXSTACKTOP - PGSIZE) 0x3ffc :=
    writesTo_of_facts hstack (by decide)
  exact ⟨⟨.of_reach hreach, hcur, hstack.canWrite⟩, hst, hup, hload, hstack,
    writesTo_of_facts hbelow (by decide),
    writesTo_of_facts huser (by decide)⟩

/-- A handler that returns at once. -/
theorem Prepared.returns {allowed : List Word → Word → Running → Prop} (h : Prepared y)
    (utf : Word) :
    Handler (bootState 1) 0 upcallAddrs allowed F y (atReturn y utf) :=
  .own (y := atReturn y utf) (h.withRegs _).hasStack (fun _ _ _ _ => rfl) (.refl _) .done

/-- The word below the program's stack. -/
theorem Prepared.userWord (h : Prepared x) : WordOk x USTACKTOP :=
  wordOk_of_writesTo h.stack (fun k hk => h.user.same_page (by interval_cases k <;> decide)
    (by interval_cases k <;> decide)) (by decide)

/-- Its registers at a fault. -/
def firstRegs : UserRegs := ⟨1, 2, 3, 4, USTACKTOP, 6, 7, 8, 0x800100, FL_IF⟩

theorem fits_first : Fits (utfAddr firstRegs.esp) := by
  unfold Fits
  decide

/-! ### Faults inside faults -/

/-- The registers at a fault of a handler, whose stack has come down to `esp`. -/
def nestedRegs (esp : Word) : UserRegs := ⟨21, 22, 23, 24, esp, 26, 27, 28, 0x800300, FL_IF⟩

/-- A fault of a handler on the exception stack, whose own handler is what `hinner` gives. -/
theorem Prepared.faultIn (h : Prepared y) (hfl : y.regs.eflags = FL_IF) (hon : OnStack esp)
    (hfit : Fits (utfAddr esp))
    (hbelow : ∀ g ∈ F, esp.toNat ≤ g.toNat)
    (hinner : ∀ x, Prepared x → x.regs.eflags = FL_IF → ∃ z,
    Handler (bootState 1) 0 upcallAddrs Nested (utfAddr esp :: F) x z ∧
      Prepared z ∧ z.regs.eflags = FL_IF) :
    ∃ (u : Running) (va : Word) (tf : Trapframe), Handler (bootState 1) 0 upcallAddrs Nested F y u ∧
      Prepared u ∧
      u.regs = nestedRegs esp ∧ tf.user = nestedRegs esp ∧
      u.Shows (utfAddr esp) (wordsByte (utfWords va tf.unwound)) 52 := by
  have hx : Prepared (y.withRegs (nestedRegs esp)) := h.withRegs _
  obtain ⟨x', va, tf, hup, hx', huser, hflags, hshow⟩ :=
    hx.upcalled (show Fits (utfAddr (nestedRegs esp).esp) from hfit)
  have hfl' : x'.regs.eflags = FL_IF := hflags
  obtain ⟨z, hhandler, hz, hflz⟩ := hinner x' hx' hfl'
  -- the handler of the fault has left the frame as it was
  obtain ⟨-, -, hkeep⟩ := hhandler.keeps (bootState_booted 1)
    (hx'.hasStack.stackOk (bootState_booted 1))
  have hframe : z.Shows (utfAddr esp) (wordsByte (utfWords va tf)) 52 := fun k hk =>
    (hkeep _ List.mem_cons_self hfit k hk).trans (hshow k hk)
  have hz' : Prepared (atReturn z (utfAddr esp)) := hz.withRegs _
  have hret := returned_atReturn z (utfAddr esp)
  have hesp : tf.tfEsp = esp := congrArg UserRegs.esp huser
  have heflags : tf.tfEflags = FL_IF := congrArg UserRegs.eflags huser
  have hfrom : FlagsFrom z.regs.eflags tf.tfEflags := by
    rw [hflz, heflags]
    exact .refl _
  obtain ⟨u, htail, hu, hregs, hshow'⟩ :=
    hz'.returned hfit (.inl hon) hret hesp (atReturn_shows hframe) hfrom
  have hown : FlagsFrom y.regs.eflags (nestedRegs esp).eflags := by
    rw [hfl]
    exact .refl _
  have hallowed : Nested F (nestedRegs esp).esp (atReturn z (utfAddr esp)) :=
    ⟨hfit, .inl hon, fun g hg => ⟨hon, hbelow g hg⟩⟩
  exact ⟨u, va, tf, .own hx.hasStack (fun _ _ _ _ => rfl) hown
    (.fault hup (hhandler.trans (hz.returns _)) hret hallowed htail .done),
    hu, hregs.trans huser, huser, hshow'⟩

/-- The stack pointers at the faults of the two handlers. -/
def innerEsps : Word × Word := (0xeebffe00, 0xeebffc00)

theorem innerEsps_nest : OnStack innerEsps.1 ∧ OnStack innerEsps.2 ∧ Fits (utfAddr innerEsps.1) ∧
    Fits (utfAddr innerEsps.2) ∧
    innerEsps.1.toNat ≤ (utfAddr firstRegs.esp).toNat ∧
      innerEsps.2.toNat ≤ (utfAddr innerEsps.1).toNat ∧
      innerEsps.2.toNat ≤ (utfAddr firstRegs.esp).toNat := by
  unfold Fits
  decide

/-- A fault, a fault of its handler, and a fault of that fault's handler, which returns at once. -/
theorem goesBack_third : ∃ x y z, x.regs = firstRegs ∧ HasStack (bootState 1) 0 x ∧
    Handled (bootState 1) 0 upcallAddrs Nested [] x y z ∧
    (∃ (va : Word) (tf : Trapframe), tf.user = nestedRegs innerEsps.1 ∧
      z.Shows (utfAddr innerEsps.1) (wordsByte (utfWords va tf.unwound)) 52) ∧ GoesBack x y z := by
  obtain ⟨s, -, hprep⟩ := prepared
  obtain ⟨hon₁, hon₂, hfit₁, hfit₂, hle₁, hle₂, hle₂'⟩ := innerEsps_nest
  have hx := hprep firstRegs
  obtain ⟨y, -, -, hup, hy, -, hfl, -⟩ := hx.upcalled fits_first
  obtain ⟨u, va, tf, hhandler, hu, -, huser, hshow⟩ :=
    hy.faultIn (F := [utfAddr firstRegs.esp]) hfl hon₁ hfit₁
    (fun g hg => List.mem_singleton.mp hg ▸ hle₁) fun x hx hflx => by
      have hbelow : ∀ g ∈ [utfAddr innerEsps.1, utfAddr firstRegs.esp],
          innerEsps.2.toNat ≤ g.toNat := by
        rintro g hg
        rcases List.mem_cons.mp hg with rfl | hg
        · exact hle₂
        · exact List.mem_singleton.mp hg ▸ hle₂'
      obtain ⟨w, -, -, hthird, hw, hregs, -, -⟩ :=
        hx.faultIn hflx hon₂ hfit₂ hbelow fun x' hx' hflx' => ⟨x', .done, hx', hflx'⟩
      exact ⟨w, hthird, hw, by rw [hregs]; rfl⟩
  have hz : Prepared (atReturn u (utfAddr firstRegs.esp)) := hu.withRegs _
  have hhandled : Handled (bootState 1) 0 upcallAddrs Nested [] ⟨s, 0, firstRegs⟩ y
    (atReturn u (utfAddr firstRegs.esp)) :=
    ⟨hup, hhandler.trans (hu.returns _), returned_atReturn _ _, fits_first, hz.userWord, fun g hg =>
      absurd hg List.not_mem_nil⟩
  exact ⟨_, _, _, rfl, hx.hasStack, hhandled, ⟨va, tf, huser, atReturn_shows hshow⟩,
    goesBack_of_nested (bootState_booted 1) hx.hasStack hhandled⟩

/-! ### Faults off the page -/

/-- The frame fits the page below `UXSTACKTOP`, and the word below the trap-time stack pointer is
there, or is other memory that the program can write. -/
structure FitsPage (F : List Word) (esp : Word) (z : Running) : Prop where
  base : (UXSTACKTOP - PGSIZE).toNat ≤ (utfAddr esp).toNat
  top : (utfAddr esp).toNat + 52 ≤ UXSTACKTOP.toNat
  word : WordOk z esp

/-- The registers at a fault of its handler, which has grown into the page below. -/
def secondRegs : UserRegs := ⟨11, 12, 13, 14, 0xeebfe800, 16, 17, 18, 0x800200, FL_IF⟩

theorem Prepared.belowWord (h : Prepared x) : WordOk x secondRegs.esp ∧
    WordOk x (secondRegs.esp - 4#32) := by
  constructor <;> refine wordOk_of_writesTo h.stack (fun k hk => h.below.same_page ?_ ?_)
    (by decide) <;>
    interval_cases k <;> decide

theorem fitsPage_first {z : Running} (hutf : utfAddr esp = utfAddr firstRegs.esp)
    (hword : WordOk z esp) : FitsPage F esp z := by
  refine ⟨?_, ?_, hword⟩ <;> rw [hutf] <;> decide

theorem utfAddr_second : utfAddr secondRegs.esp = utfAddr firstRegs.esp ∧
    utfAddr (secondRegs.esp - 4#32) = utfAddr firstRegs.esp := by
  decide

/-- A fault of the handler, which is handled. -/
theorem Prepared.second (h : Prepared x) (hx : x.regs = secondRegs) :
    ∃ (u : Running) (va : Word) (tf : Trapframe),
      Handler (bootState 1) 0 upcallAddrs FitsPage F x u ∧ Prepared u ∧ tf.user = secondRegs ∧
      u.regs = tf.user ∧ u.Shows (utfAddr firstRegs.esp)
        (wordsByte (utfWords va tf.unwound)) 52 := by
  have hutf : utfAddr x.regs.esp = utfAddr firstRegs.esp := by rw [hx, utfAddr_second.1]
  obtain ⟨y, va, tf, hup, hy, huser, hfl, hshow⟩ := h.upcalled (by rw [hutf]; exact fits_first)
  rw [hutf] at hshow
  have hesp : tf.tfEsp = x.regs.esp := congrArg UserRegs.esp huser
  have hflags : FlagsFrom y.regs.eflags tf.tfEflags := by
    rw [hfl, show tf.tfEflags = x.regs.eflags from congrArg UserRegs.eflags huser]
    exact .refl _
  have hz : Prepared (atReturn y (utfAddr x.regs.esp)) := hy.withRegs _
  have hword := hz.belowWord.1
  rw [← hx] at hword
  have hret := returned_atReturn y (utfAddr x.regs.esp)
  obtain ⟨u, htail, hu, hregs, hshow'⟩ :=
    hz.returned (by rw [hutf]; exact fits_first) hword hret hesp
    (atReturn_shows (by rw [hutf]; exact hshow)) (by rw [atReturn_eflags]; exact hflags)
  rw [hutf] at hshow'
  exact ⟨u, va, tf, .fault hup (hy.returns _) hret (fitsPage_first hutf hword) htail .done, hu,
    huser.trans hx, hregs, hshow'⟩

/-- The frame of the second fault is where that of the first is. -/
theorem not_goesBack_second : ∃ x y z, x.regs = firstRegs ∧ HasStack (bootState 1) 0 x ∧
    Handled (bootState 1) 0 upcallAddrs FitsPage [] x y z ∧ ¬ GoesBack x y z := by
  obtain ⟨s, -, hprep⟩ := prepared
  have hx := hprep firstRegs
  obtain ⟨y, -, -, hup, hy, -, hfl, -⟩ := hx.upcalled fits_first
  obtain ⟨u, va, tf, hsecond, hu, huser, hregs, hshow⟩ :=
    (hy.withRegs secondRegs).second (F := [utfAddr firstRegs.esp]) rfl
  have hz : Prepared (atReturn u (utfAddr firstRegs.esp)) := hu.withRegs _
  have hret := returned_atReturn u (utfAddr firstRegs.esp)
  have hflags : FlagsFrom y.regs.eflags secondRegs.eflags := by
    rw [hfl]
    exact .refl _
  have hhandler : Handler (bootState 1) 0 upcallAddrs FitsPage [utfAddr firstRegs.esp] y
    (atReturn u (utfAddr firstRegs.esp)) :=
    .own (hy.withRegs secondRegs).hasStack (fun _ _ _ _ => rfl) hflags
      (hsecond.trans (hu.returns _))
  refine ⟨_, y, _, rfl, hx.hasStack, ⟨hup, hhandler, hret, fitsPage_first rfl hz.userWord⟩, ?_⟩
  -- the upcall finds the registers of the second fault
  rintro ⟨v, htail, hback, -⟩
  have hesp : tf.unwound.tfEsp = secondRegs.esp - 4#32 := by
    rw [← huser]
    rfl
  rw [← utfAddr_second.2] at hret hshow
  obtain ⟨v', htail', -, hregs', -⟩ :=
    hz.returned (by rw [utfAddr_second.2]; exact fits_first) hz.belowWord.2 hret hesp
    (atReturn_shows hshow) (by rw [atReturn_eflags, hregs]; exact .refl _)
  cases htail.symm.trans htail'
  rw [hregs'] at hback
  have heax : tf.unwound.user.eax = firstRegs.eax := congrArg UserRegs.eax hback
  rw [show tf.unwound.user.eax = tf.user.eax from rfl, huser] at heax
  exact absurd heax (by decide)

end JOS
