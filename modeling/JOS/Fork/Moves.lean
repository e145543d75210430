import JOS.Fork.Sees

/-!
# Every move

The invariant of programs that fork holds after each move (`Cow.step`): one lemma for each of them,
and for `Move.go` one for each place in the library.
-/

namespace JOS

open JOS.General

open Function (update)

variable {s s' : KState} {lib : ℕ → Lib} {l l' : Lib} {pc pc' : ForkPc} {ev : Event} {y : Symbols}
  {t : TrapIn} {c e e' n p v : ℕ}
  {va addr err envid : Word} {b : BitVec 8} {w w' : World} {m : Move}

/-! ### Moves of the kernel -/

/-- What happens on a CPU that runs no program. -/
theorem Cow.idles (h : Cow s lib) (hcreate : ∀ c elf, ev ≠ .create c elf) (hno : NoCall s ev)
    (hsame : SameSpaces s s')
    (hs : JOS.step s ev = some s') : Cow s' lib := by
  refine h.stay (h.kern.step (tame_of_no_call h.oneAddress hcreate hno) hs) hsame
    fun e' envid hbe => ?_
  exact (h.builds e' envid hbe).1.step h.kern.sound.freeHead (h.live_of_builds hbe)
    (spares_of_no_call hno) hs

theorem start_spaces (hs : JOS.step s (.start c) = some s') : SameSpaces s s' := by
  simp only [JOS.step] at hs
  split_ifs at hs
  have hreset : SameSpaces s s.reset := ⟨rfl, rfl⟩
  exact hreset.trans (schedYield_spaces (state?_eq_some.mp hs))

/-- **A CPU starts.** -/
theorem Cow.start (h : Cow s lib) (hs : JOS.step s (.start c) = some s') : Cow s' lib :=
  h.idles (by simp) (noCall_of_not_trap (by simp)) (start_spaces hs) hs

theorem wakes_spaces (hcur : s.curenv c = none) (hs : JOS.step s (.trap c t) = some s') :
    SameSpaces s s' := by
  simp only [JOS.step] at hs
  split_ifs at hs
  have hstarted : SameSpaces s (s.reset.setCpu c { s.reset.cpus c with cpuStatus := .started }) :=
    ⟨rfl, rfl⟩
  have hnone : ∀ e, s.reset.curenv c ≠ some e := fun e he => by
    have he : s.curenv c = some e := he
    rw [hcur] at he
    cases he
  cases trapEnds (state?_eq_some.mp hs) with
  | dying hcur' => exact absurd hcur' (hnone _)
  | user hcur' => exact absurd hcur' (hnone _)
  | wakes _ h =>
    rcases h with h | h
    · exact hstarted.trans (trapReturn_spaces h)
    · exact hstarted.trans (schedYield_spaces h)

/-- **A trap of an idle CPU.** -/
theorem Cow.wakes (h : Cow s lib) (hcur : s.curenv c = none)
    (hs : JOS.step s (.trap c t) = some s') : Cow s' lib :=
  h.idles (by simp) (noCall_of_idle hcur) (wakes_spaces hcur hs) hs

/-! ### Traps of programs -/

/-- Only a program in its own code makes system calls that do not return. -/
theorem own_of_no_answer (ht : (lib e).traps y t = true) (hsys : t.tf.tfTrapno = T_SYSCALL)
    (hno : SysNo.ofWord t.args.no = some .yield ∨ SysNo.ofWord t.args.no = some .ipcRecv) :
    lib e = .start := by
  rcases Lib.traps_cases ht hsys with ⟨k, hk, hmakes⟩ | ⟨-, hl, -⟩
  · have hno' := TrapIn.makes_no hmakes
    obtain ⟨-, -, hrecv, hyield⟩ := Lib.call_no hk
    rcases hno with hno | hno
    · rw [hno] at hno'
      exact absurd (Option.some.inj hno').symm hyield
    · rw [hno] at hno'
      exact absurd (Option.some.inj hno').symm hrecv
  · exact hl

/-- A frame is above the stack's end. -/
theorem frame_high (h : (Event.trap c t).Stores va) : USTACKTOP ≤ va := by
  rcases h with ⟨c', b, hev⟩ | ⟨c', t', i, hev, -, hi, rfl⟩
  · cases hev
  · exact USTACKTOP_le_utfAddr hi

/-- **A trap of a program.** -/
theorem Cow.trap (h : Cow s lib) (hcur : s.curenv c = some e) (ht : (lib e).traps y t = true)
    (hs : JOS.step s (.trap c t) = some s') : Cow s' (World.afterTrap y lib e t s') := by
  obtain ⟨k, hk⟩ := h.kern.sound.sound
  have hturn := h.turn hcur ht hs
  have hload := h.kern.sound.loaded
  have hfree := h.kern.sound.freeHead
  have hok := h.tame hcur ht
  have hne : ¬ T_SYSCALL = T_PGFLT := by decide
  cases trap_turns hk hload hcur hs with
  | destroyed hdoes hphys =>
    obtain ⟨hgone, hd, hu⟩ := hdoes.upte_destroy
    rw [World.afterTrap, if_pos hgone]
    exact h.destroyed hturn (.of_phys hk hphys) hgone hd hu
  | frame hno hframe =>
    have hu := frame_spaces hk hload hfree hok hno hs hframe
    have hlive : s'.dirs e ≠ none := by
      rw [hframe.dirs]
      exact hturn.live
    rw [Lib.traps, if_pos hno, Bool.and_eq_true, beq_iff_eq, bne_iff_ne] at ht
    obtain ⟨hnone, hpc⟩ := ht
    have hlow := h.lowSame_of_high hok hs hcur hpc fun va => frame_high
    have hl := (h.libOk e).congr (fun v _ => by rw [hu]) (.inr (hlow e))
    rw [World.afterTrap, if_neg hlive, if_pos hno]
    refine h.quiet hturn hu hframe.dirs (fun e' _ => .inr (hlow e')) ⟨fun hp => absurd hp hpc,
      hl.fork, fun _ => ?_⟩
      (fun v j hex => ?_) fun envid hbe => ⟨hbe, ?_⟩
    · have hfault := hl.fault hpc
      rw [hnone] at hfault
      exact hfault
    · rcases hex with hp | hdup | ⟨addr, hunmap, -⟩
      · exact .inl hp
      · exact .inr (.inl hdup)
      · rw [hnone] at hunmap
        cases hunmap
    · rintro ⟨hsys, -⟩
      rw [hno] at hsys
      exact hne hsys.symm
  | answered hsys hans hphys =>
    refine Resumed.after ⟨h, hturn, .of_phys hk hphys, hans, hcur⟩ ht hsys ?_
    rw [hans.live hk hfree hload hcur (Lib.traps_ipc ht hsys) fun hno =>
      Lib.traps_destroy ht hsys hno]
    exact hturn.live
  | same hno hcall hsame =>
    have hlive : s'.dirs e ≠ none := by
      rw [hsame.2]
      exact hturn.live
    have hstays : World.afterTrap y lib e t s' = lib ∧ ¬ (lib e).Wakes t := by
      by_cases hsys : t.tf.tfTrapno = T_SYSCALL
      · have hl := own_of_no_answer ht hsys (hcall hsys)
        refine ⟨afterTrap_own hlive hsys (by rw [hl]; rfl), ?_⟩
        rintro ⟨-, envid, heq⟩
        rw [hl] at heq
        cases heq
      · exact ⟨by rw [World.afterTrap, if_neg hlive, if_neg hno, if_neg hsys], fun hw => hsys hw.1⟩
    rw [hstays.1]
    exact h.stay hturn.kern hsame fun e' envid hbe => hturn.builds e' envid hbe fun _ => hstays.2

/-! ### Stores -/

/-- A store makes no system call. -/
theorem Cow.turn_store (h : Cow s lib) (hcur : s.curenv c = some e)
    (hs : JOS.step s (.store c va b) = some s') :
    Tame s (.store c va b) ∧ Turn s s' lib e False := by
  have hno : NoCall s (.store c va b) := noCall_of_not_trap (by simp)
  have hok := tame_of_no_call h.oneAddress (by simp) hno
  exact ⟨hok, h.turn_of_no_call hcur hno hok hs⟩

/-- A store of a program outside its handler, which goes on to `pc'` in `fork`. -/
theorem Cow.stores_fork (h : Cow s lib) (hcur : s.curenv c = some e) (hl : lib e = ⟨pc, .none⟩)
    (hpc : pc ≠ .panicked)
    (hok : ForkOk s' e pc → ForkOk s' e pc')
    (hb : ∀ envid, pc'.builds = some envid → pc.builds = some envid)
    (hex : ∀ v j, (⟨pc, .none⟩ : Lib).Excuses e v j → (⟨pc', .none⟩ : Lib).Excuses e v j)
    (hs : JOS.step s (.store c va b) = some s') : Cow s' (update lib e ⟨pc', .none⟩) := by
  obtain ⟨k, hk⟩ := h.kern.sound.sound
  obtain ⟨htame, hturn⟩ := h.turn_store hcur hs
  obtain ⟨hd, hu⟩ := store_spaces hk h.kern.sound.loaded hs
  refine h.quiet hturn hu hd (fun e' he' => h.lowSame_of_other htame hs hcur (by rw [hl]; exact hpc)
    (by rw [hl]) he')
    (libOk_fork (hok ((h.forkOk hl hpc).congr fun v _ => by rw [hu])) ?_) (fun v j hex' => ?_)
      fun envid hbe => ?_
  · rw [Present, hu]
    exact h.not_present hl hpc
  · rw [hl] at hex'
    exact hex v j hex'
  · rw [hl]
    exact ⟨hb envid hbe, id⟩

/-- **A store of a program.** -/
theorem Cow.stores (h : Cow s lib) (hcur : s.curenv c = some e) (hl : (lib e).stores va = true)
    (hs : JOS.step s (.store c va b) = some s') : Cow s' lib := by
  rw [Lib.stores, Bool.and_eq_true, bne_iff_ne, Bool.or_eq_true, beq_iff_eq,
    decide_eq_true_eq] at hl
  obtain ⟨hpc, hwhere⟩ := hl
  obtain ⟨k, hk⟩ := h.kern.sound.sound
  obtain ⟨htame, hturn⟩ := h.turn_store hcur hs
  obtain ⟨hd, hu⟩ := store_spaces hk h.kern.sound.loaded hs
  rw [← Function.update_eq_self e lib]
  refine h.quiet hturn hu hd (fun e' he' => ?_) ((h.libOk e).congr (fun v _ => by rw [hu]) ?_)
    (fun v j => id) fun envid hbe => ⟨hbe, id⟩
  all_goals
    have hhigh : USTACKTOP ≤ va → ∀ va', (Event.store c va b).Stores va' → USTACKTOP ≤ va' := by
      rintro hva va' (⟨c', b', hev⟩ | ⟨c', t', i, hev, -⟩)
      · cases hev
        exact hva
      · cases hev
  · rcases hwhere with hnone | hva
    · exact h.lowSame_of_other htame hs hcur hpc hnone he'
    · exact .inr (h.lowSame_of_high htame hs hcur hpc (hhigh hva) _)
  · exact hwhere.imp_right fun hva => h.lowSame_of_high htame hs hcur hpc (hhigh hva) _

/-! ### The library between two system calls -/

/-- A step that changes nothing in the kernel. -/
theorem Cow.turn_refl (h : Cow s lib) (hcur : s.curenv c = some e) : Turn s s lib e False where
  kern := h.kern
  live := by
    rw [h.kern.sound.loaded c e hcur]
    simp
  notChild := fun _ _ hbe => h.not_child hcur hbe
  builds := fun e' envid hbe _ => (h.builds e' envid hbe).1

theorem SameContents.refl (s : KState) : SameContents s s := fun _ _ _ _ => rfl

/-- `fork` looks at something. -/
theorem Cow.looks (h : Cow s lib) (hcur : s.curenv c = some e) (hl : lib e = ⟨pc, .none⟩)
    (hpc : pc ≠ .panicked)
    (hdup : ∀ envid addr, pc ≠ .dupSelf envid addr)
    (hb : ∀ envid, pc'.builds = some envid → pc.builds = some envid)
    (hok : ForkOk s e pc') : Cow s (update lib e ⟨pc', .none⟩) :=
  h.goes (h.turn_refl hcur) (.refl s) rfl rfl hl hpc hdup (fun envid hbe => ⟨hb envid hbe, id⟩) hok

/-- **A program calls `fork`.** -/
theorem Cow.forks (h : Cow s lib) (hcur : s.curenv c = some e) (hl : lib e = .start) :
    Cow s (update lib e ⟨.handlerTest, .none⟩) :=
  h.looks hcur hl nofun nofun nofun trivial

/-- **`fork` goes on.** -/
theorem Cow.goFork (h : Cow s lib) (hcur : s.curenv c = some e) (hl : lib e = ⟨pc, .none⟩)
    (hs : Lib.goFork y s c pc = some (s', pc')) : Cow s' (update lib e ⟨pc', .none⟩) := by
  have hload := h.kern.sound.loaded
  cases pc with
  | handlerTest =>
    obtain ⟨handler, -, hs⟩ := Option.bind_eq_some_iff.mp hs
    cases hs
    refine h.looks hcur hl nofun nofun (fun envid hbe => ?_) ?_
    · split_ifs at hbe <;> cases hbe
    · split_ifs <;> trivial
  | handlerStore k =>
    obtain ⟨s₁, hstore, hs⟩ := Option.bind_eq_some_iff.mp hs
    cases hs
    refine h.stores_fork hcur hl nofun (fun _ => ?_) (fun envid hbe => ?_)
      (fun v j hex => absurd hex (not_excuses nofun nofun)) hstore
    · split_ifs <;> trivial
    · split_ifs at hbe <;> cases hbe
  | thisenvStore p k =>
    obtain ⟨s₁, hstore, hs⟩ := Option.bind_eq_some_iff.mp hs
    cases hs
    refine h.stores_fork hcur hl nofun (fun _ => ?_) (fun envid hbe => ?_)
      (fun v j hex => absurd hex (not_excuses nofun nofun)) hstore
    · split_ifs <;> trivial
    · split_ifs at hbe <;> cases hbe
  | scan envid addr =>
    rw [Lib.goFork] at hs
    split_ifs at hs with haddr
    · obtain ⟨found, htest, hs⟩ := Option.bind_eq_some_iff.mp hs
      cases hs
      refine h.looks hcur hl nofun nofun (fun envid' hbe => ?_) ?_
      · have hbe : some envid = some envid' := by split_ifs at hbe <;> exact hbe
        exact hbe
      · split_ifs with hfound
        · -- the page is there, and `PFTEMP` is not
          rw [hfound] at htest
          have hpresent := scanTest_present hload h.kern.good hcur haddr htest
          refine ⟨⟨PGNUM_lt_stack haddr, fun heq => h.not_present hl nofun ?_⟩, hpresent⟩
          rwa [← heq]
        · trivial
    · cases hs
      exact h.looks hcur hl nofun nofun (fun envid' hbe => hbe) trivial
  | dup envid addr =>
    obtain ⟨pte, hpte, hs⟩ := Option.bind_eq_some_iff.mp hs
    cases hs
    have hdup := h.forkOk hl nofun
    refine h.looks hcur hl nofun nofun (fun envid' hbe => ?_) ?_
    · split_ifs at hbe <;> exact hbe
    · split_ifs with hcow
      · exact hdup
      · have hva : addr < UTOP := (PGNUM_lt_iff addr).mp (lt_trans hdup.user.1 (by decide))
        rw [uvpt_program hload h.kern.good hcur hva hpte, Bool.or_eq_true, not_or, Bool.not_eq_true,
          Bool.not_eq_true] at hcow
        exact ⟨hdup, hcow.1, hcow.2⟩
  | _ => cases hs

/-- **`pgfault` tests** why it was called. -/
theorem Cow.tests (h : Cow s lib) (hcur : s.curenv c = some e)
    (hl : (lib e).fault = .entered va err) {cow : Bool}
    (htest : Lib.pgfaultTest (s.program c) va err = some cow) :
    Cow s (update lib e (if cow then { lib e with fault := .alloc (ROUNDDOWN va PGSIZE) }
        else .panicked)) := by
  have hpc := Resumed.not_panicked h (e := e) (by rw [hl]; nofun)
  have hnot := (h.libOk e).fault hpc
  rw [hl] at hnot
  cases cow with
  | false => exact h.panics (h.turn_refl hcur) (.refl s) rfl rfl
  | true =>
    refine h.quiet (h.turn_refl hcur) rfl rfl (fun e' _ => .inr fun _ _ _ _ => rfl)
      ⟨fun hp => absurd hp hpc, (h.libOk e).fork, fun _ => ⟨hnot, fun hlt => ?_⟩⟩
        (fun v j hex => ?_) fun envid hbe => ⟨hbe, id⟩
    · have hround := ROUNDDOWN_toNat va
      have hva : va < UTOP := by
        have hlt : (ROUNDDOWN va PGSIZE).toNat < UTOP.toNat := hlt
        rw [hround, UTOP_toNat] at hlt
        rw [BitVec.lt_def, UTOP_toNat]
        omega
      have hpage : PGNUM (ROUNDDOWN va PGSIZE) = PGNUM va := by
        rw [PGNUM_eq, PGNUM_eq, hround]
        omega
      obtain ⟨hpresent, hcow⟩ := pgfaultTest_cow h.kern.sound.loaded h.kern.good hcur hva htest
      rw [← hpage] at hpresent hcow
      refine ⟨⟨h.low e _ hcow, fun heq => hnot ?_⟩, by rw [hround]; omega, hpresent, hcow⟩
      rwa [← heq]
    · rcases hex with hp | hdup | ⟨addr, hunmap, -⟩
      · exact .inl hp
      · exact .inr (.inl hdup)
      · rw [hl] at hunmap
        cases hunmap

/-- **The handler writes `PFTEMP`**, and no page that is elsewhere. -/
theorem Cow.copy_content (h : Cow s lib) (hcur : s.curenv c = some e)
    (hl : (lib e).fault = .copy addr n)
    (hs : JOS.step s (.store c (PFTEMP + BitVec.ofNat 32 n) b) = some s')
    (hne : (e', v) ≠ (e, PGNUM PFTEMP))
    (hn : Names (s.upte e' v) p) : s'.sharing.content p = s.sharing.content p := by
  have hpc := Resumed.not_panicked h (e := e) (by rw [hl]; nofun)
  have hfault := (h.libOk e).fault hpc
  rw [hl] at hfault
  obtain ⟨hlt, hpresent, hwritable, -⟩ := hfault
  obtain ⟨-, -, -, hbytes⟩ := store_writes h.kern.sound.loaded hcur hs
  rw [(PGNUM_add PFTEMP (by decide) hlt).1] at hbytes
  funext o
  refine (hbytes p o).trans (if_neg fun heq => hne ?_)
  refine Resumed.alone_PFTEMP h hpc (fun addr => by rw [hl]; nofun) hwritable ⟨hpresent, rfl⟩ ?_
  rw [← heq.1]
  exact page_eq_some.mpr hn

/-- **`memcpy`** copies one byte. -/
theorem Cow.copies (h : Cow s lib) (hcur : s.curenv c = some e) (hl : (lib e).fault = .copy addr n)
    (hload : (s.program c).load8 (addr + BitVec.ofNat 32 n) = some b)
    (hs : JOS.step s (.store c (PFTEMP + BitVec.ofNat 32 n) b) = some s') :
    Cow s' (update lib e { lib e with
        fault := if n + 1 < PGSIZE.toNat then .copy addr (n + 1) else .map addr }) := by
  obtain ⟨k, hk⟩ := h.kern.sound.sound
  have hpc := Resumed.not_panicked h (e := e) (by rw [hl]; nofun)
  have hfault := (h.libOk e).fault hpc
  rw [hl] at hfault
  obtain ⟨hn, hpresent, hwritable, hpage⟩ := hfault
  obtain ⟨htame, hturn⟩ := h.turn_store hcur hs
  obtain ⟨hd, hu⟩ := store_spaces hk h.kern.sound.loaded hs
  obtain ⟨-, -, -, hbytes⟩ := store_writes h.kern.sound.loaded hcur hs
  obtain ⟨htemp, hoff⟩ := PGNUM_add PFTEMP (by decide) hn
  rw [htemp, hoff] at hbytes
  have hcopying : Copying s' e addr (n + 1) := by
    refine ⟨by rw [Present, hu]; exact hpresent, by rw [hu]; exact hwritable, fun hlt => ?_⟩
    obtain ⟨hcow, hcopied⟩ := hpage hlt
    have hnames' : Names (s.upte e (PGNUM addr)) (PGNUM (s.upte e (PGNUM addr))) :=
      ⟨hcow.present, rfl⟩
    have hne : (e, PGNUM addr) ≠ (e, PGNUM PFTEMP) := fun heq => hcow.user.2 (congrArg Prod.snd heq)
    refine ⟨hcow.congr fun v _ => by rw [hu], fun o ho => ?_⟩
    rw [hu, h.copy_content hcur hl hs hne hnames']
    refine (hbytes _ o).trans ?_
    obtain ⟨hsource, hoff'⟩ := PGNUM_add addr hcow.aligned hn
    have hva : addr + BitVec.ofNat 32 n < UTOP := by
      rw [← PGNUM_lt_iff, hsource]
      exact (PGNUM_lt_iff addr).mpr hlt
    obtain ⟨-, hb⟩ := load8_program h.kern.sound.loaded hcur hva hload
    rw [hsource, hoff'] at hb
    by_cases hon : o.val = n
    · rw [if_pos ⟨rfl, hon⟩, hb, ← hon]
      rfl
    · rw [if_neg fun heq => hon heq.2]
      exact hcopied o (by omega)
  have hsize : PGSIZE.toNat = 4096 := by decide
  refine h.quiet hturn hu hd (fun e' he' => .inr fun v p _ hn' =>
    h.copy_content hcur hl hs (fun heq => he' (congrArg Prod.fst heq)) hn')
    ⟨fun hp => absurd hp hpc, fun _ => ((h.libOk e).fork hpc).congr
      fun v _ => by rw [hu], fun _ => ?_⟩ (fun v j hex => ?_)
    fun envid hbe => ⟨hbe, id⟩
  · dsimp only
    split_ifs with hlast
    · exact ⟨by omega, hcopying⟩
    · have hall : n + 1 = 4096 := by omega
      rw [hall] at hcopying
      exact hcopying
  · rcases hex with hp | hdup | ⟨addr', hfault, -⟩
    · exact .inl hp
    · exact .inr (.inl hdup)
    · rw [hl] at hfault
      cases hfault

/-- **The library goes on.** -/
theorem Cow.goes_on (h : Cow s lib) (hcur : s.curenv c = some e)
    (hs : (lib e).go y s c = some (s', l')) :
    Cow s' (update lib e l') := by
  rw [Lib.go] at hs
  split at hs
  · rename_i hfault
    obtain ⟨⟨s₁, pc'⟩, hgo, heq⟩ := Option.map_eq_some_iff.mp hs
    cases heq
    have hl : lib e = ⟨(lib e).fork, .none⟩ := by rw [← hfault]
    have hgoes := h.goFork hcur hl hgo
    rw [hl]
    exact hgoes
  · rename_i hfault
    obtain ⟨cow, htest, heq⟩ := Option.bind_eq_some_iff.mp hs
    cases heq
    exact h.tests hcur hfault htest
  · rename_i hfault
    obtain ⟨b, hload, hs⟩ := Option.bind_eq_some_iff.mp hs
    obtain ⟨s₁, hstore, heq⟩ := Option.bind_eq_some_iff.mp hs
    cases heq
    exact h.copies hcur hfault hload hstore
  · cases hs

/-- **The invariant of programs that fork** holds after every move. -/
theorem Cow.step (h : Cow w.kern w.lib) (hs : w.step y m = some w') : Cow w'.kern w'.lib := by
  cases m with
  | start c =>
    obtain ⟨s', hstep, rfl⟩ := Option.map_eq_some_iff.mp hs
    exact h.start hstep
  | store c va b =>
    obtain ⟨e, hcur, hs⟩ := Option.bind_eq_some_iff.mp hs
    split_ifs at hs with hl
    obtain ⟨s', hstep, rfl⟩ := Option.map_eq_some_iff.mp hs
    exact h.stores hcur hl hstep
  | fork c =>
    obtain ⟨e, hcur, hs⟩ := Option.bind_eq_some_iff.mp hs
    split_ifs at hs with hl
    cases hs
    rw [hl]
    exact h.forks hcur hl
  | go c =>
    obtain ⟨e, hcur, hs⟩ := Option.bind_eq_some_iff.mp hs
    obtain ⟨⟨s', l'⟩, hgo, heq⟩ := Option.bind_eq_some_iff.mp hs
    cases heq
    exact h.goes_on hcur hgo
  | trap c t =>
    rw [World.step] at hs
    split at hs
    · rename_i hcur
      obtain ⟨s', hstep, rfl⟩ := Option.map_eq_some_iff.mp hs
      exact h.wakes hcur hstep
    · rename_i e hcur
      split_ifs at hs with hl
      obtain ⟨s', hstep, rfl⟩ := Option.map_eq_some_iff.mp hs
      exact h.trap hcur hl hstep

end JOS
