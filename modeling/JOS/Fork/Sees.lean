import JOS.Fork.Stores

/-!
# What the library sees of the page tables

The tests of `fork` and `pgfault` read entries through `uvpt`. Below `UTOP` these are the entries of
the program itself, so a test that succeeds says what is mapped.
-/

namespace JOS

open JOS.General

variable {s : KState} {c e : ℕ} {addr va err pte : Word} {b : BitVec 8}

/-- `uvpt` of the program that CPU `c` runs. -/
theorem uvpt_program (hload : Loaded s) (hgood : Good s) (hcur : s.curenv c = some e)
    (hva : va < UTOP)
    (h : uvpt (s.program c) (PGNUM va) = some pte) : pte = s.upte e (PGNUM va) := by
  have hd := hload c e hcur
  have hself : Names ((s.program c).mem.phys (s.program c).dir (PDX UVPT)) (s.program c).dir :=
    (hgood.uvpt e _ hd).1
  rw [uvpt_eq hself (PGNUM_lt va)] at h
  split_ifs at h
  cases h
  exact (upte_of_dir hd ((PGNUM_lt_iff va).mpr hva)).symm

/-- **Programs see their page tables**: in every state of a run, `uvpd` is the page directory of the
program, and `uvpt` the entries that its addresses are translated with, wherever a page table is
there for it. -/
theorem uvpt_of_reach {s₀ : KState} (h₀ : Booted s₀) (h : Reach step Tame s₀ s)
    (hcur : s.curenv c = some e) :
    ∃ d, s.dirs e = some d ∧ (∀ i < 1024, uvpd (s.program c) i = some (s.mem.phys d i)) ∧
      ∀ va, (uvpt (s.program c) (PGNUM va) ≠ none ↔
          test (s.mem.phys d (PDX va)) PTE_P = true ∧ test (s.mem.phys d (PDX va)) PTE_U = true) ∧
        ∀ pte, uvpt (s.program c) (PGNUM va) = some pte →
        translate s.mem d va = if test pte PTE_P then some pte else none := by
  have hd := (sound_of_reach h₀ h).loaded c e hcur
  obtain ⟨hself, hU, -⟩ := (good_of_reach h₀ h).uvpt e _ hd
  have hself : Names ((s.program c).mem.phys (s.program c).dir (PDX UVPT)) (s.program c).dir :=
    hself
  refine ⟨_, hd, fun i hi => uvpd_eq hself hU hi, fun va => ?_⟩
  have huvpt := uvpt_eq hself (PGNUM_lt va)
  rw [← PDX_eq] at huvpt
  refine ⟨?_, fun pte hpte => ?_⟩
  · rw [huvpt]
    split_ifs with hpde
    · exact iff_of_true (Option.some_ne_none _) hpde
    · exact iff_of_false (fun hne => hne rfl) hpde
  · rw [huvpt] at hpte
    split_ifs at hpte
    cases hpte
    exact translate_eq_dirPte

/-- A program that has just started sees the page of its code. -/
theorem uvpt_of_reach_tiny : ∃ (s : KState) (d : ℕ) (pte : Word), s.dirs 0 = some d ∧
    uvpt (s.program 0) (PGNUM 0x800010) = some pte ∧
    translate s.mem d 0x800010 = some pte := by
  have hrun : (([.create 0 tinyElf, .start 0] : List Event).foldlM
    (fun t e => if tameCheck t e then step t e else none) (bootState 1)).map
      (fun s => (s.curenv 0, (uvpt (s.program 0) (PGNUM 0x800010)).map fun pte => test pte PTE_P)) =
          some (some 0, some true) := by
    decide +kernel
  obtain ⟨s, hs, hfacts⟩ := Option.map_eq_some_iff.mp hrun
  simp only [Prod.mk.injEq] at hfacts
  obtain ⟨hcur, hfacts⟩ := hfacts
  obtain ⟨pte, hpte, hP⟩ := Option.map_eq_some_iff.mp hfacts
  obtain ⟨d, hd, -, htables⟩ :=
    uvpt_of_reach (bootState_booted 1) (Reach.of_guarded hs fun _ _ => tame_of_check) hcur
  refine ⟨s, d, pte, hd, hpte, ?_⟩
  have htranslate := (htables 0x800010).2 pte hpte
  rwa [if_pos hP] at htranslate

theorem lt_UTOP_of_stack (h : va < USTACKTOP) : va < UTOP := by
  have htop : USTACKTOP.toNat < UTOP.toNat := by decide
  have h : va.toNat < USTACKTOP.toNat := h
  exact h.trans htop

theorem PGNUM_lt_stack (h : addr < USTACKTOP) : PGNUM addr < PGNUM USTACKTOP := by
  have h : addr.toNat < USTACKTOP.toNat := h
  have htop : USTACKTOP.toNat = 0xeebfe000 := by decide
  rw [PGNUM_eq, PGNUM_eq]
  omega

/-- The test of `fork`. -/
theorem scanTest_present (hload : Loaded s) (hgood : Good s) (hcur : s.curenv c = some e)
    (haddr : addr < USTACKTOP)
    (h : Lib.scanTest (s.program c) addr = some true) : Present s e (PGNUM addr) := by
  obtain ⟨pde, -, h⟩ := Option.bind_eq_some_iff.mp h
  split_ifs at h
  · cases h
  obtain ⟨pte, hpte, h⟩ := Option.bind_eq_some_iff.mp h
  rw [uvpt_program hload hgood hcur (lt_UTOP_of_stack haddr) hpte, Option.some.injEq,
    Bool.and_eq_true] at h
  exact h.1

/-- `(~w & g) == 0`: every bit of `g` is set in `w`. -/
theorem and_eq_of_missing {w f g : Word} (h : (~~~w &&& g) = 0#32) (hf : g &&& f = f) :
    w &&& f = f := by
  refine BitVec.eq_of_getLsbD_eq fun i hi => ?_
  have hmissing := congrArg (BitVec.getLsbD · i) h
  have hbit := congrArg (BitVec.getLsbD · i) hf
  simp only [BitVec.getLsbD_and, BitVec.getLsbD_not, hi, decide_true, Bool.true_and,
    BitVec.getLsbD_zero] at hmissing hbit ⊢
  revert hmissing hbit
  cases w.getLsbD i <;> cases g.getLsbD i <;> cases f.getLsbD i <;> simp

/-- The test of `pgfault`, below `UTOP`. -/
theorem pgfaultTest_cow (hload : Loaded s) (hgood : Good s) (hcur : s.curenv c = some e)
    (hva : va < UTOP)
    (h : Lib.pgfaultTest (s.program c) va err = some true) :
    Present s e (PGNUM va) ∧ test (s.upte e (PGNUM va)) PTE_COW = true := by
  rw [Lib.pgfaultTest] at h
  split_ifs at h
  · cases h
  obtain ⟨pde, -, h⟩ := Option.bind_eq_some_iff.mp h
  split_ifs at h
  · cases h
  obtain ⟨pte, hpte, h⟩ := Option.bind_eq_some_iff.mp h
  rw [uvpt_program hload hgood hcur hva hpte, Option.some.injEq, beq_iff_eq] at h
  have hP := and_eq_of_missing h (f := PTE_P) (by decide)
  have hcow := and_eq_of_missing h (f := PTE_COW) (by decide)
  refine ⟨?_, ?_⟩
  · rw [Present, test, hP]
    decide
  · rw [test, hcow]
    decide

/-- What a program loads below `UTOP`. -/
theorem load8_program (hload : Loaded s) (hcur : s.curenv c = some e) (hva : va < UTOP)
    (h : (s.program c).load8 va = some b) :
    Present s e (PGNUM va) ∧ b = s.mem.byte (PGNUM (s.upte e (PGNUM va))) (va.toNat % 4096) := by
  rw [Running.load8] at h
  obtain ⟨pte, ht, h⟩ := Option.bind_eq_some_iff.mp h
  have ht : translate s.mem (s.cpus c).cr3 va = some pte := ht
  obtain ⟨hP, hentry⟩ := translate_eq (hload c e hcur) hva ht
  have hentry : s.upte e (PGNUM va) = pte := hentry
  split_ifs at h
  rw [loadByte_eq] at h
  have h : (translate s.mem (s.cpus c).cr3 va).map
    (fun pte => s.mem.byte (PGNUM pte) (va.toNat % 4096)) = some b := h
  rw [ht, Option.map_some, Option.some.injEq] at h
  rw [Present, hentry]
  exact ⟨hP, h.symm⟩

/-- A byte of a page, from its first address. -/
theorem PGNUM_add (addr : Word) {n : ℕ} (haddr : addr.toNat % 4096 = 0) (hn : n < 4096) :
    PGNUM (addr + BitVec.ofNat 32 n) = PGNUM addr ∧
        (addr + BitVec.ofNat 32 n).toNat % 4096 = n := by
  have hlt := addr.isLt
  rw [PGNUM_eq, PGNUM_eq, BitVec.toNat_add, BitVec.toNat_ofNat]
  omega

end JOS
