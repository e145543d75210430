import JOS.Kern.Boot
import JOS.Memory.Footprint

/-!
# What `user_mem_check` decides

`Accessible` says what the comment over `user_mem_check` promises: a range of user
addresses that does not wrap, below `ULIM`, on pages that are present with the given
permissions. `userMemCheckLoop_eq` says what the loop of `user_mem_check` decides
about the pages it visits; which pages those are is a matter of the 32-bit sums that
bound the loop, and these go wrong when `va + len`, or its round-up, passes the end
of the address space.
-/

namespace JOS

open JOS.General

/-- A page directory of an environment: the tables its present entries name are in memory. -/
def TablesInMemory (m : Mem) (pgdir : ℕ) : Prop :=
  ∀ i < NPDENTRIES, test (m.phys pgdir i) PTE_P → PGNUM (m.phys pgdir i) < m.npages

/-- A user address that may be used with permissions `perm`: below `ULIM`, on a present page
whose entry has all bits of `perm`. -/
def AddrOk (m : Mem) (pgdir : ℕ) (perm a : Word) : Prop :=
  a < ULIM ∧ ∃ pte, translate m pgdir a = some pte ∧ pte &&& perm = perm

instance (m : Mem) (pgdir : ℕ) (perm a : Word) : Decidable (AddrOk m pgdir perm a) :=
  match h : translate m pgdir a with
  | none => isFalse fun ⟨_, _, h', _⟩ => by simp [h] at h'
  | some pte =>
    if h' : a < ULIM ∧ pte &&& perm = perm then isTrue ⟨h'.1, pte, h, h'.2⟩
    else isFalse fun ⟨h₁, pte', h₂, h₃⟩ => h' ⟨h₁, by rw [h] at h₂; cases h₂; exact h₃⟩

/-- What `user_mem_check` is there to decide: `[va, va+len)` does not wrap, and each address in it
may be used. -/
def Accessible (m : Mem) (pgdir : ℕ) (va len perm : Word) : Prop :=
  va.toNat + len.toNat ≤ 2 ^ 32 ∧
    ∀ a : Word, va.toNat ≤ a.toNat → a.toNat < va.toNat + len.toNat → AddrOk m pgdir perm a

/-! ### Rounding -/

theorem PGSIZE_toNat : PGSIZE.toNat = 4096 := rfl

theorem ROUNDDOWN_toNat (a : Word) : (ROUNDDOWN a PGSIZE).toNat = a.toNat / 4096 * 4096 := by
  have hle : (a % PGSIZE).toNat ≤ a.toNat := by
    rw [BitVec.toNat_umod]; exact Nat.mod_le _ _
  rw [ROUNDDOWN, BitVec.toNat_sub_of_le (BitVec.le_def.mpr hle), BitVec.toNat_umod, PGSIZE_toNat]
  have := Nat.div_add_mod a.toNat 4096
  omega

/-- The round-up is of the wrapped sum. -/
theorem ROUNDUP_add_toNat (va len : Word) :
    (ROUNDUP (va + len) PGSIZE).toNat = (va.toNat + len.toNat + 4095) % 2 ^ 32 / 4096 * 4096 := by
  have h : (va + len + PGSIZE - 1).toNat = (va.toNat + len.toNat + 4095) % 2 ^ 32 := by
    have : va + len + PGSIZE - 1 = va + len + 4095#32 := by
      rw [PGSIZE, BitVec.sub_eq_add_neg, BitVec.add_assoc]; rfl
    rw [this, BitVec.toNat_add, BitVec.toNat_add, BitVec.toNat_ofNat]
    omega
  rw [ROUNDUP, ROUNDDOWN_toNat, h]

theorem ROUNDUP_toNat (a : Word) : (ROUNDUP a PGSIZE).toNat = (a.toNat + 4095) %
    2 ^ 32 / 4096 * 4096 := by
  have h := ROUNDUP_add_toNat a 0#32
  rwa [BitVec.add_zero, BitVec.toNat_ofNat, Nat.zero_mod, Nat.add_zero] at h

/-! ### A page is checked once for all its addresses -/

theorem translate_congr_page {m : Mem} {pgdir : ℕ} {a b : Word} (h : PGNUM a = PGNUM b) :
    translate m pgdir a = translate m pgdir b := by
  simp only [translate, PDX_eq, PTX_eq, h]

theorem AddrOk.congr_page {m : Mem} {pgdir : ℕ} {perm a b : Word} (ha : AddrOk m pgdir perm a)
    (h : PGNUM a = PGNUM b) : AddrOk m pgdir perm b := by
  obtain ⟨hlt, pte, ht, hp⟩ := ha
  refine ⟨?_, pte, by rw [← translate_congr_page h]; exact ht, hp⟩
  -- `ULIM` is the beginning of a page
  rw [PGNUM_eq, PGNUM_eq] at h
  rw [BitVec.lt_def, show ULIM.toNat = 0xef800 * 4096 from rfl] at hlt ⊢
  omega

/-! ### The loop -/

section

variable {m : Mem} {pgdir : ℕ} {va fin perm : Word}

/-- One pass of the loop. -/
theorem userMemCheckLoop_succ (hdir : TablesInMemory m pgdir) (n : ℕ) {i : Word} (hi : i < fin) :
    userMemCheckLoop m pgdir va fin perm (n + 1) i =
      if AddrOk m pgdir perm i then userMemCheckLoop m pgdir va fin perm n (i + PGSIZE)
      else .ok (some (if i < va then va else i)) := by
  have hpdx : PDX i < NPDENTRIES := by
    have := PGNUM_lt i
    rw [PDX_eq, NPDENTRIES]; omega
  rw [userMemCheckLoop, if_pos hi, pgdirWalk]
  by_cases hpde : test (m.phys pgdir (PDX i)) PTE_P
  · have hkaddr : kaddr m (PTE_ADDR (m.phys pgdir (PDX i))) =
        .ok (PGNUM (m.phys pgdir (PDX i))) := by
      rw [kaddr, PGNUM_PTE_ADDR, if_neg (by have := hdir _ hpdx hpde; omega)]
    have hok : AddrOk m pgdir perm i ↔
        (decide (i ≥ ULIM) || !test (m.phys (PGNUM (m.phys pgdir (PDX i))) (PTX i)) PTE_P ||
          m.phys (PGNUM (m.phys pgdir (PDX i))) (PTX i) &&& perm != perm) = false := by
      by_cases hpte : test (m.phys (PGNUM (m.phys pgdir (PDX i))) (PTX i)) PTE_P
      · simp [AddrOk, translate, hpde, hpte]
      · simp [AddrOk, translate, hpde, hpte]
    simp only [if_pos hpde, hkaddr, ok_bind, pure_eq_ok, Mem.word]
    by_cases h : AddrOk m pgdir perm i
    · rw [if_pos h, if_neg (by rw [hok.mp h]; simp)]
    · rw [if_neg h, if_pos (Bool.eq_true_of_not_eq_false (mt hok.mpr h))]
  · have hno : ¬ AddrOk m pgdir perm i := by
      rintro ⟨-, pte, ht, -⟩
      simp [translate, hpde] at ht
    simp [hpde, hno]

/-- **The loop** of `user_mem_check` finds nothing wrong exactly when every address from `i` to
`fin` may be used. The induction is on the number of pages left. -/
theorem userMemCheckLoop_eq (hdir : TablesInMemory m pgdir) (hfin : fin.toNat % 4096 = 0) :
    ∀ (n : ℕ) (i : Word), i.toNat % 4096 = 0 → fin.toNat ≤ i.toNat + n * 4096 →
      ∃ bad, userMemCheckLoop m pgdir va fin perm n i = .ok bad ∧
        (bad = none ↔ ∀ a : Word, i.toNat ≤ a.toNat → a.toNat < fin.toNat →
          AddrOk m pgdir perm a) := by
  intro n
  induction n with
  | zero =>
    intro i _ hle
    exact ⟨none, rfl, ⟨fun _ a h₁ h₂ => by omega, fun _ => rfl⟩⟩
  | succ n ih =>
    intro i hi hle
    by_cases hlt : i < fin
    swap
    · rw [BitVec.lt_def] at hlt
      refine ⟨none, ?_, ⟨fun _ a h₁ h₂ => by omega, fun _ => rfl⟩⟩
      rw [userMemCheckLoop, if_neg (by rw [BitVec.lt_def]; exact hlt)]
    have hlt' : i.toNat < fin.toNat := BitVec.lt_def.mp hlt
    have hfin' := fin.isLt
    have hnext : (i + PGSIZE).toNat = i.toNat + 4096 := by
      rw [BitVec.toNat_add, PGSIZE_toNat]; omega
    rw [userMemCheckLoop_succ hdir n hlt]
    by_cases hok : AddrOk m pgdir perm i
    · obtain ⟨bad, heq, hbad⟩ := ih (i + PGSIZE) (by omega) (by omega)
      refine ⟨bad, by rw [if_pos hok, heq], hbad.trans ⟨fun h a h₁ h₂ => ?_, fun h a h₁ h₂ =>
        h a (by omega) h₂⟩⟩
      -- an address of this page, or of a later one
      by_cases hpage : a.toNat < i.toNat + 4096
      · exact hok.congr_page (by rw [PGNUM_eq, PGNUM_eq]; omega)
      · exact h a (by omega) h₂
    · refine ⟨_, by rw [if_neg hok], ⟨fun h => by simp at h, fun h => absurd (h i le_rfl hlt') hok⟩⟩

end

/-- What `user_mem_check` returns: `0` when the loop, from the beginning of `va`'s page to the
wrapped round-up of `va+len`, finds nothing wrong, and `-E_FAULT` otherwise. -/
theorem userMemCheck_eq {m : Mem} {pgdir : ℕ} (hdir : TablesInMemory m pgdir) (va len perm : Word) :
    ∃ bad r, userMemCheck m pgdir va len perm = .ok (r, bad) ∧ (r = 0 ∨ r = -E_FAULT) ∧
      (r = 0 ↔ ∀ a : Word, va.toNat / 4096 * 4096 ≤ a.toNat →
        a.toNat < (va.toNat + len.toNat + 4095) % 2 ^ 32 / 4096 * 4096 →
        AddrOk m pgdir perm a) := by
  obtain ⟨bad, heq, hbad⟩ := @userMemCheckLoop_eq m pgdir va (ROUNDUP (va + len) PGSIZE) perm hdir
    (by rw [ROUNDUP_add_toNat]; exact Nat.mul_mod_left _ _) (2 ^ 20) (ROUNDDOWN va PGSIZE)
    (by rw [ROUNDDOWN_toNat]; exact Nat.mul_mod_left _ _)
      (by rw [ROUNDUP_add_toNat, ROUNDDOWN_toNat]; omega)
  rw [ROUNDDOWN_toNat, ROUNDUP_add_toNat] at hbad
  refine ⟨bad, if bad.isSome then -E_FAULT else 0, by rw [userMemCheck, heq]; rfl, ?_, ?_⟩
  · cases bad <;> simp
  · rw [← hbad]
    cases bad with
    | none => simp
    | some a => simp [E_FAULT]

/-! ### When the check is right -/

/-- `user_mem_check(env, va, len, perm)` does its job: `0` for a range that may be used, and
`-E_FAULT` for every other. -/
def UserMemCheckOk (m : Mem) (pgdir : ℕ) (va len perm : Word) : Prop :=
  (Accessible m pgdir va len perm → (userMemCheck m pgdir va len perm).map Prod.fst = .ok 0) ∧
    (¬ Accessible m pgdir va len perm → (userMemCheck m pgdir va len perm).map Prod.fst =
      .ok (-E_FAULT))

/-- The inputs on which the wrapping sums do no harm: the round-up of `va+len` stays in 32 bits; or
`va+len` wraps round to `va`'s own page, past its beginning, so that the loop visits that page, and
the page may not be used. -/
def RangeChecked (m : Mem) (pgdir : ℕ) (va len perm : Word) : Prop :=
  va.toNat + len.toNat + 4095 < 2 ^ 32 ∨
    2 ^ 32 + va.toNat / 4096 * 4096 < va.toNat + len.toNat ∧ va.toNat < 2 ^ 32 - 4096 ∧
      ¬ AddrOk m pgdir perm va

/-- The result as `UserMemCheckOk` speaks of it. -/
theorem userMemCheckOk_iff {m : Mem} {pgdir : ℕ} (hdir : TablesInMemory m pgdir)
    (va len perm : Word) :
    UserMemCheckOk m pgdir va len perm ↔
      (Accessible m pgdir va len perm ↔ ∀ a : Word, va.toNat / 4096 * 4096 ≤ a.toNat →
        a.toNat < (va.toNat + len.toNat + 4095) % 2 ^ 32 / 4096 * 4096 →
        AddrOk m pgdir perm a) := by
  obtain ⟨bad, r, heq, hr, hiff⟩ := userMemCheck_eq hdir va len perm
  have hne : (-E_FAULT : Word) ≠ 0 := by decide
  rw [UserMemCheckOk, heq, ← hiff]
  simp only [Except.map, Except.ok.injEq]
  constructor
  · rintro ⟨h₁, h₂⟩
    refine ⟨h₁, fun h => by_contra fun hno => hne ?_⟩
    rw [← h₂ hno, h]
  · intro h
    exact ⟨h.mp, fun hno => hr.resolve_left fun h₀ => hno (h.mpr h₀)⟩

/-- The pages of a range may be used if its addresses may. -/
theorem addrOk_pages {m : Mem} {pgdir : ℕ} {va len perm : Word} (hlen : 0 < len.toNat)
    (hsum : va.toNat + len.toNat + 4095 < 2 ^ 32) :
    (∀ a : Word, va.toNat / 4096 * 4096 ≤ a.toNat →
      a.toNat < (va.toNat + len.toNat + 4095) % 2 ^ 32 / 4096 * 4096 → AddrOk m pgdir perm a) ↔
      ∀ a : Word, va.toNat ≤ a.toNat → a.toNat < va.toNat + len.toNat → AddrOk m pgdir perm a := by
  rw [Nat.mod_eq_of_lt hsum]
  refine ⟨fun h a h₁ h₂ => h a (by omega) (by omega), fun h a h₁ h₂ => ?_⟩
  obtain ⟨b, hb₁, hb₂, hpage⟩ : ∃ b : Word, va.toNat ≤ b.toNat ∧ b.toNat < va.toNat + len.toNat ∧
      b.toNat / 4096 = a.toNat / 4096 := by
    by_cases hlow : a.toNat < va.toNat
    · exact ⟨va, le_rfl, by omega, by omega⟩
    by_cases hhigh : a.toNat < va.toNat + len.toNat
    · exact ⟨a, by omega, hhigh, rfl⟩
    · refine ⟨BitVec.ofNat 32 (va.toNat + len.toNat - 1), ?_⟩
      rw [BitVec.toNat_ofNat, Nat.mod_eq_of_lt (by omega)]
      omega
  exact (h b hb₁ hb₂).congr_page (by rw [PGNUM_eq, PGNUM_eq, hpage])

/-- **`user_mem_check` is right exactly on the inputs of `RangeChecked`.** Past these, `va+len` or
its round-up wraps, the loop stops short of the range, and a range that leaves the user's part of
the address space is let through. -/
theorem userMemCheck_correct_iff {m : Mem} {pgdir : ℕ} (hdir : TablesInMemory m pgdir)
    {va len : Word}
    (hlen : 0 < len.toNat) (perm : Word) :
    UserMemCheckOk m pgdir va len perm ↔ RangeChecked m pgdir va len perm := by
  have hva := va.isLt
  have hl := len.isLt
  rw [userMemCheckOk_iff hdir, RangeChecked]
  by_cases hsum : va.toNat + len.toNat + 4095 < 2 ^ 32
  · -- nothing wraps: the loop visits the pages the range touches
    refine iff_of_true ?_ (.inl hsum)
    rw [addrOk_pages hlen hsum]
    exact ⟨fun h => h.2, fun h => ⟨by omega, h⟩⟩
  · -- the range reaches the last page, so it is not to be let through
    have hno : ¬ Accessible m pgdir va len perm := by
      rintro ⟨hwrap, h⟩
      have hlast := (h (BitVec.ofNat 32 (va.toNat + len.toNat - 1))
        (by rw [BitVec.toNat_ofNat, Nat.mod_eq_of_lt (by omega)]; omega)
        (by rw [BitVec.toNat_ofNat, Nat.mod_eq_of_lt (by omega)]; omega)).1
      rw [BitVec.lt_def, BitVec.toNat_ofNat, Nat.mod_eq_of_lt (by omega),
        show ULIM.toNat = 0xef800000 from rfl] at hlast
      omega
    simp only [hno, hsum, false_iff, false_or, not_forall]
    constructor
    · rintro ⟨a, h₁, h₂, hbad⟩
      have hlow : va.toNat < 2 ^ 32 - 4096 := by omega
      refine ⟨by omega, hlow, fun hok => hbad (hok.congr_page ?_)⟩
      rw [PGNUM_eq, PGNUM_eq]; omega
    · rintro ⟨hround, hlow, hbad⟩
      exact ⟨va, by omega, by omega, hbad⟩

instance (m : Mem) (pgdir : ℕ) : Decidable (TablesInMemory m pgdir) := by
  unfold TablesInMemory; infer_instance

/-- The directory the kernel boots with, and a range in the first page. -/
theorem userMemCheck_correct_bootMem : UserMemCheckOk bootMem 0x300 0x10 0x20 PTE_U :=
  (userMemCheck_correct_iff (by decide +kernel) (by decide) PTE_U).mpr (.inl (by decide))

/-- An environment that asks for all memory from `KERNBASE` on: `va+len` is `0`, the loop visits no
page, and `user_mem_check` returns `0`. -/
theorem userMemCheck_kernbase : ∃ s d, envAlloc (bootState 1) 0 = .ok (.ok 0, s) ∧
    (s.envs 0).envPgdir = some d ∧
    TablesInMemory s.mem d ∧ ¬ UserMemCheckOk s.mem d KERNBASE 0x10000000 PTE_U := by
  refine ⟨_, 16383, rfl, rfl, by decide +kernel, ?_⟩
  rintro ⟨-, h⟩
  refine absurd (h fun hacc => ?_) (by decide +kernel)
  exact absurd (hacc.2 KERNBASE (by decide) (by decide)).1 (by decide)

/-! ### The first bad address -/

section

variable {m : Mem} {pgdir : ℕ} {va len fin perm : Word}

/-- What `user_mem_check` tests of the entry that `pgdir_walk` gives it. -/
theorem addrOk_iff {i : Word} (hP : test (m.phys pgdir (PDX i)) PTE_P = true) :
    AddrOk m pgdir perm i ↔
    (decide (i ≥ ULIM) || !test (m.word ⟨PGNUM (m.phys pgdir (PDX i)), PTX i⟩) PTE_P ||
      m.word ⟨PGNUM (m.phys pgdir (PDX i)), PTX i⟩ &&& perm != perm) = false := by
  simp only [Mem.word]
  by_cases hpte : test (m.phys (PGNUM (m.phys pgdir (PDX i))) (PTX i)) PTE_P <;>
    simp [AddrOk, translate, hP, hpte]

/-- One pass of a loop that comes to an end: the page is all right and the loop goes on, or it is
not and its address is the answer. -/
theorem userMemCheckLoop_pass {n : ℕ} {i : Word} {o : Option Word} (hi : i < fin)
    (h : userMemCheckLoop m pgdir va fin perm (n + 1) i = .ok o) :
    AddrOk m pgdir perm i ∧ userMemCheckLoop m pgdir va fin perm n (i + PGSIZE) = .ok o ∨
      ¬ AddrOk m pgdir perm i ∧ o = some (if i < va then va else i) := by
  rw [userMemCheckLoop, if_pos hi] at h
  obtain ⟨⟨pte, m'⟩, hwalk, h⟩ := bind_eq_ok.mp h
  obtain ⟨rfl, ⟨rfl, hP⟩ | ⟨rfl, hP⟩⟩ := pgdirWalk_look hwalk
  · -- there is no table
    cases h
    refine .inr ⟨?_, rfl⟩
    rintro ⟨-, pte, ht, -⟩
    exact hP (translate_eq_some.mp ht).1
  · have hok : AddrOk m' pgdir perm i ↔ _ := addrOk_iff hP
    simp only [pure_eq_ok, ok_bind] at h
    by_cases hA : AddrOk m' pgdir perm i
    · simp only [hok.mp hA, Bool.false_eq_true, if_false] at h
      exact .inl ⟨hA, h⟩
    · simp only [Bool.eq_true_of_not_eq_false (mt hok.mpr hA), if_true] at h
      cases h
      exact .inr ⟨hA, rfl⟩

/-- Where the loop stops: at the first page from `i` on that may not be used. The induction is on
the number of pages left. -/
theorem userMemCheckLoop_stop (hfin : fin.toNat % 4096 = 0) {a : Word} :
    ∀ (n : ℕ) (i : Word), i.toNat % 4096 = 0 →
      userMemCheckLoop m pgdir va fin perm n i = .ok (some a) →
      ∃ j : Word, i.toNat ≤ j.toNat ∧ j.toNat < fin.toNat ∧ j.toNat % 4096 = 0 ∧
        ¬ AddrOk m pgdir perm j ∧
        a = (if j < va then va else j) ∧ ∀ b : Word, i.toNat ≤ b.toNat → b.toNat < j.toNat →
        AddrOk m pgdir perm b := by
  intro n
  induction n with
  | zero =>
    intro i _ h
    cases h
  | succ n ih =>
    intro i hi h
    by_cases hlt : i < fin
    swap
    · rw [userMemCheckLoop, if_neg hlt] at h
      cases h
    have hlt' : i.toNat < fin.toNat := BitVec.lt_def.mp hlt
    have hfin' := fin.isLt
    have hnext : (i + PGSIZE).toNat = i.toNat + 4096 := by
      rw [BitVec.toNat_add, PGSIZE_toNat]; omega
    rcases userMemCheckLoop_pass hlt h with ⟨hok, h⟩ | ⟨hbad, ha⟩
    · obtain ⟨j, hij, hj, hj', hbad, ha, hall⟩ := ih (i + PGSIZE) (by omega) h
      refine ⟨j, by omega, hj, hj', hbad, ha, fun b hb₁ hb₂ => ?_⟩
      -- an address of this page, or of a later one
      by_cases hpage : b.toNat < i.toNat + 4096
      · exact hok.congr_page (by rw [PGNUM_eq, PGNUM_eq]; omega)
      · exact hall b (by omega) hb₂
    · refine ⟨i, le_rfl, hlt', hi, hbad, Option.some.inj ha, fun b hb₁ hb₂ => ?_⟩
      omega

end

/-- **`user_mem_check` reports the first bad address**: when it returns `-E_FAULT`, the address it
stores is the least one of the range that may not be used. -/
theorem userMemCheck_first {m : Mem} {pgdir : ℕ} {va len perm : Word} {bad : Option Word}
    (hlen : 0 < len.toNat)
    (h : userMemCheck m pgdir va len perm = .ok (-E_FAULT, bad)) :
    ∃ a : Word, bad = some a ∧ va.toNat ≤ a.toNat ∧ a.toNat < va.toNat + len.toNat ∧
      ¬ AddrOk m pgdir perm a ∧
      ∀ b : Word, va.toNat ≤ b.toNat → b.toNat < a.toNat → AddrOk m pgdir perm b := by
  obtain ⟨o, hloop, h⟩ := bind_eq_ok.mp h
  simp only [pure_eq_ok, Except.ok.injEq, Prod.mk.injEq] at h
  obtain ⟨hr, rfl⟩ := h
  cases o with
  | none => exact absurd hr (by decide)
  | some a =>
    obtain ⟨j, hij, hj, hj', hbad, rfl, hall⟩ := userMemCheckLoop_stop
      (by rw [ROUNDUP_add_toNat]; exact Nat.mul_mod_left _ _) _ _
        (by rw [ROUNDDOWN_toNat]; exact Nat.mul_mod_left _ _) hloop
    rw [ROUNDDOWN_toNat] at hij hall
    rw [ROUNDUP_add_toNat] at hj
    have hva := va.isLt
    have hl := len.isLt
    by_cases hlow : j.toNat < va.toNat
    · -- the page of `va`
      rw [if_pos (BitVec.lt_def.mpr hlow)]
      refine ⟨va, rfl, le_rfl, by omega, fun hok => hbad (hok.congr_page
        ?_), fun b hb₁ hb₂ => by omega⟩
      rw [PGNUM_eq, PGNUM_eq]
      omega
    · rw [if_neg (by rw [BitVec.lt_def]; exact hlow)]
      exact ⟨j, rfl, by omega, by omega, hbad, fun b hb₁ hb₂ => hall b (by omega) hb₂⟩

/-- A directory in page 4 that maps pages at `0x1000` and `0x2000`, and one at `0x3000` that only
the kernel may use. -/
def lowPages : Mem :=
  { bootMem with
    phys := fun p i =>
      if p = 4 ∧ i = 0 then 0x5007
      else if p = 5 then if i = 1 then 0x6005 else if i = 2 then 0x7005
        else if i = 3 then 0x8003 else 0
      else 0 }

/-- Of a range from `0x1010` to `0x4001`, the third page is the first bad one. -/
theorem userMemCheck_first_lowPages : userMemCheck lowPages 4 0x1010 0x2ff1 PTE_U =
    .ok (-E_FAULT, some 0x3000) ∧
    ¬ AddrOk lowPages 4 PTE_U 0x3000 ∧ AddrOk lowPages 4 PTE_U 0x1010 ∧
    AddrOk lowPages 4 PTE_U 0x2fff := by
  have h : userMemCheck lowPages 4 0x1010 0x2ff1 PTE_U = .ok (-E_FAULT, some 0x3000) := by
    decide +kernel
  obtain ⟨a, ha, -, -, hbad, hlower⟩ := userMemCheck_first (by decide) h
  cases ha
  exact ⟨h, hbad, hlower 0x1010 (by decide) (by decide), hlower 0x2fff (by decide) (by decide)⟩

end JOS
