import JOS.Memory.UserMem
import JOS.Sched.Entry

/-!
# What `sys_cputs` reads

`sys_cputs(s, len)` checks `[s, s+len)` with `user_mem_assert` and prints it with
`cprintf("%.*s", len, s)`. The loop of `%s` fetches a character before it looks at the
precision, so when no NUL comes before the end of the range it also fetches the
character after it; for `len = 0` that is `*s`. And a `len` that is negative as an
`int` is no precision at all.

`strLoop_reads_le` bounds the fetches by the first NUL, and `exists_nul` finds a NUL
when all fetches are within the range. Together they say on which strings `sys_cputs`
reads only what it has checked (`sysCputs_reads_iff`).
-/

namespace JOS

open JOS.General

section

variable {rd : Word → Option (BitVec 8)} {str len : Word}

/-! ### The format -/

theorem strLoop_pos (altflag : Bool) : ∀ (f k : ℕ) (precision width : Word) (s : Fmt),
    (strLoop rd str altflag f k precision width s).2.pos = s.pos := by
  intro f
  induction f with
  | zero => exact fun _ _ _ _ => rfl
  | succ f ih =>
    intro k precision width s
    simp only [strLoop]
    split
    · rfl
    · split_ifs
      · rfl
      · rfl
      all_goals rw [ih]; rfl

theorem Fmt.put_nil (s : Fmt) : s.put [] = s := by simp [Fmt.put]

/-- With no width and no `-`, `%s` is its loop, and padding. -/
theorem fmtString_cputs : ∃ cs, fmtString rd ⟨chr ' ', 0, len, 0, false⟩ ⟨4, [str], [], [], none⟩ =
    (strLoop rd str false strFuel 0 len 0 ⟨4, [], [], [], none⟩).2.put cs := by
  have hwidth : (!isNeg (0 : Word) && (0 : Word) != 0 && chr ' ' != chr '-') = false := by decide
  simp only [fmtString, Fmt.vaArg, List.headD_cons, List.tail_cons, hwidth,
    Bool.false_eq_true, if_false,
    Option.isSome_none]
  generalize strLoop rd str false strFuel 0 len 0 ⟨4, [], [], [], none⟩ = r
  by_cases h : r.2.halt.isSome
  · exact ⟨[], by rw [if_pos h, Fmt.put_nil]⟩
  · exact ⟨_, by rw [if_neg h]⟩

/-- One pass of `vprintfmt`. -/
theorem fmtRun_succ {fmt : List (BitVec 8)} {s s' : FmtMode × Fmt} (n : ℕ) (hs : s.2.halt = none)
    (h : fmtStep rd fmt s = some s') : fmtRun rd fmt (n + 1) s = fmtRun rd fmt n s' := by
  rw [fmtRun, hs, h]; rfl

/-- The end of the format. -/
theorem fmtRun_done {fmt : List (BitVec 8)} {s : Fmt} (n : ℕ) (h : fmtAt fmt s.pos = 0) :
    fmtRun rd fmt (n + 1) (.text, s) = s := by
  rw [fmtRun, fmtStep, h]
  simp

theorem fmtString_pos (e : Esc) (s : Fmt) : (fmtString rd e s).pos = s.pos := by
  simp only [fmtString]
  generalize hr : (if (!isNeg e.width && e.width != 0 && e.padc != chr '-') = true then _
    else (e.width, s.vaArg.2)) = r
  have hpos : r.2.pos = s.pos := by
    rw [← hr]
    split_ifs <;> rfl
  split_ifs
  · exact hpos
  · exact (strLoop_pos _ _ _ _ _ _).trans hpos
  all_goals exact (strLoop_pos _ _ _ _ _ _).trans hpos

/-- `"%.*s"` is `%s` with the precision `len` and no width. -/
theorem vprintfmt_precision : vprintfmt rd (bytes "%.*s") [len, str] =
    fmtString rd ⟨chr ' ', 0, len, 0, false⟩ ⟨4, [str], [], [], none⟩ := by
  have hfmt : bytes "%.*s" = [0x25, 0x2e, 0x2a, 0x73] := by decide
  have hprec : Esc.processPrecision ⟨chr ' ', 0, len, 0, false⟩ = ⟨chr ' ', 0, len, 0, false⟩ := by
    simp [Esc.processPrecision, isNeg]
  have h₀ : fmtStep rd [0x25, 0x2e, 0x2a, 0x73] (.text, ⟨0, [len, str], [], [], none⟩) =
      some (.esc .init, ⟨1, [len, str], [], [], none⟩) := rfl
  have h₁ : fmtStep rd [0x25, 0x2e, 0x2a, 0x73] (.esc .init, ⟨1, [len, str], [], [], none⟩) =
      some (.esc ⟨chr ' ', 0, -1, 0, false⟩, ⟨2, [len, str], [], [], none⟩) := rfl
  have h₂ : fmtStep rd [0x25, 0x2e, 0x2a, 0x73] (.esc ⟨chr ' ', 0, -1, 0, false⟩,
      ⟨2, [len, str], [], [], none⟩) =
      some (.esc (Esc.processPrecision ⟨chr ' ', 0, len, 0, false⟩), ⟨3, [str], [], [], none⟩) :=
        rfl
  have h₃ : fmtStep rd [0x25, 0x2e, 0x2a, 0x73] (.esc ⟨chr ' ', 0, len, 0, false⟩,
      ⟨3, [str], [], [], none⟩) =
      some (.text, fmtString rd ⟨chr ' ', 0, len, 0, false⟩ ⟨4, [str], [], [], none⟩) := rfl
  rw [hprec] at h₂
  rw [vprintfmt, hfmt, show 2 * [0x25, 0x2e, 0x2a, (0x73 : BitVec 8)].length + 2 = 5 + 5 from rfl,
    fmtRun_succ _ rfl h₀,
    fmtRun_succ _ rfl h₁, fmtRun_succ _ rfl h₂, fmtRun_succ _ rfl h₃, fmtRun_done]
  rw [fmtString_pos]
  rfl

/-- What it reads is what the loop of `%s` reads. -/
theorem vprintfmt_cputs : (vprintfmt rd (bytes "%.*s") [len, str]).reads =
    (strLoop rd str false strFuel 0 len 0 ⟨4, [], [], [], none⟩).2.reads := by
  obtain ⟨cs, hcs⟩ := @fmtString_cputs rd str len
  rw [vprintfmt_precision, hcs]
  rfl

/-! ### The loop of `%s` -/

/-- Nothing is fetched through a null pointer. -/
theorem strLoop_reads_null : ∀ (f i : ℕ) (precision width : Word) (s : Fmt),
    (strLoop rd 0 false f i precision width s).2.reads = s.reads := by
  intro f
  induction f with
  | zero => exact fun _ _ _ _ => rfl
  | succ f ih =>
    intro i precision width s
    simp only [strLoop, strByte, strRead, if_true, List.append_nil]
    split_ifs
    · rfl
    · rfl
    all_goals rw [ih]; rfl

/-- A character is fetched. -/
def Fmt.fetch (s : Fmt) (a : Word) : Fmt := { s with reads := s.reads ++ [a] }

/-- One pass of the loop. -/
theorem strLoop_succ (hstr : str ≠ 0) (f i : ℕ) (precision width : Word) (s : Fmt) :
    strLoop rd str false (f + 1) i precision width s =
      let s := s.fetch (str + BitVec.ofNat 32 i)
      match rd (str + BitVec.ofNat 32 i) with
      | none => (width, { s with halt := some .panic })
      | some ch =>
        if ch = 0 then (width, s)
        else if !isNeg precision && isNeg (precision - 1) then (width, s)
        else strLoop rd str false f (i + 1) (if isNeg precision then precision
          else precision - 1) (width - 1)
          (s.put [ch.signExtend 32]) := by
  cases h : rd (str + BitVec.ofNat 32 i) <;>
    simp only [strLoop, strByte, strRead, if_neg hstr, Fmt.fetch, Bool.false_and,
      Bool.false_eq_true, if_false, h]

/-- What has been fetched stays on record. -/
theorem strLoop_reads_mono (hstr : str ≠ 0) : ∀ (f i : ℕ) (precision width : Word) (s : Fmt),
    ∀ a ∈ s.reads, a ∈ (strLoop rd str false f i precision width s).2.reads := by
  intro f
  induction f with
  | zero => exact fun _ _ _ _ a ha => ha
  | succ f ih =>
    intro i precision width s a ha
    have ha' : a ∈ (s.fetch (str + BitVec.ofNat 32 i)).reads := List.mem_append_left _ ha
    rw [strLoop_succ hstr]
    cases rd (str + BitVec.ofNat 32 i) with
    | none => exact ha'
    | some ch =>
      simp only
      split_ifs
      · exact ha'
      · exact ha'
      all_goals exact ih _ _ _ _ a ha'

/-- The character at `i` is fetched first. -/
theorem mem_strLoop_reads (hstr : str ≠ 0) (f i : ℕ) (precision width : Word) (s : Fmt) :
    str + BitVec.ofNat 32 i ∈ (strLoop rd str false (f + 1) i precision width s).2.reads := by
  have hmem : str + BitVec.ofNat 32 i ∈ (s.fetch (str + BitVec.ofNat 32 i)).reads :=
    List.mem_append_right _ (List.mem_singleton_self _)
  rw [strLoop_succ hstr]
  cases rd (str + BitVec.ofNat 32 i) with
  | none => exact hmem
  | some ch =>
    simp only
    split_ifs
    · exact hmem
    · exact hmem
    all_goals exact strLoop_reads_mono hstr _ _ _ _ _ _ hmem

/-- The loop fetches nothing past a NUL. -/
theorem strLoop_reads_le (hstr : str ≠ 0) {k : ℕ} (hk : rd (str + BitVec.ofNat 32 k) = some 0) :
    ∀ (f i : ℕ) (precision width : Word) (s : Fmt), i ≤ k →
      ∀ a ∈ (strLoop rd str false f i precision width s).2.reads,
        a ∈ s.reads ∨ ∃ j ≤ k, a = str + BitVec.ofNat 32 j := by
  intro f
  induction f with
  | zero => exact fun _ _ _ _ _ a ha => .inl ha
  | succ f ih =>
    intro i precision width s hik a ha
    have hhere : a ∈ (s.fetch (str + BitVec.ofNat 32 i)).reads → a ∈ s.reads ∨ ∃ j ≤ k,
        a = str + BitVec.ofNat 32 j := by
      rw [Fmt.fetch, List.mem_append, List.mem_singleton]
      exact Or.imp_right fun h => ⟨i, hik, h⟩
    rw [strLoop_succ hstr] at ha
    cases hch : rd (str + BitVec.ofNat 32 i) with
    | none =>
      rw [hch] at ha
      exact hhere ha
    | some ch =>
      simp only [hch] at ha
      by_cases hnul : ch = 0
      · rw [if_pos hnul] at ha
        exact hhere ha
      rw [if_neg hnul] at ha
      have hlt : i < k := by
        refine lt_of_le_of_ne hik fun h => hnul ?_
        rw [h, hk] at hch
        exact (Option.some.inj hch).symm
      by_cases hstop : (!isNeg precision && isNeg (precision - 1)) = true
      · rw [if_pos hstop] at ha
        exact hhere ha
      · rw [if_neg hstop] at ha
        exact (ih _ _ _ _ hlt a ha).elim hhere .inr

/-- Addresses that may be read one after another do not wrap. -/
theorem add_lt_ULIM {k : ℕ} (h : ∀ j ≤ k, str + BitVec.ofNat 32 j < ULIM) :
    str.toNat + k < ULIM.toNat := by
  have hstep : ∀ j ≤ k, (str.toNat + j) % 2 ^ 32 < ULIM.toNat := by
    intro j hj
    have := BitVec.lt_def.mp (h j hj)
    rwa [BitVec.toNat_add, BitVec.toNat_ofNat, Nat.add_mod_mod] at this
  rw [show ULIM.toNat = 0xef800000 from rfl] at hstep ⊢
  have hstr := str.isLt
  clear h
  induction k with
  | zero =>
    have := hstep 0 le_rfl
    omega
  | succ k ih =>
    have := ih fun j hj => hstep j (by omega)
    have := hstep (k + 1) le_rfl
    omega

/-- The precision when character `i` is fetched. -/
def precisionAt (len : Word) (i : ℕ) : Word := if isNeg len then len else len - BitVec.ofNat 32 i

theorem isNeg_iff (w : Word) : isNeg w ↔ 2 ^ 31 ≤ w.toNat := by
  rw [isNeg, BitVec.msb_eq_decide]
  simp

/-- Inside the range the precision does not run out. -/
theorem precisionAt_succ {i : ℕ} (hi : i < len.toNat) :
    (!isNeg (precisionAt len i) && isNeg (precisionAt len i - 1)) = false ∧
      (if isNeg (precisionAt len i) then precisionAt len i else precisionAt len i - 1) =
        precisionAt len (i + 1) := by
  by_cases hneg : isNeg len
  · simp [precisionAt, hneg]
  have hlen : len.toNat < 2 ^ 31 := lt_of_not_ge fun h => hneg ((isNeg_iff len).mpr h)
  have hsub : (len - BitVec.ofNat 32 i).toNat = len.toNat - i := by
    rw [BitVec.toNat_sub, BitVec.toNat_ofNat]; omega
  have hnext : len - BitVec.ofNat 32 i - 1 = len - BitVec.ofNat 32 (i + 1) := by
    rw [BitVec.sub_sub, BitVec.ofNat_add]; rfl
  have hpos : isNeg (len - BitVec.ofNat 32 i) = false := by
    rw [Bool.eq_false_iff, ne_eq, isNeg_iff, hsub]; omega
  have hpos' : isNeg (len - BitVec.ofNat 32 (i + 1)) = false := by
    rw [Bool.eq_false_iff, ne_eq, isNeg_iff, BitVec.toNat_sub, BitVec.toNat_ofNat]; omega
  simp only [precisionAt, if_neg hneg, hpos, hnext, hpos', Bool.and_false, Bool.false_eq_true,
    if_false, and_self]

/-- When every fetch is of an address in the range that may be read, the loop stops at a NUL. The
induction is on the passes left, which are more than there are addresses. -/
theorem exists_nul (hstr : str ≠ 0) {ok : Word → Prop}
    (hok : ∀ a, ok a → a < ULIM ∧ ∃ ch, rd a = some ch) :
    ∀ (f i : ℕ) (width : Word) (s : Fmt), i + f = strFuel →
      (∀ j < i, ok (str + BitVec.ofNat 32 j)) →
      i ≤ len.toNat →
      (∀ a ∈ (strLoop rd str false f i (precisionAt len i) width s).2.reads,
        str.toNat ≤ a.toNat ∧ a.toNat < str.toNat + len.toNat ∧ ok a) →
      ∃ k < len.toNat, (∀ j ≤ k, ok (str + BitVec.ofNat 32 j)) ∧
      rd (str + BitVec.ofNat 32 k) = some 0 := by
  intro f
  induction f with
  | zero =>
    intro i width s hi _ hlen
    have := len.isLt
    rw [strFuel] at hi
    omega
  | succ f ih =>
    intro i width s hi hbefore hlen hreads
    obtain ⟨hge, hlt, hoki⟩ := hreads _ (mem_strLoop_reads hstr f i _ width s)
    have hupto : ∀ j ≤ i, ok (str + BitVec.ofNat 32 j) := fun j hj => by
      rcases Nat.lt_or_eq_of_le hj with h | rfl
      · exact hbefore j h
      · exact hoki
    have hilt : i < len.toNat := by
      have hnowrap := add_lt_ULIM fun j hj => (hok _ (hupto j hj)).1
      rw [show ULIM.toNat = 0xef800000 from rfl] at hnowrap
      rw [BitVec.toNat_add, BitVec.toNat_ofNat] at hlt
      omega
    obtain ⟨-, ch, hch⟩ := hok _ hoki
    by_cases hnul : ch = 0
    · exact ⟨i, hilt, hupto, by rw [hch, hnul]⟩
    -- not a NUL, and the precision has not run out
    obtain ⟨hprec, hnext⟩ := precisionAt_succ hilt
    rw [strLoop_succ hstr] at hreads
    simp only [hch, if_neg hnul, hprec, Bool.false_eq_true, if_false, hnext] at hreads
    exact ih (i + 1) _ _ (by omega) (fun j hj => hupto j (by omega)) hilt hreads

end

/-! ### `sys_cputs` -/

/-- The addresses that `sys_cputs(str, len)` dereferences: none when `user_mem_assert` does not
come back. -/
def sysCputsReads (s : KState) (c cur : ℕ) (str len : Word) : List Word :=
  match userMemAssert s c cur str len PTE_U with
  | .ok s => (cputs s c str len).reads
  | .error _ => []

/-- CPU `c` runs the environment `cur` in the directory `pgdir`. -/
structure InUser (s : KState) (c cur pgdir : ℕ) : Prop where
  curenv : s.curenv c = some cur
  envPgdir : (s.envs cur).envPgdir = some pgdir
  cr3 : (s.cpus c).cr3 = pgdir
  tables : TablesInMemory s.mem pgdir

/-- What `sys_cputs` is to do: everything it reads is in the range and is readable to the user. -/
def CputsOk (s : KState) (c cur pgdir : ℕ) (str len : Word) : Prop :=
  ∀ a ∈ sysCputsReads s c cur str len,
    str.toNat ≤ a.toNat ∧ a.toNat < str.toNat + len.toNat ∧ AddrOk s.mem pgdir PTE_U a

/-- The string ends by a NUL before the end of the range, with only readable addresses up to it. -/
def NulInside (m : Mem) (pgdir : ℕ) (str len : Word) : Prop :=
  ∃ k < len.toNat, (∀ j ≤ k, AddrOk m pgdir PTE_U (str + BitVec.ofNat 32 j)) ∧
    loadByte m pgdir (str + BitVec.ofNat 32 k) = some 0

/-- **`sys_cputs` reads only what it has checked exactly when** the check fails, the string is null,
or it ends by a NUL inside the range. -/
theorem sysCputs_reads_iff {s : KState} {c cur pgdir : ℕ} (h : InUser s c cur pgdir)
    (str len : Word) :
    CputsOk s c cur pgdir str len ↔
      (userMemCheck s.mem pgdir str len PTE_U).map Prod.fst ≠ .ok 0 ∨ str = 0 ∨
          NulInside s.mem pgdir str len := by
  have hassert : ∀ s', userMemAssert s c cur str len PTE_U = .ok s' ↔
      s' = s ∧ (userMemCheck s.mem pgdir str len PTE_U).map Prod.fst = .ok 0 := fun s' => by
    rw [userMemAssert_eq_ok h.curenv h.envPgdir, show PTE_U ||| PTE_U = PTE_U by decide]
  by_cases hcheck : (userMemCheck s.mem pgdir str len PTE_U).map Prod.fst = .ok 0
  swap
  · -- `user_mem_assert` does not come back
    refine iff_of_true (fun a ha => ?_) (.inl hcheck)
    rw [sysCputsReads] at ha
    cases hr : userMemAssert s c cur str len PTE_U with
    | error l => simp [hr] at ha
    | ok s' => exact absurd ((hassert s').mp hr).2 hcheck
  have hreads : sysCputsReads s c cur str len =
      (strLoop (loadByte s.mem pgdir) str false strFuel 0 len 0 ⟨4, [], [], [], none⟩).2.reads := by
    rw [sysCputsReads, (hassert s).mpr ⟨rfl, hcheck⟩]
    simp only [cputs, h.cr3, vprintfmt_cputs]
  have hload : ∀ a, AddrOk s.mem pgdir PTE_U a → a < ULIM ∧ ∃ ch,
      loadByte s.mem pgdir a = some ch := by
    rintro a ⟨hlt, pte, hpte, -⟩
    exact ⟨hlt, _, by rw [loadByte, hpte]; rfl⟩
  rw [CputsOk, hreads]
  simp only [hcheck, ne_eq, not_true_eq_false, false_or]
  by_cases hstr : str = 0
  · -- a null pointer is printed as `(null)`
    subst hstr
    refine iff_of_true (fun a ha => ?_) (.inl rfl)
    rw [strLoop_reads_null] at ha
    exact absurd ha List.not_mem_nil
  simp only [hstr, false_or]
  constructor
  · intro hall
    have h₀ : precisionAt len 0 = len := by simp [precisionAt]
    refine exists_nul hstr hload strFuel 0 0 ⟨4, [], [], [], none⟩ (Nat.zero_add strFuel) (by omega)
      (Nat.zero_le _) ?_
    rw [h₀]
    exact hall
  · rintro ⟨k, hk, hok, hnul⟩ a ha
    rcases strLoop_reads_le hstr hnul strFuel 0 len 0 _ (Nat.zero_le _) a ha with h | ⟨j, hj, rfl⟩
    · exact absurd h List.not_mem_nil
    have hnowrap := add_lt_ULIM fun i hi => (hload _ (hok i hi)).1
    rw [show ULIM.toNat = 0xef800000 from rfl] at hnowrap
    refine ⟨?_, ?_, hok j hj⟩
    all_goals rw [BitVec.toNat_add, BitVec.toNat_ofNat]; omega

instance (s : KState) (c cur pgdir : ℕ) (str len : Word) :
    Decidable (CputsOk s c cur pgdir str len) :=
  List.decidableBAll _ _

theorem tinyState_inUser : InUser tinyState 0 0 16383 :=
  ⟨by decide +kernel, by decide +kernel, by decide +kernel, by decide +kernel⟩

/-- A string that ends inside the range. -/
theorem sysCputs_reads_tiny : CputsOk tinyState 0 0 16383 0x800ff0 4 :=
  (sysCputs_reads_iff tinyState_inUser 0x800ff0 4).mpr
    (.inr (.inr ⟨0, by decide, by decide +kernel, by decide +kernel⟩))

/-- The last byte of a page, which is not a NUL: `sys_cputs` goes on to read the next page, which is
not mapped. -/
theorem sysCputs_overread : InUser tinyState 0 0 16383 ∧ ¬ CputsOk tinyState 0 0 16383 0x800fff 1 :=
  ⟨tinyState_inUser, by decide +kernel⟩

end JOS
