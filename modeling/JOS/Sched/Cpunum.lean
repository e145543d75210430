import JOS.Kern.Mpconfig

/-!
# Which `cpus[]` element is whose

`mp_init` numbers the CPUs in the order of the table (`mpWalk_filled`), and `cpunum` uses
the number of the local APIC. The two agree when the APIC numbers are in order
(`mpInit_ownIndex_iff`).
-/

namespace JOS

open JOS.General

variable {f : Firmware} {conf : Word} {s : MpState}

/-- The processor entries among the `n` table entries at `p`, up to the first unknown one. -/
def procEntries (f : Firmware) : ℕ → Word → List Word
  | 0, _ => []
  | n + 1, p =>
    if f.byte p = 0 then p :: procEntries f n (p + sizeofMpproc)
    else if f.byte p ≤ 4 then procEntries f n (p + 8)
    else []

/-! ### The walk -/

theorem mpEntry_proc (h : f.byte s.p = 0) :
    (mpEntry f s).p = s.p + sizeofMpproc ∧ (mpEntry f s).ismp = s.ismp := by
  unfold mpEntry
  dsimp only
  rw [if_pos h]
  split_ifs <;> exact ⟨rfl, rfl⟩

theorem mpEntry_proc_filled (h : f.byte s.p = 0) (hlt : s.ncpu < NCPU) :
    (mpEntry f s).filled = s.filled ++ [(s.p, s.ncpu)] ∧ (mpEntry f s).ncpu = s.ncpu + 1 := by
  unfold mpEntry
  dsimp only
  rw [if_pos h]
  split_ifs <;> exact ⟨rfl, rfl⟩

theorem mpEntry_proc_full (h : f.byte s.p = 0) (hge : ¬ s.ncpu < NCPU) :
    (mpEntry f s).filled = s.filled ∧ (mpEntry f s).ncpu = s.ncpu := by
  unfold mpEntry
  dsimp only
  rw [if_pos h]
  split_ifs <;> exact ⟨rfl, rfl⟩

theorem mpEntry_other (h : f.byte s.p ≠ 0) (h4 : f.byte s.p ≤ 4) :
    mpEntry f s = { s with p := s.p + 8 } := by
  unfold mpEntry
  dsimp only
  rw [if_neg h, if_pos h4]

theorem mpEntry_unknown (h : f.byte s.p ≠ 0) (h4 : ¬ f.byte s.p ≤ 4) :
    mpEntry f s = { s with ismp := false } := by
  unfold mpEntry
  dsimp only
  rw [if_neg h, if_neg h4]

/-- The walk fills an element for each processor entry that there is room for, in the order of the
table. -/
theorem mpWalk_filled : ∀ (n : ℕ) (s : MpState), s.ismp = true → s.ncpu ≤ NCPU →
    (mpWalk f n s).filled = s.filled ++ ((procEntries f n s.p).take (NCPU - s.ncpu)).zipIdx s.ncpu ∧
      (mpWalk f n s).ncpu = s.ncpu + ((procEntries f n s.p).take (NCPU - s.ncpu)).length := by
  intro n
  induction n with
  | zero =>
    intro s _ _
    simp [mpWalk, procEntries]
  | succ n ih =>
    intro s hmp hle
    by_cases h0 : f.byte s.p = 0
    · obtain ⟨hp, hmp'⟩ := mpEntry_proc h0
      have hgo : mpWalk f (n + 1) s = mpWalk f n (mpEntry f s) := by
        rw [mpWalk, if_pos (hmp'.trans hmp)]
      have hentries : procEntries f (n + 1) s.p = s.p :: procEntries f n (s.p + sizeofMpproc) := by
        rw [procEntries, if_pos h0]
      rw [hgo, hentries]
      by_cases hlt : s.ncpu < NCPU
      · obtain ⟨hfilled, hncpu⟩ := mpEntry_proc_filled h0 hlt
        obtain ⟨ihf, ihn⟩ := ih (mpEntry f s) (hmp'.trans hmp) (by omega)
        obtain ⟨m, hm⟩ : ∃ m, NCPU - s.ncpu = m + 1 := ⟨NCPU - s.ncpu - 1, by omega⟩
        have hm' : NCPU - (s.ncpu + 1) = m := by omega
        rw [hp, hncpu, hm'] at ihf ihn
        rw [hm, List.take_succ_cons]
        constructor
        · rw [ihf, hfilled, List.zipIdx_cons, List.append_assoc, List.singleton_append]
        · rw [ihn, List.length_cons]
          omega
      · obtain ⟨hfilled, hncpu⟩ := mpEntry_proc_full h0 hlt
        obtain ⟨ihf, ihn⟩ := ih (mpEntry f s) (hmp'.trans hmp) (by omega)
        have hm : NCPU - s.ncpu = 0 := by omega
        rw [hncpu, hm, List.take_zero] at ihf ihn
        rw [hm, List.take_zero]
        exact ⟨ihf.trans (by rw [hfilled]), ihn⟩
    · by_cases h4 : f.byte s.p ≤ 4
      · have hgo : mpWalk f (n + 1) s = mpWalk f n { s with p := s.p + 8 } := by
          rw [mpWalk, mpEntry_other h0 h4, if_pos hmp]
        have hentries : procEntries f (n + 1) s.p = procEntries f n (s.p + 8) := by
          rw [procEntries, if_neg h0, if_pos h4]
        rw [hgo, hentries]
        exact ih { s with p := s.p + 8 } hmp hle
      · have hgo : mpWalk f (n + 1) s = { s with ismp := false } := by
          rw [mpWalk, mpEntry_unknown h0 h4]
          exact if_neg Bool.false_ne_true
        have hentries : procEntries f (n + 1) s.p = [] := by
          rw [procEntries, if_neg h0, if_neg h4]
        rw [hgo, hentries, List.take_nil]
        simp

/-! ### The two indices -/

/-- The value of `lapic[ID]` on the processor of an entry. -/
def lapicId (f : Firmware) (proc : Word) : Word := (apicid f proc).setWidth 32 <<< 24

theorem cpunum_lapicId (proc : Word) : cpunum (some (lapicId f proc)) = (apicid f proc).toNat := by
  have h := (apicid f proc).isLt
  simp only [cpunum, lapicId, BitVec.toNat_ushiftRight, BitVec.toNat_shiftLeft,
    BitVec.toNat_setWidth,
    Nat.shiftLeft_eq, Nat.shiftRight_eq_div_pow]
  omega

/-- The processor entries of the table that `mp_init` has an element for. -/
def tableProcs (f : Firmware) (conf : Word) : List Word :=
  (procEntries f (f.half (conf + 34)).toNat (conf + 44)).take NCPU

/-- Each of the first `NCPU` processors has an element of `cpus`, and uses that one and no other
processor's. -/
structure OwnIndex (f : Firmware) (conf : Word) (s : MpState) : Prop where
  filled : ∀ proc ∈ tableProcs f conf, ∃ i, (proc, i) ∈ s.filled
  own : ∀ proc i, (proc, i) ∈ s.filled → cpunum (some (lapicId f proc)) = i
  inside : ∀ proc i, (proc, i) ∈ s.filled → cpunum (some (lapicId f proc)) < s.ncpu
  apart : ∀ proc proc' i i', (proc, i) ∈ s.filled → (proc', i') ∈ s.filled → i ≠ i' →
    cpunum (some (lapicId f proc)) ≠ cpunum (some (lapicId f proc'))

/-- What `mp_init` has filled when it understands the table. -/
theorem mpInit_filled (hc : mpconfig f = .ok (some conf)) (h : mpInit f = .ok s)
    (hmp : s.ismp = true) :
    s.filled = (tableProcs f conf).zipIdx ∧ s.ncpu = (tableProcs f conf).length := by
  have hs : s = mpInitConf f conf := by
    rw [mpInit, hc] at h
    exact (Except.ok.inj h).symm
  subst hs
  unfold mpInitConf at hmp ⊢
  dsimp only at hmp ⊢
  split_ifs at hmp ⊢ with hwalk
  · obtain ⟨hfilled, hncpu⟩ := mpWalk_filled (f := f) (f.half (conf + 34)).toNat
      ⟨conf + 44, 0, fun _ => 0, 0, true, f.word (conf + 36), []⟩ rfl (Nat.zero_le _)
    exact ⟨by rw [hfilled]; rfl, by rw [hncpu]; exact Nat.zero_add _⟩
  · exact absurd hmp hwalk

/-- The first `NCPU` processor entries have the APIC numbers 0, 1, 2 and so on. -/
def InOrder (f : Firmware) (conf : Word) : Prop :=
  ∀ k proc, (tableProcs f conf)[k]? = some proc → (apicid f proc).toNat = k

/-- Every processor uses its own element of `cpus` exactly when the table has the APIC numbers in
order. -/
theorem mpInit_ownIndex_iff (hc : mpconfig f = .ok (some conf)) (h : mpInit f = .ok s)
    (hmp : s.ismp = true) :
    OwnIndex f conf s ↔ InOrder f conf := by
  obtain ⟨hfilled, hncpu⟩ := mpInit_filled hc h hmp
  have hmem : ∀ proc i, (proc, i) ∈ s.filled ↔ (tableProcs f conf)[i]? = some proc := by
    intro proc i
    rw [hfilled, List.mem_zipIdx_iff_getElem?]
  constructor
  · intro hown k proc hk
    rw [← cpunum_lapicId]
    exact hown.own proc k ((hmem proc k).mpr hk)
  · intro horder
    have hindex : ∀ proc i, (proc, i) ∈ s.filled → cpunum (some (lapicId f proc)) = i := by
      intro proc i hi
      rw [cpunum_lapicId]
      exact horder i proc ((hmem proc i).mp hi)
    refine ⟨?_, hindex, ?_, ?_⟩
    · intro proc hproc
      obtain ⟨i, hi⟩ := List.mem_iff_getElem?.mp hproc
      exact ⟨i, (hmem proc i).mpr hi⟩
    · intro proc i hi
      obtain ⟨hlt, _⟩ := List.getElem?_eq_some_iff.mp ((hmem proc i).mp hi)
      rw [hindex proc i hi, hncpu]
      exact hlt
    · intro proc proc' i i' hi hi' hne
      rw [hindex proc i hi, hindex proc' i' hi']
      exact hne

/-! ### Two tables -/

/-- A floating pointer structure and the table it points to, with two processors; the second one has
APIC number `id`. -/
def twoProcs (id : BitVec 8) : List (BitVec 8) :=
  sigMp ++ [0x10, 0xfc, 0x09, 0, 1, 4, 0x8b, 0, 0, 0, 0, 0] ++
  sigPcmp ++ [84, 0, 4, 0x6c - id] ++ List.replicate 26 0 ++ [2, 0, 0, 0, 0xe0, 0xfe, 0, 0, 0, 0] ++
  [0, 0, 0x14, 3] ++ List.replicate 16 0 ++ [0, id, 0x14, 1] ++ List.replicate 16 0

/-- A machine with 128 MB that has the table in its extended BIOS data area, in segment `0x9FC0`. -/
def twoProcsFirmware (id : BitVec 8) : Firmware where
  npages := 32768
  byte a :=
    if a = 0x40E then 0xC0
    else if a = 0x40F then 0x9F
    else (twoProcs id).getD (a - 0x9FC00).toNat 0

theorem mpconfig_twoProcs (id : BitVec 8) (hid : id = 1 ∨ id = 2) :
    mpconfig (twoProcsFirmware id) = .ok (some 0x9FC10) := by
  have h : (mpconfig (twoProcsFirmware id)).toOption = some (some 0x9FC10) := by
    rcases hid with rfl | rfl <;> decide +kernel
  cases hc : mpconfig (twoProcsFirmware id) with
  | ok conf => rw [hc] at h; exact congrArg Except.ok (Option.some.inj h)
  | error e => rw [hc] at h; exact absurd h (by simp [Except.toOption])

/-- The element of `cpus` for the second entry is number 1, whatever its APIC number. -/
theorem mpInit_twoProcs (id : BitVec 8) (hid : id = 1 ∨ id = 2) : ∃ s,
    mpInit (twoProcsFirmware id) = .ok s ∧
    s.ismp = true ∧ s.filled = [(0x9FC3C, 0), (0x9FC50, 1)] := by
  have h : (mpInitConf (twoProcsFirmware id) 0x9FC10).ismp = true ∧
      (mpInitConf (twoProcsFirmware id) 0x9FC10).filled = [(0x9FC3C, 0), (0x9FC50, 1)] := by
    rcases hid with rfl | rfl <;> decide +kernel
  refine ⟨mpInitConf (twoProcsFirmware id) 0x9FC10, ?_, h.1, h.2⟩
  rw [mpInit, mpconfig_twoProcs id hid]
  rfl

/-- With the numbers 0 and 1 each processor finds its own element. -/
theorem mpInit_ownIndex_twoProcs : ∃ s, mpInit (twoProcsFirmware 1) = .ok s ∧
    OwnIndex (twoProcsFirmware 1) 0x9FC10 s := by
  obtain ⟨s, hs, hmp, _⟩ := mpInit_twoProcs 1 (Or.inl rfl)
  refine ⟨s, hs, (mpInit_ownIndex_iff (mpconfig_twoProcs 1 (Or.inl rfl)) hs hmp).mpr ?_⟩
  have hprocs : tableProcs (twoProcsFirmware 1) 0x9FC10 = [0x9FC3C, 0x9FC50] := by decide +kernel
  intro k proc hk
  rw [hprocs] at hk
  match k with
  | 0 => cases hk; decide +kernel
  | 1 => cases hk; decide +kernel
  | k + 2 => simp at hk

/-- With the numbers 0 and 2, which differ, the second processor uses element 2, and there are only
two. -/
theorem not_ownIndex : ∃ s, mpconfig (twoProcsFirmware 2) = .ok (some 0x9FC10) ∧
    mpInit (twoProcsFirmware 2) = .ok s ∧
    s.ismp = true ∧
    ((procEntries (twoProcsFirmware 2) ((twoProcsFirmware 2).half (0x9FC10 + 34)).toNat
    (0x9FC10 + 44)).map
      (apicid (twoProcsFirmware 2))).Nodup ∧
    ¬ OwnIndex (twoProcsFirmware 2) 0x9FC10 s := by
  obtain ⟨s, hs, hmp, hfilled⟩ := mpInit_twoProcs 2 (Or.inr rfl)
  refine ⟨s, mpconfig_twoProcs 2 (Or.inr rfl), hs, hmp, by decide +kernel, ?_⟩
  intro hown
  have hindex : cpunum (some (lapicId (twoProcsFirmware 2) 0x9FC50)) = 1 :=
    hown.own _ _ (by rw [hfilled]; simp)
  exact absurd hindex (by decide +kernel)

end JOS
