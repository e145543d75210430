import JOS.Sched.Cpunum

/-!
# What `mp_init` touches

`mp_init` goes through as many table entries as the header says there are. It does not
compare where it is with the length of the table, so it stays inside when the entries do
(`EntriesFit`). An element of `cpus` is filled only if there is one, but `bootcpu` is set
before that is tested; it is an element when the first `NCPU` processors come before any
other with the flag (`BootAmongFirst`). `mpInit_safe_iff` says that this is all that can
go wrong.
-/

namespace JOS

variable {f : Firmware} {conf p : Word} {s : MpState} {n : ℕ}

/-! ### The table -/

/-- The table entries that are looked at, of `n` at `p`: all up to the first unknown one. -/
def mpEntries (f : Firmware) : ℕ → Word → List Word
  | 0, _ => []
  | n + 1, p =>
    p :: if f.byte p = 0 then mpEntries f n (p + sizeofMpproc)
      else if f.byte p ≤ 4 then mpEntries f n (p + 8) else []

/-- The byte at `a` is among the `length` bytes of the table. -/
def InConf (f : Firmware) (conf a : Word) : Prop := (a - conf).toNat < (f.half (conf + 4)).toNat

/-- Every entry that is looked at begins inside the table, and a processor's flags are inside. -/
def EntriesFit (f : Firmware) (conf : Word) : Prop :=
  ∀ p ∈ mpEntries f (f.half (conf + 34)).toNat (conf + 44), InConf f conf p ∧
    (f.byte p = 0 → InConf f conf (p + 3))

/-- A processor with the flag is one of the first `NCPU`. -/
def BootAmongFirst (f : Firmware) (conf : Word) : Prop :=
  ∀ p ∈ (procEntries f (f.half (conf + 34)).toNat (conf + 44)).drop NCPU,
    procFlags f p &&& MPPROC_BOOT = 0

/-- The elements of `cpus` that are written: a number for each processor, and the status of
`bootcpu`. -/
def cpusWritten (s : MpState) : List ℕ := s.filled.map Prod.snd ++ [s.bootcpu]

/-- `mp_init` stays in the table, and in `cpus`. -/
structure MpSafe (f : Firmware) (conf : Word) (s : MpState) : Prop where
  reads : ∀ a ∈ walkReads f (f.half (conf + 34)).toNat (mpStart f conf), InConf f conf a
  writes : ∀ i ∈ cpusWritten s, i < NCPU
  ncpu : s.ncpu ≤ NCPU
  bootcpu : s.bootcpu < NCPU

/-! ### Reads -/

/-- The number of a processor lies between its type and its flags. -/
theorem InConf.between (h₀ : InConf f conf p) (h₃ : InConf f conf (p + 3)) :
    InConf f conf (p + 1) := by
  rw [InConf] at *
  have hlen := (f.half (conf + 4)).isLt
  have hplace : ∀ k : Word, p + k - conf = (p - conf) + k := fun k => by
    rw [BitVec.sub_eq_add_neg, BitVec.sub_eq_add_neg, BitVec.add_assoc,
      BitVec.add_comm k, ← BitVec.add_assoc]
  rw [hplace, BitVec.toNat_add] at h₃ ⊢
  have hthree : (3 : Word).toNat = 3 := rfl
  have hone : (1 : Word).toNat = 1 := rfl
  omega

theorem entryReads_iff (s : MpState) : (∀ a ∈ entryReads f s, InConf f conf a) ↔
    InConf f conf s.p ∧ (f.byte s.p = 0 → InConf f conf (s.p + 3)) := by
  rw [entryReads]
  split_ifs with h0 hlt
  · simp [h0]
  · constructor
    · intro h
      exact ⟨h _ (by simp), fun _ => h _ (by simp)⟩
    · rintro ⟨h, h'⟩ a ha
      have h₃ := h' h0
      simp only [List.mem_cons, List.not_mem_nil, or_false] at ha
      rcases ha with rfl | rfl | rfl
      · exact h
      · exact h₃
      · exact h.between h₃
  · rw [List.forall_mem_singleton]
    exact (and_iff_left fun h => absurd h h0).symm

/-- **The reads** are inside exactly when the entries are. -/
theorem walkReads_iff (f : Firmware) (conf : Word) : ∀ (n : ℕ) (s : MpState), s.ismp = true →
    ((∀ a ∈ walkReads f n s, InConf f conf a) ↔
    ∀ p ∈ mpEntries f n s.p, InConf f conf p ∧ (f.byte p = 0 → InConf f conf (p + 3))) := by
  intro n
  induction n with
  | zero =>
    intro s _
    exact iff_of_true (fun a ha => absurd ha List.not_mem_nil) fun p hp =>
      absurd hp List.not_mem_nil
  | succ n ih =>
    intro s hmp
    rw [walkReads, mpEntries, List.forall_mem_append, List.forall_mem_cons, entryReads_iff]
    refine and_congr_right fun _ => ?_
    by_cases h0 : f.byte s.p = 0
    · obtain ⟨hp, hmp'⟩ := mpEntry_proc h0
      rw [if_pos (hmp'.trans hmp), if_pos h0, ih _ (hmp'.trans hmp), hp]
    · by_cases h4 : f.byte s.p ≤ 4
      · rw [mpEntry_other h0 h4, if_pos hmp, if_neg h0, if_pos h4]
        exact ih { s with p := s.p + 8 } hmp
      · rw [mpEntry_unknown h0 h4, if_neg Bool.false_ne_true, if_neg h0, if_neg h4]
        exact iff_of_true (fun a ha => absurd ha List.not_mem_nil) fun p hp =>
          absurd hp List.not_mem_nil

/-! ### `bootcpu` -/

/-- What a processor entry does to `bootcpu`. -/
theorem mpEntry_proc_bootcpu (h : f.byte s.p = 0) :
    (mpEntry f s).bootcpu = if procFlags f s.p &&& MPPROC_BOOT ≠ 0 then s.ncpu else s.bootcpu := by
  unfold mpEntry
  dsimp only
  rw [if_pos h]
  split_ifs <;> rfl

/-- **`bootcpu`** is an element exactly when no processor has the flag that comes after the array is
full. -/
theorem mpWalk_bootcpu : ∀ (n : ℕ) (s : MpState), s.ismp = true → s.ncpu ≤ NCPU →
    (s.bootcpu < NCPU ∨ s.ncpu = NCPU) →
    ((mpWalk f n s).bootcpu < NCPU ↔
      s.bootcpu < NCPU ∧ ∀ p ∈ (procEntries f n s.p).drop (NCPU - s.ncpu),
          procFlags f p &&& MPPROC_BOOT = 0) := by
  intro n
  induction n with
  | zero =>
    intro s _ _ _
    simp [mpWalk, procEntries]
  | succ n ih =>
    intro s hmp hle hboot
    by_cases h0 : f.byte s.p = 0
    · obtain ⟨hp, hmp'⟩ := mpEntry_proc h0
      have hgo : mpWalk f (n + 1) s = mpWalk f n (mpEntry f s) := by
        rw [mpWalk, if_pos (hmp'.trans hmp)]
      have hflag := mpEntry_proc_bootcpu h0
      rw [hgo, procEntries, if_pos h0]
      by_cases hlt : s.ncpu < NCPU
      · -- there is an element for this processor
        obtain ⟨-, hncpu⟩ := mpEntry_proc_filled h0 hlt
        have hold : s.bootcpu < NCPU := hboot.resolve_right (Nat.ne_of_lt hlt)
        have hnew : (mpEntry f s).bootcpu < NCPU := by
          rw [hflag]
          split_ifs
          · exact hlt
          · exact hold
        obtain ⟨m, hm⟩ : ∃ m, NCPU - s.ncpu = m + 1 := ⟨NCPU - s.ncpu - 1, by omega⟩
        have hm' : NCPU - (s.ncpu + 1) = m := by omega
        rw [ih _ (hmp'.trans hmp) (by omega) (.inl hnew), hp, hncpu, hm', hm, List.drop_succ_cons,
          and_iff_right hnew,
          and_iff_right hold]
      · obtain ⟨-, hncpu⟩ := mpEntry_proc_full h0 hlt
        have hfull : s.ncpu = NCPU := le_antisymm hle (not_lt.mp hlt)
        rw [ih _ (hmp'.trans hmp) (by omega) (.inr (by omega)), hp, hncpu, hflag, hfull,
          Nat.sub_self, List.drop_zero,
          List.drop_zero, List.forall_mem_cons, ← and_assoc]
        refine and_congr_left fun _ => ?_
        by_cases hb : procFlags f s.p &&& MPPROC_BOOT = 0
        · rw [if_neg (not_not.mpr hb), and_iff_left hb]
        · rw [if_pos hb]
          exact iff_of_false (lt_irrefl _) fun h => hb h.2
    · by_cases h4 : f.byte s.p ≤ 4
      · have hgo : mpWalk f (n + 1) s = mpWalk f n { s with p := s.p + 8 } := by
          rw [mpWalk, mpEntry_other h0 h4, if_pos hmp]
        rw [hgo, procEntries, if_neg h0, if_pos h4]
        exact ih { s with p := s.p + 8 } hmp hle hboot
      · have hgo : mpWalk f (n + 1) s = { s with ismp := false } := by
          rw [mpWalk, mpEntry_unknown h0 h4]
          exact if_neg Bool.false_ne_true
        rw [hgo, procEntries, if_neg h0, if_neg h4, List.drop_nil]
        exact (and_iff_left fun p hp => absurd hp List.not_mem_nil).symm

/-! ### `mp_init` -/

/-- What `mp_init` leaves of the loop; the fallback changes neither `bootcpu` nor what has been
filled. -/
theorem mpInitConf_loop (f : Firmware) (conf : Word) :
    (mpInitConf f conf).bootcpu = (mpWalk f (f.half (conf + 34)).toNat (mpStart f conf)).bootcpu ∧
    (mpInitConf f conf).filled = (mpWalk f (f.half (conf + 34)).toNat (mpStart f conf)).filled ∧
    ((mpInitConf f conf).ncpu = (mpWalk f (f.half (conf + 34)).toNat (mpStart f conf)).ncpu ∨
      (mpInitConf f conf).ncpu = 1) := by
  have hconf : mpInitConf f conf =
    if (mpWalk f (f.half (conf + 34)).toNat (mpStart f conf)).ismp then
      mpWalk f (f.half (conf + 34)).toNat (mpStart f conf)
    else { mpWalk f (f.half (conf + 34)).toNat (mpStart f conf) with ncpu := 1, lapicaddr := 0 } :=
      rfl
  rw [hconf]
  split_ifs
  · exact ⟨rfl, rfl, .inl rfl⟩
  · exact ⟨rfl, rfl, .inr rfl⟩

/-- **`mp_init` is safe** exactly when the table holds the entries that its header promises, and no
processor behind the first `NCPU` is the boot processor. -/
theorem mpInit_safe_iff (hc : mpconfig f = .ok (some conf)) (h : mpInit f = .ok s) :
    MpSafe f conf s ↔ EntriesFit f conf ∧ BootAmongFirst f conf := by
  obtain rfl : s = mpInitConf f conf := by
    rw [mpInit, hc] at h
    exact (Except.ok.inj h).symm
  have hzero : (mpStart f conf).bootcpu < NCPU := Nat.zero_lt_succ _
  obtain ⟨hfilled, hncpu⟩ := mpWalk_filled (f := f) (f.half (conf + 34)).toNat (mpStart f conf) rfl
    (Nat.zero_le _)
  have hboot := mpWalk_bootcpu (f := f) (f.half (conf + 34)).toNat (mpStart f conf) rfl
    (Nat.zero_le _) (.inl hzero)
  have hreads := walkReads_iff f conf (f.half (conf + 34)).toNat (mpStart f conf) rfl
  obtain ⟨hbootcpu, hfill, hn⟩ := mpInitConf_loop f conf
  rw [and_iff_right hzero, ← hbootcpu] at hboot
  have htake : ∀ r ∈ (mpInitConf f conf).filled, r.2 < NCPU := by
    intro r hr
    rw [hfill, hfilled] at hr
    obtain ⟨hlt, -⟩ := List.getElem?_eq_some_iff.mp (List.mem_zipIdx_iff_getElem?.mp hr)
    exact Nat.lt_of_lt_of_le hlt (List.length_take_le _ _)
  have hle : (mpInitConf f conf).ncpu ≤ NCPU := by
    rcases hn with hn | hn
    · rw [hn, hncpu]
      exact (Nat.zero_add _).le.trans (List.length_take_le _ _)
    · rw [hn]
      decide
  constructor
  · intro hsafe
    exact ⟨hreads.mp hsafe.reads, hboot.mp hsafe.bootcpu⟩
  · rintro ⟨hfit, hamong⟩
    have hin := hboot.mpr hamong
    refine ⟨hreads.mpr hfit, fun i hi => ?_, hle, hin⟩
    rcases List.mem_append.mp hi with hi | hi
    · obtain ⟨r, hr, rfl⟩ := List.mem_map.mp hi
      exact htake r hr
    · rw [List.mem_singleton.mp hi]
      exact hin

/-- Two processors, of which the first has the flag. -/
theorem mpInit_safe_twoProcs : ∃ s, mpInit (twoProcsFirmware 1) = .ok s ∧
    MpSafe (twoProcsFirmware 1) 0x9FC10 s := by
  obtain ⟨s, hs, -, -⟩ := mpInit_twoProcs 1 (Or.inl rfl)
  refine ⟨s, hs, (mpInit_safe_iff (mpconfig_twoProcs 1 (Or.inl rfl)) hs).mpr
    ⟨fun p hp => ?_, fun p hp => ?_⟩⟩
  · have hentries : mpEntries (twoProcsFirmware 1) ((twoProcsFirmware 1).half (0x9FC10 + 34)).toNat
        (0x9FC10 + 44) =
        [0x9FC3C, 0x9FC50] := by decide +kernel
    rw [hentries] at hp
    rcases List.mem_cons.mp hp with rfl | hp
    · exact ⟨by unfold InConf; decide +kernel, fun _ => by unfold InConf; decide +kernel⟩
    · rw [List.mem_singleton.mp hp]
      exact ⟨by unfold InConf; decide +kernel, fun _ => by unfold InConf; decide +kernel⟩
  · have hprocs : (procEntries (twoProcsFirmware 1) ((twoProcsFirmware 1).half (0x9FC10 + 34)).toNat
        (0x9FC10 + 44)).drop NCPU =
        [] := by decide +kernel
    rw [hprocs] at hp
    exact absurd hp List.not_mem_nil

/-- Nine processors, of which the last has the flag, in a table that holds them all. -/
def nineProcsFirmware : Firmware where
  npages := 32768
  byte a :=
    if a = 0x40E then 0xC0
    else if a = 0x40F then 0x9F
    else
      (sigMp ++ [0x10, 0xfc, 0x09, 0, 1, 4, 0x8b, 0, 0, 0, 0, 0] ++
        sigPcmp ++ [224, 0, 4, 0x22] ++ List.replicate 26 0 ++
          [9, 0, 0, 0, 0xe0, 0xfe, 0, 0, 0, 0] ++
        (List.range 9).flatMap fun i => [0, BitVec.ofNat 8 i, 0x14, if i = 8 then 3 else 1] ++
          List.replicate 16 0).getD
          (a - 0x9FC00).toNat 0

/-- `bootcpu` is the element behind the last one. -/
theorem not_mpSafe : ∃ s, mpconfig nineProcsFirmware = .ok (some 0x9FC10) ∧
    mpInit nineProcsFirmware = .ok s ∧
    s.bootcpu = NCPU ∧ ¬ MpSafe nineProcsFirmware 0x9FC10 s := by
  have hconf : (mpconfig nineProcsFirmware).toOption = some (some 0x9FC10) := by decide +kernel
  have hboot : (mpInitConf nineProcsFirmware 0x9FC10).bootcpu = NCPU := by decide +kernel
  have hc : mpconfig nineProcsFirmware = .ok (some 0x9FC10) := by
    cases hc : mpconfig nineProcsFirmware with
    | ok conf => rw [hc] at hconf; exact congrArg Except.ok (Option.some.inj hconf)
    | error e => rw [hc] at hconf; exact absurd hconf (by simp [Except.toOption])
  refine ⟨mpInitConf nineProcsFirmware 0x9FC10, hc, by rw [mpInit, hc]; rfl, hboot, fun hsafe => ?_⟩
  exact absurd (hboot ▸ hsafe.bootcpu) (lt_irrefl _)

end JOS
