import JOS.Memory.Cputs
import JOS.Lib.Printf
import Mathlib.Data.List.TakeWhile

/-!
# What becomes of the characters of `vprintfmt`

The three users of `vprintfmt` count the characters, or should (`returns_iff`). User
programs collect them in a buffer and hand it to `sys_cputs`, whose `"%.*s"` stops at a
NUL (`PrintBuf.sysCputs_eq`): what reaches the console is what `vprintfmt` printed
exactly when no character of it is a NUL (`userVcprintf_lossless_iff`).
-/

namespace JOS

open JOS.General

variable {rd : Word → Option (BitVec 8)} {b : Word} {p : PrintBuf} {n : ℕ}
  {console : List (BitVec 8)}
  {fmt : List (BitVec 8)} {ap : List Word}

/-! ### `"%.*s"` -/

/-- What `"%.*s"` prints of `n` bytes: those before the first NUL. -/
def beforeNul (c : ℕ → BitVec 8) (k n : ℕ) : List (BitVec 8) :=
  ((List.range' k n).map c).takeWhile fun x => x ≠ 0

theorem beforeNul_ne {c : ℕ → BitVec 8} {k : ℕ} {x : BitVec 8}
    (hx : x ∈ beforeNul c k n) : x ≠ 0 := by
  have := List.mem_takeWhile_imp hx
  simpa using this

theorem beforeNul_succ (c : ℕ → BitVec 8) (k n : ℕ) :
    beforeNul c k (n + 1) = if c k = 0 then [] else c k :: beforeNul c (k + 1) n := by
  rw [beforeNul, List.range'_succ, List.map_cons, List.takeWhile_cons, beforeNul]
  by_cases h : c k = 0 <;> simp [h]

/-- The loop of `%s`, with precision `n`. -/
theorem strLoop_precision (hb : b ≠ 0) (c : ℕ → BitVec 8) : ∀ (n f k : ℕ) (width : Word) (s : Fmt),
    n < f → n < 2 ^ 31 →
    (∀ j ≤ n, rd (b + BitVec.ofNat 32 (k + j)) = some (c (k + j))) →
    ∃ r, strLoop rd b false f k (BitVec.ofNat 32 n) width s =
      (width - BitVec.ofNat 32 (beforeNul c k n).length,
        { s with out := s.out ++ (beforeNul c k n).map fun x => x.signExtend 32, reads := r }) := by
  intro n
  induction n with
  | zero =>
    intro f k width s hf _ hrd
    obtain ⟨f, rfl⟩ := Nat.exists_eq_succ_of_ne_zero (Nat.ne_of_gt hf)
    have hk := hrd 0 le_rfl
    rw [Nat.add_zero] at hk
    rw [strLoop_succ hb, hk]
    refine ⟨(s.fetch (b + BitVec.ofNat 32 k)).reads, ?_⟩
    have hnil : beforeNul c k 0 = [] := rfl
    have hstop : (!isNeg (BitVec.ofNat 32 0) && isNeg (BitVec.ofNat 32 0 - 1)) = true := by decide
    simp only [hnil, List.length_nil, List.map_nil, List.append_nil, hstop, if_true]
    split_ifs <;> simp [Fmt.fetch]
  | succ n ih =>
    intro f k width s hf hn hrd
    obtain ⟨f, rfl⟩ := Nat.exists_eq_succ_of_ne_zero
      (Nat.ne_of_gt (lt_of_le_of_lt (Nat.zero_le _) hf))
    have hk := hrd 0 (Nat.zero_le _)
    rw [Nat.add_zero] at hk
    rw [strLoop_succ hb, hk, beforeNul_succ]
    have hprec : BitVec.ofNat 32 (n + 1) - 1 = BitVec.ofNat 32 n := by
      rw [BitVec.ofNat_add]
      exact BitVec.add_sub_cancel _ _
    have hpos : isNeg (BitVec.ofNat 32 (n + 1)) = false := by
      rw [Bool.eq_false_iff, ne_eq, isNeg_iff, BitVec.toNat_ofNat]
      omega
    have hpos' : isNeg (BitVec.ofNat 32 n) = false := by
      rw [Bool.eq_false_iff, ne_eq, isNeg_iff, BitVec.toNat_ofNat]
      omega
    by_cases hnul : c k = 0
    · simp only [hnul, if_true]
      exact ⟨(s.fetch (b + BitVec.ofNat 32 k)).reads, by simp [Fmt.fetch]⟩
    · simp only [if_neg hnul, hprec, hpos, hpos', Bool.and_false, Bool.false_eq_true, if_false]
      obtain ⟨r, hr⟩ := ih f (k + 1) (width - 1)
        ((s.fetch (b + BitVec.ofNat 32 k)).put [(c k).signExtend 32]) (by omega) (by omega)
        fun j hj => by
          have := hrd (j + 1) (by omega)
          rwa [show k + (j + 1) = k + 1 + j by omega] at this
      refine ⟨r, ?_⟩
      have hlen : BitVec.ofNat 32 ((beforeNul c (k + 1) n).length + 1) = 1 + BitVec.ofNat 32
          (beforeNul c (k + 1) n).length := by
        rw [BitVec.ofNat_add, BitVec.add_comm]
        rfl
      rw [hr, List.length_cons, List.map_cons, BitVec.sub_sub, hlen]
      simp [Fmt.put, Fmt.fetch]

/-- What `"%.*s"` prints of the buffer. -/
theorem vprintfmt_buf (hb : b ≠ 0) (hn : n ≤ 255) :
    (vprintfmt (p.load b rd) (bytes "%.*s") [BitVec.ofNat 32 n, b]).out = (beforeNul p.buf 0 n).map
      (fun x => x.signExtend 32) ∧
      (vprintfmt (p.load b rd) (bytes "%.*s") [BitVec.ofNat 32 n, b]).halt = none := by
  have hload : ∀ j ≤ n, p.load b rd (b + BitVec.ofNat 32 (0 + j)) = some (p.buf (0 + j)) := by
    intro j hj
    have hsub : (b + BitVec.ofNat 32 (0 + j) - b).toNat = j := by
      rw [BitVec.add_comm, BitVec.add_sub_cancel, BitVec.toNat_ofNat]
      omega
    rw [PrintBuf.load, hsub, if_pos (by omega), Nat.zero_add]
  obtain ⟨r, hr⟩ := strLoop_precision hb p.buf n strFuel 0 0 ⟨4, [], [], [], none⟩
    (by rw [strFuel]; omega) (by omega) hload
  have hlen : (beforeNul p.buf 0 n).length ≤ n := by
    have := (List.takeWhile_prefix (fun x : BitVec 8 => decide (x ≠ 0))
      (l := (List.range' 0 n).map p.buf)).length_le
    rwa [List.length_map, List.length_range'] at this
  -- no padding: the width is what was printed, below zero
  have hwidth : (if isNeg (0 - BitVec.ofNat 32 (beforeNul p.buf 0 n).length) then 0
      else (0 - BitVec.ofNat 32 (beforeNul p.buf 0 n).length).toNat) = 0 := by
    generalize (beforeNul p.buf 0 n).length = k at hlen
    split_ifs with hneg
    · rfl
    · have hz : BitVec.toNat (0 : Word) = 0 := rfl
      rw [isNeg_iff, BitVec.toNat_sub, BitVec.toNat_ofNat, hz] at hneg
      rw [BitVec.toNat_sub, BitVec.toNat_ofNat, hz]
      omega
  have hskip : (!isNeg (0 : Word) && (0 : Word) != 0 && chr ' ' != chr '-') = false := by decide
  rw [vprintfmt_precision]
  simp only [fmtString, Fmt.vaArg, List.headD_cons, List.tail_cons, hskip,
    Bool.false_eq_true, if_false,
    Option.isSome_none, hr, hwidth, List.replicate_zero, List.nil_append]
  simp [Fmt.put]

/-! ### The kernel's `vcprintf` -/

theorem runPutch_ok {σ : Type} (putch : Word → σ → σ) (d : σ)
    (h : (vprintfmt rd fmt ap).halt = none) :
    runPutch putch d rd fmt ap =
        .ok ((vprintfmt rd fmt ap).out.foldl (fun d ch => putch ch d) d) := by
  rw [runPutch, h]

/-- The kernel's counter stays where it is. -/
theorem kernPrint_foldl : ∀ (cs : List Word) (p : KernPrint),
    cs.foldl (fun d ch => KernPrint.putch ch d) p = ⟨p.cnt, p.console ++ cs.map fun ch =>
      ch.setWidth 8⟩ := by
  intro cs
  induction cs with
  | nil =>
    intro p
    simp
  | cons ch cs ih =>
    intro p
    rw [List.foldl_cons, ih, KernPrint.putch, cputchar]
    simp

theorem kernVcprintf_eq (h : (vprintfmt rd fmt ap).halt = none) :
    kernVcprintf rd console fmt ap = .ok (0, console ++ (vprintfmt rd fmt ap).out.map fun ch =>
        ch.setWidth 8) := by
  rw [kernVcprintf, runPutch_ok _ _ h, ok_bind, kernPrint_foldl]
  rfl

theorem setWidth_signExtend (x : BitVec 8) : (x.signExtend 32).setWidth 8 = x := by
  revert x
  decide

/-- **`sys_cputs` of the buffer** prints what comes before the first NUL. -/
theorem PrintBuf.sysCputs_eq (hb : b ≠ 0) (hn : n ≤ 255) :
    p.sysCputs b rd (BitVec.ofNat 32 n) console = .ok (console ++ beforeNul p.buf 0 n) := by
  obtain ⟨hout, hhalt⟩ := @vprintfmt_buf rd b p n hb hn
  rw [PrintBuf.sysCputs, kernVcprintf_eq hhalt, ok_bind, hout, List.map_map]
  have hid : ((fun ch : Word => ch.setWidth 8) ∘ fun x : BitVec 8 => x.signExtend 32) = id := by
    funext x
    exact setWidth_signExtend x
  rw [hid, List.map_id]
  rfl

/-! ### The user's `putch` -/

/-- The bytes a list of characters stands for. -/
def lowBytes (cs : List Word) : List (BitVec 8) := cs.map fun ch => ch.setWidth 8

/-- The state after the characters `cs`: what is in the buffer has not been printed yet. -/
structure Collected (console : List (BitVec 8)) (cs : List Word) (u : UserPrint) : Prop where
  idx : u.buf.idx < 255
  cnt : u.buf.cnt = BitVec.ofNat 32 cs.length
  /-- No NUL is printed. -/
  printed : ∃ d, u.console = .ok (console ++ d) ∧ (∀ x ∈ d, x ≠ 0) ∧
    ((∀ x ∈ lowBytes cs, x ≠ 0) → lowBytes cs = d ++ (List.range' 0 u.buf.idx).map u.buf.buf)

theorem beforeNul_eq_self {c : ℕ → BitVec 8} (h : ∀ x ∈ (List.range' 0 n).map c, x ≠ 0) :
    beforeNul c 0 n = (List.range' 0 n).map c := by
  rw [beforeNul, List.takeWhile_eq_self_iff]
  exact fun x hx => decide_eq_true (h x hx)

theorem map_range'_update (c : ℕ → BitVec 8) (n : ℕ) (x : BitVec 8) :
    (List.range' 0 (n + 1)).map (Function.update c n x) = (List.range' 0 n).map c ++ [x] := by
  rw [List.range'_concat, List.map_append, Nat.one_mul, Nat.zero_add, List.map_singleton,
    Function.update_self]
  congr 1
  refine List.map_congr_left fun j hj => Function.update_of_ne ?_ _ _
  rw [List.mem_range'_1] at hj
  omega

/-- One character more. -/
theorem Collected.putch (hb : b ≠ 0) {cs : List Word} {u : UserPrint} (h : Collected console cs u)
    (ch : Word) :
    Collected console (cs ++ [ch]) (UserPrint.putch b rd ch u) := by
  obtain ⟨d, hd, hnul, hall⟩ := h.printed
  have hcnt : u.buf.cnt + 1 = BitVec.ofNat 32 (cs ++ [ch]).length := by
    rw [h.cnt, List.length_append, List.length_singleton, BitVec.ofNat_add]
    rfl
  -- what has been collected, with the new character
  have hfull : (∀ x ∈ lowBytes (cs ++ [ch]), x ≠ 0) → lowBytes (cs ++ [ch]) =
      d ++ (List.range' 0 (u.buf.idx + 1)).map
          (Function.update u.buf.buf u.buf.idx (ch.setWidth 8)) := by
    intro hne
    rw [lowBytes, List.map_append, ← lowBytes, hall fun x hx =>
      hne x (by rw [lowBytes, List.map_append]; exact List.mem_append_left _ hx),
      map_range'_update, List.append_assoc]
    rfl
  rw [UserPrint.putch]
  dsimp only
  by_cases hflush : u.buf.idx + 1 = 256 - 1
  · rw [if_pos hflush]
    refine ⟨by dsimp only; omega, hcnt, d ++ beforeNul (Function.update u.buf.buf u.buf.idx
      (ch.setWidth 8)) 0 (u.buf.idx + 1), ?_, ?_, ?_⟩
    · dsimp only
      rw [hd, ok_bind, PrintBuf.sysCputs_eq hb (by omega), List.append_assoc]
    · intro x hx
      rcases List.mem_append.mp hx with hx | hx
      · exact hnul x hx
      · exact beforeNul_ne hx
    · intro hne
      have hsame := hfull hne
      rw [beforeNul_eq_self fun x hx => hne x (by rw [hsame]; exact List.mem_append_right _ hx)]
      rw [hsame]
      simp
  · rw [if_neg hflush]
    exact ⟨by dsimp only; have := h.idx; omega, hcnt, d, hd, hnul, hfull⟩

theorem Collected.foldl (hb : b ≠ 0) : ∀ (cs cs' : List Word) (u : UserPrint),
    Collected console cs u →
    Collected console (cs ++ cs') (cs'.foldl (fun d ch => UserPrint.putch b rd ch d) u) := by
  intro cs cs'
  induction cs' generalizing cs with
  | nil =>
    intro u h
    rwa [List.append_nil]
  | cons ch cs' ih =>
    intro u h
    have hone : Collected console (cs ++ [ch]) (UserPrint.putch b rd ch u) := h.putch hb ch
    have hrest := ih (cs ++ [ch]) _ hone
    rwa [List.append_assoc] at hrest

theorem collected_nil (buf : ℕ → BitVec 8) : Collected console [] ⟨⟨0, 0, buf⟩, .ok console⟩ :=
  ⟨Nat.zero_lt_succ 254, rfl, [], by rw [List.append_nil], by simp, fun _ => rfl⟩

/-- **The user's `vcprintf`** counts the characters, and prints no NUL; when there is none, it
prints them all. -/
theorem userVcprintf_eq (hb : b ≠ 0) (buf : ℕ → BitVec 8)
    (h : (vprintfmt rd fmt ap).halt = none) : ∃ d,
    userVcprintf b buf rd console fmt ap = .ok (BitVec.ofNat 32 (vprintfmt rd fmt ap).out.length,
      console ++ d) ∧
      (∀ x ∈ d, x ≠ 0) ∧ ((∀ x ∈ lowBytes (vprintfmt rd fmt ap).out, x ≠ 0) →
        d = lowBytes (vprintfmt rd fmt ap).out) := by
  have hcol : Collected console ([] ++ (vprintfmt rd fmt ap).out)
      ((vprintfmt rd fmt ap).out.foldl (fun d ch => UserPrint.putch b rd ch d)
        ⟨⟨0, 0, buf⟩, .ok console⟩) :=
    Collected.foldl hb _ _ _ (collected_nil buf)
  rw [List.nil_append] at hcol
  rw [userVcprintf, runPutch_ok _ _ h, ok_bind]
  generalize List.foldl (fun d ch => UserPrint.putch b rd ch d) _
    (vprintfmt rd fmt ap).out = u at hcol ⊢
  obtain ⟨d, hd, hnul, hall⟩ := hcol.printed
  refine ⟨d ++ beforeNul u.buf.buf 0 u.buf.idx, ?_, fun x hx => ?_, fun hne => ?_⟩
  · have hidx := hcol.idx
    rw [hd, ok_bind, PrintBuf.sysCputs_eq hb (by omega), ok_bind, hcol.cnt, List.append_assoc]
    rfl
  · rcases List.mem_append.mp hx with hx | hx
    · exact hnul x hx
    · exact beforeNul_ne hx
  · have hsame := hall hne
    rw [beforeNul_eq_self fun x hx => hne x (by rw [hsame]; exact List.mem_append_right _ hx),
      hsame]

/-- What `vprintfmt` hands to `putch` reaches the console, byte by byte, and `putch` writes inside
the buffer. -/
def Lossless (b : Word) (buf : ℕ → BitVec 8) (rd : Word → Option (BitVec 8))
    (console fmt : List (BitVec 8)) (ap : List Word) :
    Prop :=
  (∃ r, userVcprintf b buf rd console fmt ap =
    .ok (r, console ++ lowBytes (vprintfmt rd fmt ap).out)) ∧
    ∀ cs, cs <+: (vprintfmt rd fmt ap).out →
      (cs.foldl (fun d ch => UserPrint.putch b rd ch d) ⟨⟨0, 0, buf⟩, .ok console⟩).buf.idx < 256

/-- **User output is lossless exactly when** no character of it is a NUL. -/
theorem userVcprintf_lossless_iff (hb : b ≠ 0) (buf : ℕ → BitVec 8)
    (h : (vprintfmt rd fmt ap).halt = none) :
    Lossless b buf rd console fmt ap ↔ ∀ x ∈ lowBytes (vprintfmt rd fmt ap).out, x ≠ 0 := by
  obtain ⟨d, hd, hnul, hall⟩ := @userVcprintf_eq rd b console fmt ap hb buf h
  constructor
  · rintro ⟨⟨r, hr⟩, -⟩ x hx
    have hsame := congrArg Prod.snd (Except.ok.inj (hd.symm.trans hr))
    rw [← List.append_cancel_left hsame] at hx
    exact hnul x hx
  · intro hne
    refine ⟨⟨_, by rw [hd, hall hne]⟩, fun cs _ => ?_⟩
    have hcol : Collected console ([] ++ cs)
      (cs.foldl (fun d ch => UserPrint.putch b rd ch d) ⟨⟨0, 0, buf⟩, .ok console⟩) :=
      Collected.foldl hb _ _ _ (collected_nil buf)
    have := hcol.idx
    omega

theorem userVcprintf_lossless_hi : Lossless 0xeebfdd00 (fun _ => 0) (fun _ => none) []
    (bytes "hi %d") [7] :=
  (userVcprintf_lossless_iff (by decide) _ (by decide)).mpr (by decide)

/-- A NUL that `%c` prints does not reach the console. -/
theorem not_lossless : ¬ Lossless 0xeebfdd00 (fun _ => 0) (fun _ => none) []
    (bytes "a%cb") [0] := by
  rintro ⟨⟨r, hr⟩, -⟩
  obtain ⟨d, hd, hnul, -⟩ := @userVcprintf_eq (fun _ => none) 0xeebfdd00 [] (bytes "a%cb") [0]
    (by decide) (fun _ => 0) (by decide)
  have hsame := congrArg Prod.snd (Except.ok.inj (hd.symm.trans hr))
  refine hnul 0 ?_ rfl
  rw [List.append_cancel_left hsame]
  decide

/-! ### Return values -/

theorem sprintputch_foldl : ∀ (cs : List Word) (s : SprintBuf),
    (cs.foldl (fun d ch => sprintputch ch d) s).cnt = s.cnt + BitVec.ofNat 32 cs.length := by
  intro cs
  induction cs with
  | nil =>
    intro s
    exact (BitVec.add_zero _).symm
  | cons ch cs ih =>
    intro s
    have hone : (sprintputch ch s).cnt = s.cnt + 1 := by
      rw [sprintputch]
      dsimp only
      split_ifs <;> rfl
    rw [List.foldl_cons, ih, hone, List.length_cons, BitVec.ofNat_add, BitVec.add_assoc,
      BitVec.add_comm 1]
    rfl

/-- What the three functions return on one input. -/
structure SameReturn (b dst n : Word) (buf : ℕ → BitVec 8) (mem : Word → BitVec 8)
    (rd : Word → Option (BitVec 8))
    (console fmt : List (BitVec 8)) (ap : List Word) (r : Word) : Prop where
  kern : (kernVcprintf rd console fmt ap).map Prod.fst = .ok r
  user : (userVcprintf b buf rd console fmt ap).map Prod.fst = .ok r
  vsnprintf : (vsnprintf rd mem dst n fmt ap).map Prod.fst = .ok r

theorem vsnprintf_eq {dst n : Word} (mem : Word → BitVec 8) (hdst : dst ≠ 0) (hn : 1 ≤ n.toInt)
    (h : (vprintfmt rd fmt ap).halt = none) :
    (vsnprintf rd mem dst n fmt ap).map Prod.fst =
        .ok (BitVec.ofNat 32 (vprintfmt rd fmt ap).out.length) := by
  rw [JOS.vsnprintf, if_neg (not_or.mpr ⟨hdst, not_lt.mpr hn⟩), runPutch_ok _ _ h, ok_bind,
    sprintputch_foldl]
  exact congrArg Except.ok (BitVec.zero_add _)

/-- **The three back ends all return the number of characters exactly when** there is none, in 32
bits: the kernel's returns `0` whatever it prints. -/
theorem returns_iff {dst n : Word} (buf : ℕ → BitVec 8) (mem : Word → BitVec 8) (hb : b ≠ 0)
    (hdst : dst ≠ 0) (hn : 1 ≤ n.toInt)
    (h : (vprintfmt rd fmt ap).halt = none) :
    SameReturn b dst n buf mem rd console fmt ap
      (BitVec.ofNat 32 (vprintfmt rd fmt ap).out.length) ↔
      2 ^ 32 ∣ (vprintfmt rd fmt ap).out.length := by
  have hzero : BitVec.ofNat 32 (vprintfmt rd fmt ap).out.length = 0 ↔
      2 ^ 32 ∣ (vprintfmt rd fmt ap).out.length := by
    rw [← BitVec.toNat_inj, BitVec.toNat_ofNat, Nat.dvd_iff_mod_eq_zero]
    rfl
  obtain ⟨d, hd, -⟩ := @userVcprintf_eq rd b console fmt ap hb buf h
  constructor
  · intro hr
    have hkern := hr.kern
    rw [kernVcprintf_eq h] at hkern
    exact hzero.mp (Except.ok.inj hkern).symm
  · intro hdvd
    refine ⟨?_, by rw [hd]; rfl, vsnprintf_eq mem hdst hn h⟩
    rw [kernVcprintf_eq h, hzero.mpr hdvd]
    rfl

theorem returns_empty : SameReturn 0xeebfdd00 0x1000 16 (fun _ => 0) (fun _ => 0) (fun _ => none) []
    (bytes "") [] 0 :=
  (returns_iff (fun _ => 0) (fun _ => 0) (by decide) (by decide) (by decide) rfl).mpr (by decide)

/-- One character, and the kernel's `vcprintf` returns `0`. -/
theorem not_returns : (vprintfmt (fun _ => none) (bytes "a") []).out.length = 1 ∧
    ¬ SameReturn 0xeebfdd00 0x1000 16 (fun _ => 0) (fun _ => 0) (fun _ => none) []
      (bytes "a") [] 1 := by
  refine ⟨by decide, fun hr => ?_⟩
  have hkern := hr.kern
  rw [kernVcprintf_eq (by decide)] at hkern
  exact absurd (Except.ok.inj hkern) (by decide)

end JOS
