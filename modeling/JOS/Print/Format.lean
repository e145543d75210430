import JOS.Memory.Cputs
import Mathlib.Data.List.Induction
import Mathlib.Data.List.TakeWhile

/-!
# Reading a format

`vprintfmt` goes through its format with one pointer, which an escape that it does not
know moves back to just after the `%`. `fmtReads` are the positions that one pass looks
at, `FmtReach` the states in which a pass begins. Before an escape's last character
there is always a `%` (`FmtInv`), which stops the way back.

What is printed is given by a grammar (`Emits`): a format is a sequence of characters
outside escapes, of escapes that `vprintfmt` knows, and of others, and the text is put
together from theirs (`vprintfmt_emits`).
-/

namespace JOS

variable {rd : Word → Option (BitVec 8)} {fmt flags pre rest : List (BitVec 8)} {ap : List Word}
  {c : BitVec 8} {e : Esc} {s : Fmt}

/-! ### Positions -/

/-- The positions that the width loop looks at, from `i` on. -/
def scanReads (fmt : List (BitVec 8)) : ℕ → ℕ → List ℤ
  | 0, _ => []
  | f + 1, i => i :: if fmtAt fmt i < 0x30 ∨ fmtAt fmt i > 0x39 then [] else scanReads fmt f (i + 1)

/-- The positions `fmt[-1]` that the way back looks at, from just before position `i`. -/
def rewindReads (fmt : List (BitVec 8)) : ℕ → List ℤ
  | 0 => [-1]
  | i + 1 => i :: if fmtAt fmt i = 0x25 then [] else rewindReads fmt i

/-- The characters that change an escape and do not end it. -/
def IsFlag (c : BitVec 8) : Prop := c ∈ bytes "-0123456789*.#l"

/-- The characters that end an escape that `vprintfmt` knows. -/
def IsConv (c : BitVec 8) : Prop := c ∈ bytes "cesduopx%"

instance : DecidablePred IsFlag := fun _ => inferInstanceAs (Decidable (_ ∈ _))
instance : DecidablePred IsConv := fun _ => inferInstanceAs (Decidable (_ ∈ _))

/-- The positions of the format that a pass looks at. -/
def fmtReads (fmt : List (BitVec 8)) : FmtMode × Fmt → List ℤ
  | (.text, s) => [(s.pos : ℤ)]
  | (.esc _, s) => s.pos ::
    if 0x31 ≤ fmtAt fmt s.pos ∧ fmtAt fmt s.pos ≤ 0x39 then scanReads fmt
      (fmt.length + 1) (s.pos + 1)
    else if IsFlag (fmtAt fmt s.pos) ∨ IsConv (fmtAt fmt s.pos) then []
    else rewindReads fmt s.pos

/-- The states in which a pass of `vprintfmt` begins. -/
def FmtReach (rd : Word → Option (BitVec 8)) (fmt : List (BitVec 8)) : FmtMode × Fmt →
    FmtMode × Fmt → Prop :=
  Relation.ReflTransGen fun s s' => s.2.halt = none ∧ fmtStep rd fmt s = some s'

/-- The state in which `vprintfmt` begins. -/
def fmtStart (ap : List Word) : FmtMode × Fmt := (.text, ⟨0, ap, [], [], none⟩)

theorem fmtAt_append (pre : List (BitVec 8)) (c : BitVec 8) (rest : List (BitVec 8)) :
    fmtAt (pre ++ c :: rest) pre.length = c := by
  simp [fmtAt]

theorem fmtAt_length (fmt : List (BitVec 8)) : fmtAt fmt fmt.length = 0 := by
  simp [fmtAt]

theorem lt_length_of_fmtAt {i : ℕ} (h : fmtAt fmt i ≠ 0) : i < fmt.length := by
  by_contra hle
  exact h (List.getD_eq_default _ _ (not_lt.mp hle))

/-! ### One pass -/

theorem fmtStep_char (hc : fmtAt fmt s.pos ≠ 0x25) (hnul : fmtAt fmt s.pos ≠ 0) :
    fmtStep rd fmt (.text, s) =
        some (.text, { s.put [(fmtAt fmt s.pos).setWidth 32] with pos := s.pos + 1 }) := by
  simp only [fmtStep, if_neg hc, if_neg hnul]
  rfl

theorem fmtStep_percent (hc : fmtAt fmt s.pos = 0x25) :
    fmtStep rd fmt (.text, s) = some (.esc .init, { s with pos := s.pos + 1 }) := by
  simp only [fmtStep, hc, if_true]

theorem fmtStep_nul (hc : fmtAt fmt s.pos = 0) : fmtStep rd fmt (.text, s) = none := by
  simp [fmtStep, hc]

/-- A character that `vprintfmt` does not know. -/
theorem fmtStep_unknown (hflag : ¬ IsFlag (fmtAt fmt s.pos)) (hconv : ¬ IsConv (fmtAt fmt s.pos)) :
    fmtStep rd fmt (.esc e, s) = some (.text,
        { s.put [chr '%'] with pos := rewind fmt s.pos }) := by
  have hdigit : ¬ (0x31 ≤ fmtAt fmt s.pos ∧ fmtAt fmt s.pos ≤ 0x39) := by
    revert hflag
    generalize fmtAt fmt s.pos = c
    revert c
    decide
  simp only [fmtStep, if_neg hdigit]
  generalize fmtAt fmt s.pos = c at hflag hconv
  simp only [IsFlag, IsConv, bytes] at hflag hconv
  simp at hflag hconv
  simp [hflag, hconv, Fmt.put]

/-! ### The flags of an escape -/

/-- Passes one after another. -/
inductive Passes (rd : Word → Option (BitVec 8)) (fmt : List (BitVec 8)) : ℕ → FmtMode × Fmt →
    FmtMode × Fmt → Prop where
  | refl (s : FmtMode × Fmt) : Passes rd fmt 0 s s
  | head {n : ℕ} {s t u : FmtMode × Fmt} : s.2.halt = none → fmtStep rd fmt s = some t →
      Passes rd fmt n t u →
      Passes rd fmt (n + 1) s u

namespace Passes

variable {n m : ℕ} {t u v : FmtMode × Fmt}

theorem one (hs : t.2.halt = none) (h : fmtStep rd fmt t = some u) : Passes rd fmt 1 t u :=
  .head hs h (.refl u)

theorem trans (h : Passes rd fmt n t u) (h' : Passes rd fmt m u v) : Passes rd fmt (n + m) t v := by
  induction h with
  | refl s => rwa [Nat.zero_add]
  | @head n s t u hs hstep _ ih =>
    rw [Nat.add_right_comm]
    exact .head hs hstep (ih h')

theorem reach (h : Passes rd fmt n t u) : FmtReach rd fmt t u := by
  induction h with
  | refl s => exact .refl
  | head hs hstep _ ih => exact .head ⟨hs, hstep⟩ ih

/-- The run goes on from where the passes lead. -/
theorem run (h : Passes rd fmt n t u) (f : ℕ) : fmtRun rd fmt (n + f) t = fmtRun rd fmt f u := by
  induction h with
  | refl s => rw [Nat.zero_add]
  | @head n s t u hs hstep _ ih => rw [Nat.add_right_comm, fmtRun_succ _ hs hstep, ih]

theorem run_le (h : Passes rd fmt n t u) {f : ℕ} (hf : n ≤ f) :
    fmtRun rd fmt f t = fmtRun rd fmt (f - n) u := by
  have hrun := h.run (f - n)
  rwa [Nat.add_sub_cancel' hf] at hrun

end Passes

/-- A flag other than a width: what it makes of the escape depends on the arguments alone. -/
theorem fmtStep_flag (hflag : IsFlag c) (hdigit : ¬ (0x31 ≤ c ∧ c ≤ 0x39)) (e : Esc)
    (ap : List Word) : ∃ e',
    ∀ (rd : Word → Option (BitVec 8)) (fmt : List (BitVec 8)) (s : Fmt),
      fmtAt fmt s.pos = c → s.ap = ap →
      fmtStep rd fmt (.esc e, s) = some (.esc e',
        { s with pos := s.pos + 1, ap := ap.drop ([c].count 0x2a) }) := by
  have hcases : c = 0x2d ∨ c = 0x30 ∨ c = 0x2a ∨ c = 0x2e ∨ c = 0x23 ∨ c = 0x6c := by
    revert c
    decide
  rcases hcases with rfl | rfl | rfl | rfl | rfl | rfl
  · exact ⟨{ e with padc := chr '-' }, fun rd fmt s hc hap => by simp [fmtStep, hc, ← hap]⟩
  · exact ⟨{ e with padc := chr '0' }, fun rd fmt s hc hap => by simp [fmtStep, hc, ← hap]⟩
  · exact ⟨{ e with precision := ap.headD 0 }.processPrecision,
      fun rd fmt s hc hap => by simp [fmtStep, hc, ← hap, Fmt.vaArg]⟩
  · exact ⟨if isNeg e.width then { e with width := 0 } else e,
      fun rd fmt s hc hap => by simp [fmtStep, hc, ← hap]⟩
  · exact ⟨{ e with altflag := true }, fun rd fmt s hc hap => by simp [fmtStep, hc, ← hap]⟩
  · exact ⟨{ e with lflag := e.lflag + 1 }, fun rd fmt s hc hap => by simp [fmtStep, hc, ← hap]⟩

/-- The digits of a width. -/
def IsDigit (c : BitVec 8) : Prop := 0x30 ≤ c ∧ c ≤ 0x39

instance : DecidablePred IsDigit := fun _ => inferInstanceAs (Decidable (_ ∧ _))

/-- What a width is after more digits. -/
def number (precision : Word) (ds : List (BitVec 8)) : Word :=
  ds.foldl (fun p d => p * 10 + d.setWidth 32 - chr '0') precision

/-- The width loop goes to the first character that is no digit. -/
theorem scanNumber_digits :
    ∀ (ds : List (BitVec 8)) (f : ℕ) (pre : List (BitVec 8)) (ch precision : Word),
    (∀ x ∈ ds, IsDigit x) →
    (∀ x, rest.head? = some x → ¬ IsDigit x) → ds.length < f →
    scanNumber (pre ++ ds ++ rest) f pre.length ch precision =
      (pre.length + ds.length, number (precision * 10 + ch - chr '0') ds) := by
  intro ds
  induction ds with
  | nil =>
    intro f pre ch precision _ hrest hf
    obtain ⟨f, rfl⟩ := Nat.exists_eq_succ_of_ne_zero (Nat.ne_of_gt hf)
    have hstop : fmtAt (pre ++ [] ++ rest) pre.length < 0x30 ∨
        fmtAt (pre ++ [] ++ rest) pre.length > 0x39 := by
      rw [List.append_nil]
      cases rest with
      | nil =>
        rw [List.append_nil, fmtAt_length]
        exact .inl (by decide)
      | cons c rest =>
        rw [fmtAt_append]
        have hc := hrest c rfl
        rw [IsDigit, not_and_or, BitVec.not_le, BitVec.not_le] at hc
        exact hc
    rw [scanNumber]
    exact if_pos (by simpa using hstop)
  | cons d ds ih =>
    intro f pre ch precision hds hrest hf
    obtain ⟨f, rfl⟩ := Nat.exists_eq_succ_of_ne_zero (Nat.ne_of_gt (Nat.zero_lt_of_lt hf))
    have hd : IsDigit d := hds d List.mem_cons_self
    have hat : fmtAt (pre ++ d :: ds ++ rest) pre.length = d := by
      rw [List.append_assoc, List.cons_append, fmtAt_append]
    have hgo : ¬ (d < 0x30 ∨ d > 0x39) := by
      rw [not_or, BitVec.not_lt, BitVec.not_lt]
      exact hd
    have hnext := ih f (pre ++ [d]) (d.setWidth 32) (precision * 10 + ch - chr '0')
      (fun x hx => hds x (List.mem_cons_of_mem _ hx)) hrest
      (by rw [List.length_cons] at hf; omega)
    rw [List.length_append, List.length_singleton] at hnext
    rw [scanNumber]
    simp only [hat]
    rw [if_neg (by simpa using hgo), show pre ++ d :: ds ++ rest = pre ++ [d] ++ ds ++
      rest by simp, hnext, List.length_cons]
    refine Prod.ext ?_ rfl
    dsimp only
    omega

theorem IsDigit.isFlag (h : IsDigit c) : IsFlag c := by
  revert c
  decide

/-- A width. -/
theorem fmtStep_width {ds : List (BitVec 8)} (hc : 0x31 ≤ c ∧ c ≤ 0x39) (hds : ∀ x ∈ ds, IsDigit x)
    (hrest : ∀ x, rest.head? = some x → ¬ IsDigit x) (hs : s.pos = pre.length) :
    fmtStep rd (pre ++ c :: ds ++ rest) (.esc e, s) =
      some (.esc { e with precision := number (c.setWidth 32 - chr '0') ds }.processPrecision,
        { s with pos := pre.length + (ds.length + 1) }) := by
  have hat : fmtAt (pre ++ c :: ds ++ rest) s.pos = c := by
    rw [hs, List.append_assoc, List.cons_append, fmtAt_append]
  have hscan := scanNumber_digits ds ((pre ++ c :: ds ++ rest).length + 1) (pre ++ [c])
    (c.setWidth 32) 0 hds hrest
    (by rw [List.length_append, List.length_append, List.length_cons]; omega)
  have hlen : (pre ++ [c]).length = pre.length + 1 := List.length_append
  have hsame : pre ++ [c] ++ ds ++ rest = pre ++ c :: ds ++ rest := by simp
  rw [hsame, hlen] at hscan
  have hminus : ¬ c = 0x2d := by
    rintro rfl
    exact absurd hc (by decide)
  have hzero : ¬ c = 0x30 := by
    rintro rfl
    exact absurd hc (by decide)
  simp only [fmtStep, hat, if_neg hminus, if_neg hzero, if_pos hc]
  rw [hs, hscan]
  have hnum : (0 : Word) * 10 + c.setWidth 32 - chr '0' = c.setWidth 32 - chr '0' := by simp
  rw [hnum, Nat.add_assoc, Nat.add_comm 1]

/-- A list begins with as many elements as have a property. -/
theorem exists_span (p : BitVec 8 → Prop) [DecidablePred p] (l : List (BitVec 8)) :
    ∃ xs ys, xs ++ ys = l ∧ (∀ x ∈ xs, p x) ∧ ∀ x, ys.head? = some x → ¬ p x := by
  refine ⟨l.takeWhile fun x => decide (p x), l.dropWhile fun x => decide (p x),
    List.takeWhile_append_dropWhile, fun x hx => ?_,
    fun x hx hp => ?_⟩
  · have hdec := List.mem_takeWhile_imp hx
    exact of_decide_eq_true hdec
  · have hnot := List.head?_dropWhile_not (fun x => decide (p x)) l
    rw [hx] at hnot
    simp [hp] at hnot

/-- The flags begin with some that one pass goes through: a width, or a single character. -/
theorem flags_chunk (hc : IsFlag c) (hflags : ∀ x ∈ flags, IsFlag x) (e : Esc) (ap : List Word) :
    ∃ cs flags' e',
    c :: flags = cs ++ flags' ∧ cs ≠ [] ∧
      ∀ (rd : Word → Option (BitVec 8)) (pre rest : List (BitVec 8)) (s : Fmt),
      (∀ x, rest.head? = some x → ¬ IsFlag x) → s.pos = pre.length → s.ap = ap →
      fmtStep rd (pre ++ (cs ++ flags') ++ rest) (.esc e, s) =
        some (.esc e', { s with
          pos := pre.length + cs.length, ap := ap.drop (cs.count 0x2a) }) := by
  by_cases hdigit : 0x31 ≤ c ∧ c ≤ 0x39
  · -- the digits after `c` go with it
    obtain ⟨ds, flags', rfl, hds, hstop⟩ := exists_span IsDigit flags
    refine ⟨c :: ds, flags',
      { e with precision := number (c.setWidth 32 - chr '0') ds }.processPrecision, rfl,
      List.cons_ne_nil _ _, fun rd pre rest s hrest hpos hap => ?_⟩
    have hcount : (c :: ds).count 0x2a = 0 := by
      refine List.count_eq_zero.mpr fun hmem => ?_
      rcases List.mem_cons.mp hmem with rfl | hmem
      · exact absurd hdigit (by decide)
      · exact absurd (hds _ hmem) (by decide)
    have hboundary : ∀ x, (flags' ++ rest).head? = some x → ¬ IsDigit x := by
      intro x hx
      cases flags' with
      | nil => exact fun hd => hrest x hx hd.isFlag
      | cons y flags' => exact hstop x hx
    rw [show pre ++ (c :: ds ++ flags') ++ rest = pre ++ c :: ds ++ (flags' ++ rest) by simp,
      fmtStep_width hdigit hds hboundary hpos, hcount, List.drop_zero, ← hap, List.length_cons]
  · obtain ⟨e', h⟩ := fmtStep_flag hc hdigit e ap
    refine ⟨[c], flags, e', rfl, List.cons_ne_nil _ _, fun rd pre rest s _ hpos hap => ?_⟩
    rw [h rd _ s (by rw [hpos, List.append_assoc, List.append_assoc, List.singleton_append,
      fmtAt_append]) hap, hpos,
      List.length_singleton]

/-- The flags of an escape: what they make of it depends on them and the arguments alone. -/
theorem flags_passes : ∀ (k : ℕ) (flags : List (BitVec 8)), flags.length ≤ k →
    (∀ x ∈ flags, IsFlag x) → ∀ (e : Esc) (ap : List Word),
    ∃ n ≤ flags.length, ∃ e',
      ∀ (rd : Word → Option (BitVec 8)) (pre rest : List (BitVec 8)) (s : Fmt),
      (∀ x, rest.head? = some x → ¬ IsFlag x) → s.pos = pre.length → s.ap = ap → s.halt = none →
      Passes rd (pre ++ flags ++ rest) n (.esc e, s)
        (.esc e', { s with
          pos := pre.length + flags.length, ap := ap.drop (flags.count 0x2a) }) := by
  intro k
  induction k with
  | zero =>
    intro flags hlen _ e ap
    obtain rfl : flags = [] := List.eq_nil_of_length_eq_zero (Nat.le_zero.mp hlen)
    refine ⟨0, le_rfl, e, fun rd pre rest s _ hpos hap _ => ?_⟩
    rw [List.count_nil, List.drop_zero, List.length_nil, Nat.add_zero, ← hpos, ← hap]
    exact .refl _
  | succ k ih =>
    intro flags hlen hflags e ap
    cases flags with
    | nil =>
      obtain ⟨n, hn, e', h⟩ := ih [] (Nat.zero_le k) hflags e ap
      exact ⟨n, hn, e', h⟩
    | cons c flags =>
      obtain ⟨cs, flags', e₁, hsplit, hne, hstep⟩ :=
        flags_chunk (hflags c List.mem_cons_self)
          (fun x hx => hflags x (List.mem_cons_of_mem _ hx)) e ap
      rw [hsplit] at hflags hlen ⊢
      rw [List.length_append] at hlen
      have hcs : 0 < cs.length := List.length_pos_of_ne_nil hne
      obtain ⟨n, hn, e', h⟩ :=
        ih flags' (by omega) (fun x hx => hflags x (List.mem_append_right _ hx)) e₁
        (ap.drop (cs.count 0x2a))
      refine ⟨n + 1, by rw [List.length_append]; omega, e',
        fun rd pre rest s hrest hpos hap hs => ?_⟩
      have hend : pre.length + (cs ++ flags').length = (pre ++ cs).length + flags'.length := by
        rw [List.length_append, List.length_append, Nat.add_assoc]
      have hdrop : ap.drop ((cs ++ flags').count 0x2a) = (ap.drop (cs.count 0x2a)).drop
          (flags'.count 0x2a) := by
        rw [List.count_append, List.drop_drop]
      rw [hend, hdrop]
      refine .head hs (hstep rd pre rest s hrest hpos hap) ?_
      rw [← List.append_assoc pre cs flags']
      exact h rd (pre ++ cs) rest
        { s with pos := pre.length + cs.length, ap := ap.drop (cs.count 0x2a) } hrest
        List.length_append.symm rfl hs

/-! ### Conversions -/

/-- A string that `%s` can print with this precision: it goes on to a NUL, or to where the precision
ends. -/
def ValidStr (rd : Word → Option (BitVec 8)) (precision p : Word) : Prop :=
  p = 0 ∨ ∃ n < 2 ^ 32, (∀ k < n, ∃ b, rd (p + BitVec.ofNat 32 k) = some b ∧ b ≠ 0) ∧
    ∃ b, rd (p + BitVec.ofNat 32 n) = some b ∧
    (b = 0 ∨ isNeg precision = false ∧ n = precision.toNat)

/-- The same of the bytes that are printed, which may be those of `"(null)"`. -/
theorem ValidStr.bytes {precision p : Word} (h : ValidStr rd precision p) :
    ∃ n < 2 ^ 32, (∀ k < n, ∃ b, strByte rd p k = some b ∧ b ≠ 0) ∧
      ∃ b, strByte rd p n = some b ∧ (b = 0 ∨ isNeg precision = false ∧ n = precision.toNat) := by
  by_cases hp : p = 0
  · have hnull : ∀ k < 6, (JOS.bytes "(null)").getD k 0 ≠ 0 := by decide
    refine ⟨6, by decide, fun k hk => ⟨_, by rw [strByte, if_pos hp], hnull k hk⟩, 0, ?_, .inl rfl⟩
    rw [strByte, if_pos hp]
    rfl
  · rcases h with h | ⟨n, hn, hbefore, b, hb, hend⟩
    · exact absurd h hp
    · refine ⟨n, hn, fun k hk => ?_, b, by rw [strByte, if_neg hp, hb], hend⟩
      obtain ⟨x, hx, hne⟩ := hbefore k hk
      exact ⟨x, by rw [strByte, if_neg hp, hx], hne⟩

/-- The loop of `%s` adds to what there is. -/
theorem strLoop_frame (rd : Word → Option (BitVec 8)) (p : Word) (altflag : Bool) :
    ∀ (f k : ℕ) (precision width : Word),
    ∃ w t r h, ∀ s : Fmt, s.halt = none →
      strLoop rd p altflag f k precision width s =
        (w, ⟨s.pos, s.ap, s.out ++ t, s.reads ++ r, h⟩) := by
  intro f
  induction f with
  | zero =>
    intro k precision width
    exact ⟨width, [], [], some .diverge, fun s _ => by simp [strLoop]⟩
  | succ f ih =>
    intro k precision width
    cases hb : strByte rd p k with
    | none => exact ⟨width, [], strRead p k, some .panic, fun s _ => by simp [strLoop, hb]⟩
    | some b =>
      by_cases hnul : b = 0
      · exact ⟨width, [], strRead p k, none, fun s hs => by simp [strLoop, hb, hnul, hs]⟩
      by_cases hstop : (!isNeg precision && isNeg (precision - 1)) = true
      · exact ⟨width, [], strRead p k, none,
          fun s hs => by simp only [strLoop, hb, hstop]; simp [hs]⟩
      obtain ⟨w, t, r, h, hrest⟩ :=
        ih (k + 1) (if isNeg precision then precision else precision - 1) (width - 1)
      generalize hch : (if altflag &&
        (isNeg (b.signExtend 32 - chr ' ') || isNeg (chr '~' - b.signExtend 32)) then chr '?'
        else b.signExtend 32) = ch
      refine ⟨w, ch :: t, strRead p k ++ r, h, fun s hs => ?_⟩
      have hs' := hrest (({ s with reads := s.reads ++ strRead p k } : Fmt).put [ch]) hs
      simp only [strLoop, hb, if_neg hnul, if_neg hstop, hch]
      rw [hs']
      simp [Fmt.put]

/-- On a valid string the loop comes to an end. -/
theorem strLoop_halt_none {p precision : Word} {n : ℕ} (altflag : Bool)
    (hbefore : ∀ k < n, ∃ b, strByte rd p k = some b ∧ b ≠ 0)
    (hend : ∃ b, strByte rd p n = some b ∧
    (b = 0 ∨ isNeg precision = false ∧ n = precision.toNat)) :
    ∀ (f k : ℕ) (pr width : Word) (s : Fmt), n < f + k → k ≤ n →
      (isNeg precision = true → pr = precision) →
      (isNeg precision = false → isNeg pr = false ∧ pr.toNat + k = precision.toNat) →
      s.halt = none →
      (strLoop rd p altflag f k pr width s).2.halt = none := by
  intro f
  induction f with
  | zero =>
    intro k pr width s hf hk
    omega
  | succ f ih =>
    intro k pr width s hf hk hneg hpos hs
    by_cases hstop : (!isNeg pr && isNeg (pr - 1)) = true
    · obtain ⟨b, hb⟩ : ∃ b, strByte rd p k = some b := by
        rcases Nat.lt_or_eq_of_le hk with hlt | rfl
        · obtain ⟨b, hb, -⟩ := hbefore k hlt
          exact ⟨b, hb⟩
        · obtain ⟨b, hb, -⟩ := hend
          exact ⟨b, hb⟩
      simp only [strLoop, hb, hstop]
      simp [hs]
    rcases Nat.lt_or_eq_of_le hk with hlt | rfl
    · obtain ⟨b, hb, hne⟩ := hbefore k hlt
      simp only [strLoop, hb, if_neg hne, if_neg hstop]
      refine ih (k + 1) _ _ _ (by omega) hlt (fun h => ?_) (fun h => ?_) hs
      · rw [hneg h, if_pos h]
      · obtain ⟨hpr, hsum⟩ := hpos h
        rw [hpr] at hstop
        simp only [Bool.not_false, Bool.true_and, Bool.not_eq_true] at hstop
        rw [hpr, if_neg Bool.false_ne_true]
        have hz : pr.toNat ≠ 0 := by
          intro hz
          have : pr = 0 := BitVec.eq_of_toNat_eq hz
          rw [this] at hstop
          exact absurd hstop (by decide)
        have hone : BitVec.toNat (1 : Word) = 1 := rfl
        refine ⟨hstop, ?_⟩
        rw [BitVec.toNat_sub, hone]
        omega
    · obtain ⟨b, hb, hnul | ⟨hprec, hn⟩⟩ := hend
      · simp only [strLoop, hb, if_pos hnul, hs]
      · -- the precision has run out
        obtain ⟨-, hsum⟩ := hpos hprec
        have : pr = 0 := BitVec.eq_of_toNat_eq (by rw [hn] at hsum; exact Nat.add_eq_right.mp hsum)
        rw [this] at hstop
        exact absurd (by decide) hstop

/-- So does the loop of `strnlen`. -/
theorem strnlen_halt_none {p precision : Word} {n : ℕ}
    (hbefore : ∀ k < n, ∃ b, strByte rd p k = some b ∧ b ≠ 0)
    (hend : ∃ b, strByte rd p n = some b ∧
    (b = 0 ∨ isNeg precision = false ∧ n = precision.toNat)) :
    ∀ (size k : ℕ), size + k = precision.toNat → k ≤ n → (strnlen rd p size k).2.2 = none := by
  intro size
  induction size with
  | zero =>
    intro k _ _
    rfl
  | succ size ih =>
    intro k hsize hk
    rcases Nat.lt_or_eq_of_le hk with hlt | rfl
    · obtain ⟨b, hb, hne⟩ := hbefore k hlt
      simp only [strnlen, hb, if_neg hne]
      exact ih (k + 1) (by omega) hlt
    · obtain ⟨b, hb, hnul | ⟨-, hn⟩⟩ := hend
      · simp only [strnlen, hb, if_pos hnul]
      · omega

/-- What the loop and the padding after it add, from a width on. -/
theorem strTail_frame (rd : Word → Option (BitVec 8)) (e : Esc) (p width : Word) : ∃ t r h,
    (∀ s : Fmt, s.halt = none →
      (let q := strLoop rd p e.altflag strFuel 0 e.precision width s
       if q.2.halt.isSome then q.2
        else q.2.put (List.replicate (if isNeg q.1 then 0 else q.1.toNat) (chr ' '))) =
        ⟨s.pos, s.ap, s.out ++ t, s.reads ++ r, h⟩) ∧
    (ValidStr rd e.precision p → h = none) := by
  obtain ⟨w, t, r, h, hloop⟩ := strLoop_frame rd p e.altflag strFuel 0 e.precision width
  refine ⟨if h.isSome then t else t ++ List.replicate (if isNeg w then 0 else w.toNat) (chr ' '), r,
    h, fun s hs => ?_, fun hvalid => ?_⟩
  · dsimp only
    rw [hloop s hs]
    cases h with
    | none => simp [Fmt.put]
    | some v => simp
  · obtain ⟨n, hn, hbefore, hend⟩ := hvalid.bytes
    have hnone := strLoop_halt_none e.altflag hbefore hend strFuel 0 e.precision width
      ⟨0, [], [], [], none⟩
      (by rw [strFuel]; omega) (Nat.zero_le n) (fun _ => rfl)
        (fun hpos => ⟨hpos, Nat.add_zero _⟩) rfl
    rwa [hloop _ rfl] at hnone

/-- `%s` adds to what there is, and comes to an end on a valid string. -/
theorem fmtString_frame (rd : Word → Option (BitVec 8)) (e : Esc) (ap : List Word) : ∃ t r h,
    (∀ s : Fmt, s.ap = ap → s.halt = none →
      fmtString rd e s = ⟨s.pos, ap.tail, s.out ++ t, s.reads ++ r, h⟩) ∧
    (ValidStr rd e.precision (ap.headD 0) → h = none) := by
  by_cases hpad : (!isNeg e.width && e.width != 0 && e.padc != chr '-') = true
  · generalize hq : strnlen rd (ap.headD 0) e.precision.toNat 0 = q
    obtain ⟨t, r, h, htail, hvalid⟩ := strTail_frame rd e (ap.headD 0)
      (if isNeg (e.width - BitVec.ofNat 32 q.1) then e.width - BitVec.ofNat 32 q.1 else 0)
    generalize hpads : List.replicate (if isNeg (e.width - BitVec.ofNat 32 q.1) then 0
      else (e.width - BitVec.ofNat 32 q.1).toNat) e.padc = pads
    cases hh : q.2.2 with
    | some v =>
      refine ⟨pads, q.2.1, some v, fun s hap hs => ?_, fun hstr => ?_⟩
      · simp only [fmtString, Fmt.vaArg, hap, if_pos hpad, hq, hpads, hh,
          Option.isSome_some, if_true]
        rfl
      · obtain ⟨n, -, hbefore, hend⟩ := hstr.bytes
        have hnone := strnlen_halt_none hbefore hend e.precision.toNat 0 (Nat.add_zero _)
          (Nat.zero_le n)
        rw [hq, hh] at hnone
        exact absurd hnone (Option.some_ne_none v)
    | none =>
      refine ⟨pads ++ t, q.2.1 ++ r, h, fun s hap hs => ?_, hvalid⟩
      have htail' := htail ({ ({ s with ap := ap.tail } : Fmt).put pads with
        reads := s.reads ++ q.2.1, halt := none }) rfl
      simp only [fmtString, Fmt.vaArg, hap, if_pos hpad, hq, hpads, hh, Option.isSome_none,
        Bool.false_eq_true, if_false]
      refine Eq.trans htail' ?_
      simp [Fmt.put]
  · obtain ⟨t, r, h, htail, hvalid⟩ := strTail_frame rd e (ap.headD 0) e.width
    refine ⟨t, r, h, fun s hap hs => ?_, hvalid⟩
    have htail' := htail ({ s with ap := ap.tail }) hs
    simp only [fmtString, Fmt.vaArg, hap, if_neg hpad, hs, Option.isSome_none,
      Bool.false_eq_true, if_false]
    rw [← hs]
    exact htail'

/-- A state with these arguments. -/
def Fmt.ofArgs (ap : List Word) : Fmt := ⟨0, ap, [], [], none⟩

theorem getint_frame (s : Fmt) (lflag : ℕ) : getint s lflag =
    ((getint (Fmt.ofArgs s.ap) lflag).1,
        { s with ap := (getint (Fmt.ofArgs s.ap) lflag).2.ap }) := by
  rw [getint, getint]
  split_ifs <;> rfl

theorem getuint_frame (s : Fmt) (lflag : ℕ) : getuint s lflag =
    ((getuint (Fmt.ofArgs s.ap) lflag).1,
        { s with ap := (getuint (Fmt.ofArgs s.ap) lflag).2.ap }) := by
  rw [getuint, getuint]
  split_ifs <;> rfl

/-- What `%e` prints. -/
def errorText (w : Word) : List Word :=
  if w = BitVec.intMin 32 then chars "error " ++ printInt w.toInt (-1) (chr ' ')
  else if w.toInt.natAbs ≥ MAXERROR then chars "error " ++ printInt w.toInt.natAbs (-1) (chr ' ')
  else match errorString w.toInt.natAbs with
    | some p => chars p
    | none => chars "error " ++ printInt w.toInt.natAbs (-1) (chr ' ')

/-- **A conversion** adds to what there is; what it adds, and which arguments it takes, depends on
the escape's flags and on the arguments alone. -/
theorem fmtStep_conv (rd : Word → Option (BitVec 8)) (hc : IsConv c) (e : Esc) (ap : List Word) :
    ∃ t ap' r h,
    (∀ (fmt : List (BitVec 8)) (s : Fmt), fmtAt fmt s.pos = c → s.ap = ap → s.halt = none →
      fmtStep rd fmt (.esc e, s) = some (.text, ⟨s.pos + 1, ap', s.out ++ t, s.reads ++ r, h⟩)) ∧
    ((c = 0x73 → ValidStr rd e.precision (ap.headD 0)) → h = none) := by
  have hcases : c = 0x63 ∨ c = 0x65 ∨ c = 0x73 ∨ c = 0x64 ∨ c = 0x75 ∨ c = 0x6f ∨ c = 0x70 ∨
      c = 0x78 ∨ c = 0x25 := by
    revert c
    decide
  rcases hcases with rfl | rfl | rfl | rfl | rfl | rfl | rfl | rfl | rfl
  · exact ⟨[ap.headD 0], ap.tail, [], none, fun fmt s hat hap hs => by
      simp [fmtStep, hat, ← hap, hs, Fmt.vaArg, Fmt.put], fun _ => rfl⟩
  · refine ⟨errorText (ap.headD 0), ap.tail, [], none, fun fmt s hat hap hs => ?_, fun _ => rfl⟩
    by_cases hmin : ap.headD 0 = BitVec.intMin 32
    · simp only [fmtStep, hat, Fmt.vaArg, Fmt.put, hap, hs, errorText, if_pos hmin, List.append_nil]
      rfl
    · simp only [fmtStep, hat, Fmt.vaArg, Fmt.put, hap, hs, errorText, if_neg hmin, List.append_nil]
      rfl
  · obtain ⟨t, r, h, hframe, hvalid⟩ := fmtString_frame rd e ap
    refine ⟨t, ap.tail, r, h, fun fmt s hat hap hs => ?_, fun h => hvalid (h rfl)⟩
    have hstr := hframe { s with pos := s.pos + 1 } hap hs
    simp [fmtStep, hat, hstr]
  · refine ⟨printInt (getint (Fmt.ofArgs ap) e.lflag).1 e.width.toInt e.padc,
      (getint (Fmt.ofArgs ap) e.lflag).2.ap, [], none,
      fun fmt s hat hap hs => ?_, fun _ => rfl⟩
    simp only [fmtStep, hat]
    rw [getint_frame]
    simp only [Fmt.put, hap, hs, List.append_nil]
    rfl
  · refine ⟨printnum 10 e.padc 64 (getuint (Fmt.ofArgs ap) e.lflag).1 e.width.toInt,
      (getuint (Fmt.ofArgs ap) e.lflag).2.ap, [], none,
      fun fmt s hat hap hs => ?_, fun _ => rfl⟩
    simp only [fmtStep, hat]
    rw [getuint_frame]
    simp only [Fmt.put, hap, hs, List.append_nil]
    rfl
  · exact ⟨chars "XXX", ap, [], none, fun fmt s hat hap hs => by
      simp [fmtStep, hat, ← hap, hs, Fmt.put], fun _ => rfl⟩
  · refine ⟨chars "0x" ++ printnum 16 e.padc 64 (ap.headD 0).toNat e.width.toInt, ap.tail, [], none,
      fun fmt s hat hap hs => ?_, fun _ => rfl⟩
    simp only [fmtStep, hat, Fmt.vaArg, Fmt.put, hap, hs, List.append_nil]
    rfl
  · refine ⟨printnum 16 e.padc 64 (getuint (Fmt.ofArgs ap) e.lflag).1 e.width.toInt,
      (getuint (Fmt.ofArgs ap) e.lflag).2.ap, [], none,
      fun fmt s hat hap hs => ?_, fun _ => rfl⟩
    simp only [fmtStep, hat]
    rw [getuint_frame]
    simp only [Fmt.put, hap, hs, List.append_nil]
    rfl
  · exact ⟨[(0x25 : BitVec 8).setWidth 32], ap, [], none, fun fmt s hat hap hs => by
      simp [fmtStep, hat, ← hap, hs, Fmt.put], fun _ => rfl⟩

/-! ### Whole formats -/

/-- The characters that a piece of the format stands for. -/
def literal (cs : List (BitVec 8)) : List Word := cs.map fun c => c.setWidth 32

/-- The text that `vprintfmt` makes of a format: what is outside an escape, and an escape that it
does not know, stands for itself; an escape that it knows prints what it prints alone. An unknown
escape still takes the arguments of its `*`s. -/
inductive Emits (rd : Word → Option (BitVec 8)) : List (BitVec 8) → List Word →
    List Word → Prop where
  | nil (ap : List Word) : Emits rd [] ap []
  | char {c : BitVec 8} {fmt : List (BitVec 8)} {ap out : List Word} : c ≠ 0x25 →
      Emits rd fmt ap out →
      Emits rd (c :: fmt) ap (literal [c] ++ out)
  | conv {flags : List (BitVec 8)} {c : BitVec 8} {fmt : List (BitVec 8)} {ap out : List Word} :
      (∀ x ∈ flags, IsFlag x) →
      IsConv c → Emits rd fmt (vprintfmt rd (0x25 :: flags ++ [c]) ap).ap out →
      Emits rd (0x25 :: flags ++ c :: fmt) ap ((vprintfmt rd (0x25 :: flags ++ [c]) ap).out ++ out)
  | unknown {flags : List (BitVec 8)} {c : BitVec 8} {fmt : List (BitVec 8)} {ap out : List Word} :
      (∀ x ∈ flags, IsFlag x) →
      ¬ IsFlag c → ¬ IsConv c → Emits rd fmt (ap.drop (flags.count 0x2a)) out →
      Emits rd (0x25 :: flags ++ c :: fmt) ap (literal (0x25 :: flags ++ [c]) ++ out)
  | cut {flags : List (BitVec 8)} {ap : List Word} : (∀ x ∈ flags, IsFlag x) →
    Emits rd (0x25 :: flags) ap (literal (0x25 :: flags))

/-- The arguments of the conversions `%s` are strings. -/
def StringArgs (rd : Word → Option (BitVec 8)) (fmt : List (BitVec 8)) (t : FmtMode × Fmt) : Prop :=
  ∀ e s, FmtReach rd fmt t (.esc e, s) → fmtAt fmt s.pos = 0x73 → ValidStr rd e.precision s.vaArg.1

theorem StringArgs.of_passes {n : ℕ} {t u : FmtMode × Fmt} (h : StringArgs rd fmt t)
    (hp : Passes rd fmt n t u) : StringArgs rd fmt u :=
  fun e s hs => h e s (hp.reach.trans hs)

/-- The way back stops after the last `%`. -/
theorem rewind_percent : ∀ (flags pre rest : List (BitVec 8)), (∀ x ∈ flags, x ≠ 0x25) →
    rewind (pre ++ 0x25 :: flags ++ rest) (pre.length + (flags.length + 1)) = pre.length + 1 := by
  intro flags
  induction flags using List.reverseRecOn with
  | nil =>
    intro pre rest _
    have hat : fmtAt (pre ++ [0x25] ++ rest) pre.length = 0x25 := by
      rw [List.append_assoc, List.singleton_append, fmtAt_append]
    rw [List.length_nil, Nat.zero_add, rewind, if_pos hat]
  | append_singleton flags x ih =>
    intro pre rest hne
    have hx : x ≠ 0x25 := hne x (List.mem_append_right _ (List.mem_singleton_self x))
    have hlen : (pre ++ 0x25 :: flags).length = pre.length + (flags.length + 1) := by
      rw [List.length_append, List.length_cons]
    have hsame : pre ++ 0x25 :: (flags ++ [x]) ++ rest = pre ++ 0x25 :: flags ++ x ::
      rest := by simp
    rw [List.length_append, List.length_singleton, ← Nat.add_assoc, rewind, hsame, ← hlen,
      fmtAt_append, if_neg hx, hlen]
    exact ih pre (x :: rest) fun y hy => hne y (List.mem_append_left _ hy)

/-- Characters without a `%` are printed. -/
theorem text_passes (rd : Word → Option (BitVec 8)) : ∀ (cs pre rest : List (BitVec 8)) (s : Fmt),
    (∀ x ∈ cs, x ≠ 0x25 ∧ x ≠ 0) →
    s.pos = pre.length → s.halt = none →
    Passes rd (pre ++ cs ++ rest) cs.length (.text, s)
      (.text, { s.put (literal cs) with pos := pre.length + cs.length }) := by
  intro cs
  induction cs with
  | nil =>
    intro pre rest s _ hpos _
    have hsame : ({ s.put (literal []) with pos := pre.length + ([] : List (BitVec 8)).length } :
        Fmt) = s := by
      simp [Fmt.put, literal, ← hpos]
    rw [hsame]
    exact .refl _
  | cons c cs ih =>
    intro pre rest s hcs hpos hs
    obtain ⟨hc, hnul⟩ := hcs c List.mem_cons_self
    have hat : fmtAt (pre ++ c :: cs ++ rest) s.pos = c := by
      rw [hpos, List.append_assoc, List.cons_append, fmtAt_append]
    have hstep := @fmtStep_char rd (pre ++ c :: cs ++ rest) s (by rwa [hat]) (by rwa [hat])
    have hnext := ih (pre ++ [c]) rest { s.put [c.setWidth 32] with pos := s.pos + 1 }
      (fun x hx => hcs x (List.mem_cons_of_mem _ hx)) (by rw [List.length_append, hpos]; rfl) hs
    rw [hat] at hstep
    have hsame : pre ++ [c] ++ cs ++ rest = pre ++ c :: cs ++ rest := by simp
    have hend : ({ ({ s.put [c.setWidth 32] with pos := s.pos + 1 } : Fmt).put (literal cs) with
        pos := (pre ++ [c]).length + cs.length } : Fmt) = { s.put (literal (c :: cs)) with
            pos := pre.length + (c :: cs).length } := by
      simp only [Fmt.put, literal, List.map_cons, List.append_assoc, List.singleton_append,
        List.length_append,
        List.length_nil, List.length_cons]
      congr 1
      omega
    rw [hsame, hend] at hnext
    exact .head hs hstep hnext

theorem IsConv.not_isFlag (h : IsConv c) : ¬ IsFlag c := by
  revert c
  decide

theorem IsFlag.ne (h : IsFlag c) : c ≠ 0x25 ∧ c ≠ 0 := by
  revert c
  decide

/-- An escape up to the character after its flags. -/
theorem escape_passes (hflags : ∀ x ∈ flags, IsFlag x) (ap : List Word) : ∃ n ≤ flags.length, ∃ e',
    ∀ (rd : Word → Option (BitVec 8)) (pre rest : List (BitVec 8)) (s : Fmt),
      (∀ x, rest.head? = some x → ¬ IsFlag x) →
      s.pos = pre.length → s.ap = ap → s.halt = none →
      Passes rd (pre ++ 0x25 :: flags ++ rest) (n + 1) (.text, s)
        (.esc e', { s with
          pos := pre.length + (flags.length + 1), ap := ap.drop (flags.count 0x2a) }) := by
  obtain ⟨n, hn, e', h⟩ := flags_passes flags.length flags le_rfl hflags .init ap
  refine ⟨n, hn, e', fun rd pre rest s hrest hpos hap hs => ?_⟩
  have hat : fmtAt (pre ++ 0x25 :: flags ++ rest) s.pos = 0x25 := by
    rw [hpos, List.append_assoc, List.cons_append, fmtAt_append]
  have hlen : (pre ++ [0x25]).length = pre.length + 1 := List.length_append
  have hnext := h rd (pre ++ [0x25]) rest { s with pos := s.pos + 1 } hrest
    (by rw [hlen, hpos]) hap hs
  rw [hlen, Nat.add_assoc, Nat.add_comm 1, show pre ++ [0x25] ++ flags ++ rest = pre ++ 0x25 ::
    flags ++ rest by simp] at hnext
  exact .head hs (fmtStep_percent hat) hnext

/-- An escape that `vprintfmt` knows: what it prints and takes is what it does alone. -/
theorem conv_passes (hflags : ∀ x ∈ flags, IsFlag x) (hc : IsConv c) {s : Fmt}
    (hpos : s.pos = pre.length) (hs : s.halt = none)
    (hargs : StringArgs rd (pre ++ 0x25 :: flags ++ c :: rest) (.text, s)) :
    ∃ n ≤ flags.length + 2, ∃ r,
    Passes rd (pre ++ 0x25 :: flags ++ c :: rest) n (.text, s)
      (.text, ⟨pre.length + (flags.length + 2), (vprintfmt rd (0x25 :: flags ++ [c]) s.ap).ap,
        s.out ++ (vprintfmt rd (0x25 :: flags ++ [c]) s.ap).out, r, none⟩) := by
  obtain ⟨n, hn, e', hesc⟩ := escape_passes hflags s.ap
  obtain ⟨t, ap', r, h, hconv, hvalid⟩ := fmtStep_conv rd hc e' (s.ap.drop (flags.count 0x2a))
  have hhead : ∀ rest : List (BitVec 8), ∀ x, (c :: rest).head? = some x → ¬ IsFlag x := by
    intro rest x hx
    rw [List.head?_cons, Option.some.injEq] at hx
    exact hx ▸ hc.not_isFlag
  -- in the format, and alone
  have hwhole := hesc rd pre (c :: rest) s (hhead rest) hpos rfl hs
  have halone := hesc rd [] [c] (Fmt.ofArgs s.ap) (hhead []) rfl rfl rfl
  have hlen : ∀ pre : List (BitVec 8), (pre ++ 0x25 :: flags).length = pre.length +
      (flags.length + 1) := by
    intro pre
    rw [List.length_append, List.length_cons]
  have hat : ∀ pre rest : List (BitVec 8), fmtAt (pre ++ 0x25 :: flags ++ c :: rest)
      (pre.length + (flags.length + 1)) = c := by
    intro pre rest
    rw [← hlen, fmtAt_append]
  have hnone : h = none := hvalid fun hc => hargs e' _ hwhole.reach (by dsimp only; rw [hat, hc])
  subst hnone
  have hwhole' := hwhole.trans (Passes.one hs (hconv _ _ (hat pre rest) rfl hs))
  have halone' := halone.trans (Passes.one rfl (hconv _ _ (hat [] []) rfl rfl))
  have hv : vprintfmt rd (0x25 :: flags ++ [c]) s.ap = ⟨flags.length + 2, ap', t, r, none⟩ := by
    have hfuel : 2 * (0x25 :: flags ++ [c] : List (BitVec 8)).length + 2 = (n + 1 + 1) +
        (2 * flags.length + 3 - n + 1) := by
      rw [List.length_append, List.length_cons, List.length_singleton]
      omega
    rw [vprintfmt, hfuel]
    refine (halone'.run _).trans ?_
    have hend : ([] : List (BitVec 8)).length + (flags.length + 1) + 1 =
        ([] ++ 0x25 :: flags ++ c :: [] : List (BitVec 8)).length := by
      simp
    refine (fmtRun_done _ (by dsimp only; rw [hend, fmtAt_length])).trans ?_
    simp [Fmt.ofArgs]
  rw [hv]
  refine ⟨n + 1 + 1, by omega, _, hwhole'⟩

/-- An escape that `vprintfmt` does not know, or one cut off: it is printed as it stands, from its
`%` on. -/
theorem unknown_passes (hflags : ∀ x ∈ flags, IsFlag x) {s : Fmt} (hpos : s.pos = pre.length)
    (hs : s.halt = none)
    (hhead : ∀ x, rest.head? = some x → ¬ IsFlag x ∧ ¬ IsConv x) : ∃ n ≤ 2 * flags.length + 2,
    Passes rd (pre ++ 0x25 :: flags ++ rest) n (.text, s)
      (.text, { s.put (literal (0x25 :: flags)) with
          pos := pre.length + (flags.length + 1), ap := s.ap.drop (flags.count 0x2a) }) := by
  obtain ⟨n, hn, e', hesc⟩ := escape_passes hflags s.ap
  have hforth := hesc rd pre rest s (fun x hx => (hhead x hx).1) hpos rfl hs
  have hlen : (pre ++ 0x25 :: flags).length = pre.length + (flags.length + 1) := by
    rw [List.length_append, List.length_cons]
  have hat : ¬ IsFlag (fmtAt (pre ++ 0x25 :: flags ++ rest) (pre.length + (flags.length + 1))) ∧
      ¬ IsConv (fmtAt (pre ++ 0x25 :: flags ++ rest) (pre.length + (flags.length + 1))) := by
    rw [← hlen]
    cases rest with
    | nil =>
      rw [List.append_nil, fmtAt_length]
      decide
    | cons x rest =>
      rw [fmtAt_append]
      exact hhead x rfl
  have hback := @fmtStep_unknown rd (pre ++ 0x25 :: flags ++ rest) e'
    { s with pos := pre.length + (flags.length + 1), ap := s.ap.drop (flags.count 0x2a) } hat.1
      hat.2
  dsimp only at hback
  rw [rewind_percent flags pre rest fun x hx => (hflags x hx).ne.1] at hback
  -- the flags once more, as text
  have hone : (pre ++ [0x25]).length = pre.length + 1 := List.length_append
  have htext := text_passes rd flags (pre ++ [0x25]) rest
    ⟨pre.length + 1, s.ap.drop (flags.count 0x2a), s.out ++ [chr '%'], s.reads, s.halt⟩
    (fun x hx => (hflags x hx).ne) hone.symm hs
  have hsame : pre ++ [0x25] ++ flags ++ rest = pre ++ 0x25 :: flags ++ rest := by simp
  rw [hsame] at htext
  have hall := (hforth.trans (Passes.one hs hback)).trans htext
  refine ⟨n + 1 + 1 + flags.length, by omega, ?_⟩
  have hend : ({ (⟨pre.length + 1, s.ap.drop (flags.count 0x2a), s.out ++ [chr '%'], s.reads,
      s.halt⟩ : Fmt).put (literal flags) with
      pos := (pre ++ [0x25]).length + flags.length } : Fmt) =
      { s.put (literal (0x25 :: flags)) with
          pos := pre.length + (flags.length + 1), ap := s.ap.drop (flags.count 0x2a) } := by
    have hpercent : chr '%' = (0x25 : BitVec 8).setWidth 32 := by decide
    simp only [Fmt.put, literal, List.map_cons, List.append_assoc, List.singleton_append,
      List.length_append,
      List.length_nil, List.length_cons, hpercent]
    congr 1
    omega
  rwa [hend] at hall

/-- From a position outside escapes on, the rest of the format is printed as the grammar says. -/
theorem fmtRun_emits (rd : Word → Option (BitVec 8)) : ∀ (k : ℕ) (suf : List (BitVec 8)),
    suf.length < k → (∀ x ∈ suf, x ≠ 0) →
    ∀ (pre : List (BitVec 8)) (s : Fmt) (f : ℕ), s.pos = pre.length → s.halt = none →
      StringArgs rd (pre ++ suf) (.text, s) →
      2 * suf.length + 2 ≤ f →
      ∃ out, Emits rd suf s.ap out ∧ (fmtRun rd (pre ++ suf) f (.text, s)).out = s.out ++ out ∧
        (fmtRun rd (pre ++ suf) f (.text, s)).halt = none := by
  intro k
  induction k with
  | zero =>
    intro suf hlen
    exact absurd hlen (Nat.not_lt_zero _)
  | succ k ih =>
    intro suf hlen hnul pre s f hpos hs hargs hf
    cases suf with
    | nil =>
      obtain ⟨f, rfl⟩ := Nat.exists_eq_succ_of_ne_zero (Nat.ne_of_gt (Nat.zero_lt_of_lt hf))
      rw [fmtRun_done f (by rw [List.append_nil, hpos, fmtAt_length])]
      exact ⟨[], .nil _, (List.append_nil _).symm, hs⟩
    | cons c suf =>
      by_cases hc : c = 0x25
      · subst hc
        obtain ⟨flags, rest, rfl, hflags, hstop⟩ := exists_span IsFlag suf
        cases rest with
        | nil =>
          obtain ⟨n, hn, hpass⟩ := @unknown_passes rd flags pre [] hflags s hpos hs (by simp)
          rw [List.length_cons, List.length_append, List.length_nil] at hf
          obtain ⟨g, hg⟩ := Nat.exists_eq_add_of_lt (show n < f by omega)
          rw [List.append_nil] at hpass ⊢
          rw [hpass.run_le (by omega), show f - n = g + 1 by omega,
            fmtRun_done g (by dsimp only; rw [← List.length_cons, ← List.length_append,
            fmtAt_length])]
          exact ⟨_, .cut hflags, rfl, hs⟩
        | cons c rest =>
          have hsame : pre ++ 0x25 :: (flags ++ c :: rest) = pre ++ 0x25 :: flags ++ c ::
            rest := by simp
          have hsame' : pre ++ 0x25 :: flags ++ c :: rest = pre ++ 0x25 :: flags ++ [c] ++
            rest := by simp
          have hlen' : (pre ++ 0x25 :: flags ++ [c]).length = pre.length + (flags.length + 2) := by
            simp
          have hnul' : ∀ x ∈ rest, x ≠ 0 := fun x hx => hnul x (by simp [hx])
          rw [List.length_cons, List.length_append, List.length_cons] at hf hlen
          rw [hsame] at hargs ⊢
          by_cases hconv : IsConv c
          · obtain ⟨n, hn, r, hpass⟩ := conv_passes hflags hconv hpos hs hargs
            have hrest := hargs.of_passes hpass
            rw [hpass.run_le (by omega)]
            rw [hsame'] at hrest ⊢
            obtain ⟨out, hout, hrun, hhalt⟩ :=
              ih rest (by omega) hnul' _ _ (f - n) hlen'.symm rfl hrest (by omega)
            exact ⟨_, .conv hflags hconv hout, by rw [hrun, List.append_assoc], hhalt⟩
          · have hcflag : ¬ IsFlag c := hstop c rfl
            have hcnul : c ≠ 0 := hnul c (by simp)
            have hcpercent : c ≠ 0x25 := by
              rintro rfl
              exact hconv (by decide)
            obtain ⟨n, hn, hback⟩ := @unknown_passes rd flags pre (c :: rest) hflags s hpos hs
                fun x hx => by
              rw [List.head?_cons, Option.some.injEq] at hx
              exact hx ▸ ⟨hcflag, hconv⟩
            have htext := text_passes rd [c] (pre ++ 0x25 :: flags) rest
              { s.put (literal (0x25 :: flags)) with
                pos := pre.length + (flags.length + 1), ap := s.ap.drop (flags.count 0x2a) }
              (fun x hx => by rw [List.mem_singleton.mp hx]; exact ⟨hcpercent, hcnul⟩) (by simp) hs
            rw [← hsame'] at htext
            rw [List.length_singleton] at htext
            have hpass := hback.trans htext
            have hrest := hargs.of_passes hpass
            rw [hpass.run_le (by omega)]
            rw [hsame'] at hrest ⊢
            obtain ⟨out, hout, hrun, hhalt⟩ :=
              ih rest (by omega) hnul' (pre ++ 0x25 :: flags ++ [c]) _ (f - (n + 1))
              (by rw [hlen', List.length_append]; rfl) (by exact hs) hrest (by omega)
            refine ⟨_, .unknown hflags hcflag hconv hout, ?_, hhalt⟩
            rw [hrun]
            simp [Fmt.put, literal]
      · have hat : fmtAt (pre ++ c :: suf) s.pos = c := by rw [hpos, fmtAt_append]
        have hpass := Passes.one hs (@fmtStep_char rd (pre ++ c :: suf) s (by rwa [hat])
          (by rw [hat]; exact hnul c List.mem_cons_self))
        have hrest := hargs.of_passes hpass
        rw [List.length_cons] at hf hlen
        rw [hpass.run_le (by omega)]
        rw [hat] at hrest ⊢
        rw [show pre ++ c :: suf = pre ++ [c] ++ suf by simp] at hrest ⊢
        obtain ⟨out, hout, hrun, hhalt⟩ :=
          ih suf (by omega) (fun x hx => hnul x (List.mem_cons_of_mem _ hx)) (pre ++ [c]) _ (f - 1)
          (by rw [List.length_append, ← hpos]; rfl) (by exact hs) hrest (by omega)
        exact ⟨_, .char hc hout, by rw [hrun, ← List.append_assoc]; rfl, hhalt⟩

/-! ### Reads of the format -/

/-- Where a pass begins: inside the format or at its end, and in an escape after a `%`. -/
def FmtInv (fmt : List (BitVec 8)) : FmtMode × Fmt → Prop
  | (.text, s) => s.pos ≤ fmt.length
  | (.esc _, s) => s.pos ≤ fmt.length ∧ ∃ i < s.pos, fmtAt fmt i = 0x25

theorem scanNumber_le : ∀ (f i : ℕ) (ch precision : Word), i ≤ fmt.length →
    i ≤ (scanNumber fmt f i ch precision).1 ∧ (scanNumber fmt f i ch precision).1 ≤ fmt.length := by
  intro f
  induction f with
  | zero =>
    intro i ch precision hi
    exact ⟨le_rfl, hi⟩
  | succ f ih =>
    intro i ch precision hi
    rw [scanNumber]
    split_ifs with hstop
    · exact ⟨le_rfl, hi⟩
    · have hlt : i < fmt.length := lt_length_of_fmtAt fun hz => by
        rw [hz] at hstop
        exact hstop (by decide)
      have hnext := ih (i + 1) ((fmtAt fmt i).setWidth 32) (precision * 10 + ch - chr '0') hlt
      omega

theorem mem_scanReads : ∀ (f i : ℕ), i ≤ fmt.length → ∀ r ∈ scanReads fmt f i, 0 ≤ r ∧
    r ≤ fmt.length := by
  intro f
  induction f with
  | zero =>
    intro i _ r hr
    exact absurd hr List.not_mem_nil
  | succ f ih =>
    intro i hi r hr
    rw [scanReads] at hr
    rcases List.mem_cons.mp hr with rfl | hr
    · omega
    · split_ifs at hr with hstop
      · exact absurd hr List.not_mem_nil
      · refine ih (i + 1) (lt_length_of_fmtAt fun hz => ?_) r hr
        rw [hz] at hstop
        exact hstop (by decide)

/-- The way back does not get past a `%`. -/
theorem mem_rewindReads : ∀ (i : ℕ), (∃ j < i, fmtAt fmt j = 0x25) → ∀ r ∈ rewindReads fmt i,
    0 ≤ r ∧ r < i := by
  intro i
  induction i with
  | zero =>
    rintro ⟨j, hj, -⟩
    exact absurd hj (Nat.not_lt_zero j)
  | succ i ih =>
    rintro ⟨j, hj, hpercent⟩ r hr
    rw [rewindReads] at hr
    rcases List.mem_cons.mp hr with rfl | hr
    · omega
    · split_ifs at hr with hstop
      · exact absurd hr List.not_mem_nil
      · have hne : j ≠ i := by
          rintro rfl
          exact hstop hpercent
        have := ih ⟨j, by omega, hpercent⟩ r hr
        omega

theorem rewind_le : ∀ i : ℕ, rewind fmt i ≤ i := by
  intro i
  induction i with
  | zero => exact le_rfl
  | succ i ih =>
    rw [rewind]
    split_ifs
    · exact le_rfl
    · omega

/-- A width, at any position. -/
theorem fmtStep_digit (hc : 0x31 ≤ fmtAt fmt s.pos ∧ fmtAt fmt s.pos ≤ 0x39) : ∃ e',
    fmtStep rd fmt (.esc e, s) =
      some (.esc e', { s with
        pos :=
          (scanNumber fmt (fmt.length + 1) (s.pos + 1) ((fmtAt fmt s.pos).setWidth 32) 0).1 }) := by
  have hminus : ¬ fmtAt fmt s.pos = 0x2d := fun h => absurd (h ▸ hc) (by decide)
  have hzero : ¬ fmtAt fmt s.pos = 0x30 := fun h => absurd (h ▸ hc) (by decide)
  simp only [fmtStep, if_neg hminus, if_neg hzero, if_pos hc]
  exact ⟨_, rfl⟩

theorem FmtInv.step {t u : FmtMode × Fmt} (h : FmtInv fmt t) (hs : t.2.halt = none)
    (hstep : fmtStep rd fmt t = some u) :
    FmtInv fmt u := by
  obtain ⟨m, s⟩ := t
  cases m with
  | text =>
    by_cases hnul : fmtAt fmt s.pos = 0
    · rw [fmtStep_nul hnul] at hstep
      cases hstep
    have hlt := lt_length_of_fmtAt hnul
    by_cases hc : fmtAt fmt s.pos = 0x25
    · rw [fmtStep_percent hc, Option.some.injEq] at hstep
      subst hstep
      exact ⟨hlt, s.pos, Nat.lt_succ_self _, hc⟩
    · rw [fmtStep_char hc hnul, Option.some.injEq] at hstep
      subst hstep
      exact hlt
  | esc e =>
    obtain ⟨hle, i, hi, hpercent⟩ := h
    have hlt : IsFlag (fmtAt fmt s.pos) ∨ IsConv (fmtAt fmt s.pos) → s.pos < fmt.length := by
      intro hknown
      refine lt_length_of_fmtAt fun hz => ?_
      rw [hz] at hknown
      exact absurd hknown (by decide)
    by_cases hdigit : 0x31 ≤ fmtAt fmt s.pos ∧ fmtAt fmt s.pos ≤ 0x39
    · obtain ⟨e', hwidth⟩ := @fmtStep_digit rd fmt e s hdigit
      rw [hwidth, Option.some.injEq] at hstep
      subst hstep
      have hscan := scanNumber_le (fmt.length + 1) (s.pos + 1) ((fmtAt fmt s.pos).setWidth 32) 0
        (lt_length_of_fmtAt fun hz => absurd (hz ▸ hdigit) (by decide))
      exact ⟨hscan.2, i, by dsimp only; omega, hpercent⟩
    by_cases hflag : IsFlag (fmtAt fmt s.pos)
    · obtain ⟨e', hone⟩ := fmtStep_flag hflag hdigit e s.ap
      rw [hone rd fmt s rfl rfl, Option.some.injEq] at hstep
      subst hstep
      exact ⟨hlt (.inl hflag), i, Nat.lt_succ_of_lt hi, hpercent⟩
    by_cases hconv : IsConv (fmtAt fmt s.pos)
    · obtain ⟨t, ap', r, h, hone, -⟩ := fmtStep_conv rd hconv e s.ap
      rw [hone fmt s rfl rfl hs, Option.some.injEq] at hstep
      subst hstep
      exact hlt (.inr hconv)
    · rw [fmtStep_unknown hflag hconv, Option.some.injEq] at hstep
      subst hstep
      exact (rewind_le _).trans hle

theorem FmtInv.reach {t u : FmtMode × Fmt} (h : FmtInv fmt t) (hr : FmtReach rd fmt t u) :
    FmtInv fmt u := by
  induction hr with
  | refl => exact h
  | tail _ hstep ih => exact ih.step hstep.1 hstep.2

/-- A pass looks at the format from its start to the terminating NUL. -/
theorem FmtInv.reads {t : FmtMode × Fmt} (h : FmtInv fmt t) : ∀ r ∈ fmtReads fmt t, 0 ≤ r ∧
    r ≤ fmt.length := by
  obtain ⟨m, s⟩ := t
  cases m with
  | text =>
    intro r hr
    have hle : s.pos ≤ fmt.length := h
    rw [fmtReads, List.mem_singleton] at hr
    omega
  | esc e =>
    obtain ⟨hle, hback⟩ := h
    intro r hr
    rw [fmtReads] at hr
    rcases List.mem_cons.mp hr with rfl | hr
    · omega
    split_ifs at hr with hdigit hknown
    · exact mem_scanReads _ _ (lt_length_of_fmtAt fun hz => absurd (hz ▸ hdigit) (by decide)) r hr
    · exact absurd hr List.not_mem_nil
    · have := mem_rewindReads s.pos hback r hr
      omega

/-- The text of a whole format. -/
theorem vprintfmt_text (hnul : ∀ x ∈ fmt, x ≠ 0) (hargs : StringArgs rd fmt (fmtStart ap)) :
    (vprintfmt rd fmt ap).halt = none ∧ Emits rd fmt ap (vprintfmt rd fmt ap).out := by
  obtain ⟨out, hout, hrun, hhalt⟩ := fmtRun_emits rd (fmt.length + 1) fmt (Nat.lt_succ_self _) hnul
    [] ⟨0, ap, [], [], none⟩
    (2 * fmt.length + 2) rfl rfl hargs le_rfl
  have hv : (vprintfmt rd fmt ap).out = out := hrun
  refine ⟨hhalt, ?_⟩
  rw [hv]
  exact hout

/-- **`vprintfmt` comes to the end of every format**, looks at nothing outside it, and prints what
the grammar says. -/
theorem vprintfmt_emits (rd : Word → Option (BitVec 8)) (fmt : List (BitVec 8)) (ap : List Word)
    (hnul : ∀ x ∈ fmt, x ≠ 0)
    (hargs : StringArgs rd fmt (fmtStart ap)) :
    (vprintfmt rd fmt ap).halt = none ∧ Emits rd fmt ap (vprintfmt rd fmt ap).out ∧
      ∀ t, FmtReach rd fmt (fmtStart ap) t → ∀ r ∈ fmtReads fmt t, 0 ≤ r ∧ r ≤ fmt.length := by
  obtain ⟨hhalt, hemits⟩ := vprintfmt_text hnul hargs
  refine ⟨hhalt, hemits, fun t ht => ?_⟩
  have hstart : FmtInv fmt (fmtStart ap) := Nat.zero_le _
  exact (hstart.reach ht).reads

theorem stringArgs_of_not_mem (h : 0x73 ∉ fmt) (t : FmtMode × Fmt) : StringArgs rd fmt t := by
  intro e s _ hat
  have hlt : s.pos < fmt.length := lt_length_of_fmtAt (by rw [hat]; decide)
  rw [fmtAt, List.getD_eq_getElem _ _ hlt] at hat
  exact absurd (hat ▸ List.getElem_mem hlt) h

/-- Unknown escapes, one of them with an argument and one cut off. -/
theorem vprintfmt_emits_unknown : (vprintfmt (fun _ => none) (bytes "a%-*.5z%d%#0") [3, 7]).out =
    chars "a%-*.5z7%#0" ∧
    Emits (fun _ => none) (bytes "a%-*.5z%d%#0") [3, 7] (chars "a%-*.5z7%#0") := by
  have hout : (vprintfmt (fun _ => none) (bytes "a%-*.5z%d%#0") [3, 7]).out =
    chars "a%-*.5z7%#0" := by decide
  have h := (vprintfmt_emits (fun _ => none) (bytes "a%-*.5z%d%#0") [3, 7] (by decide)
    (stringArgs_of_not_mem (by decide) _)).2.1
  rw [hout] at h
  exact ⟨hout, h⟩

end JOS
