import JOS.Print.Format

/-!
# Numbers in a field

`printnum` prints the digits of a number after the padding that the width leaves room
for (`printnum_eq`). The sign of a `%d` comes before the padding and is not counted, and
the flag `-`, which asks for padding on the right, becomes the padding character
(`numText_eq`). So a field is as it should be exactly when there is no padding, or
neither a sign nor that flag (`numText_field_iff`).
-/

namespace JOS

variable {rd : Word → Option (BitVec 8)} {pre rest : List (BitVec 8)} {e : Esc}
  {s : Fmt} {b n w : ℕ}

/-! ### Digits -/

/-- The digits of a number, the most significant first. -/
def digits (b n : ℕ) : List Word := (Nat.toDigits b n).map chr

theorem digits_of_lt (h : n < b) : digits b n = [chr n.digitChar] := by
  rw [digits, Nat.toDigits_of_lt_base h]
  rfl

theorem digits_of_le (hb : 1 < b) (h : b ≤ n) :
    digits b n = digits b (n / b) ++ [chr (n % b).digitChar] := by
  rw [digits, Nat.toDigits_of_base_le hb h, List.map_append]
  rfl

theorem digits_length_pos (b n : ℕ) : 0 < (digits b n).length := by
  rw [digits, List.length_map]
  exact Nat.length_toDigits_pos

theorem digit_eq (h : n < 16) : ((bytes "0123456789abcdef").getD n 0).setWidth 32 =
    chr n.digitChar := by
  revert h n
  decide

/-- What holds of every digit's character holds of a numeral's. -/
theorem digits_forall {P : Word → Prop} (hb : 1 < b) (h : ∀ k < b, P (chr k.digitChar)) (n : ℕ) :
    ∀ x ∈ digits b n, P x := by
  induction n using Nat.strong_induction_on with
  | _ n ih =>
    intro x hx
    by_cases hle : b ≤ n
    · rw [digits_of_le hb hle] at hx
      rcases List.mem_append.mp hx with hx | hx
      · exact ih (n / b) (Nat.div_lt_self (by omega) hb) x hx
      · exact List.mem_singleton.mp hx ▸ h _ (Nat.mod_lt n (by omega))
    · rw [digits_of_lt (not_le.mp hle)] at hx
      exact List.mem_singleton.mp hx ▸ h _ (not_le.mp hle)

/-- **`printnum`** prints padding and the digits. -/
theorem printnum_eq (hb : 1 < b) (hb' : b ≤ 16) (padc : Word) : ∀ (f num : ℕ) (width : ℤ), 0 < f →
    num < b ^ f →
    printnum b padc f num width = List.replicate (width - (digits b num).length).toNat padc ++
      digits b num := by
  intro f
  induction f with
  | zero =>
    intro num width hf
    exact absurd hf (Nat.lt_irrefl 0)
  | succ f ih =>
    intro num width _ hnum
    have hdigit := digit_eq (lt_of_lt_of_le (Nat.mod_lt num (by omega)) hb')
    rw [printnum, hdigit]
    by_cases hle : b ≤ num
    · have hf : 0 < f := by
        refine Nat.pos_of_ne_zero fun hz => ?_
        rw [hz, Nat.zero_add, pow_one] at hnum
        omega
      have hdiv : num / b < b ^ f := Nat.div_lt_of_lt_mul (by rwa [pow_succ, Nat.mul_comm] at hnum)
      rw [if_pos hle, ih (num / b) (width - 1) hf hdiv, digits_of_le hb hle, List.length_append,
        List.length_singleton,
        List.append_assoc]
      congr 3
      push_cast
      omega
    · rw [if_neg hle, digits_of_lt (not_le.mp hle), Nat.mod_eq_of_lt (not_le.mp hle)]
      rfl

/-! ### Widths -/

/-- The bytes of a number in decimal. -/
def decimal (n : ℕ) : List (BitVec 8) := (Nat.toDigits 10 n).map fun c => BitVec.ofNat 8 c.toNat

theorem number_append (p : Word) (ds : List (BitVec 8)) (d : BitVec 8) :
    number p (ds ++ [d]) = number p ds * 10 + d.setWidth 32 - chr '0' := List.foldl_concat ..

/-- The digits of `decimal`, as the width loop takes them. -/
theorem decimal_digit {k : ℕ} (hk : k < 10) : IsDigit (BitVec.ofNat 8 k.digitChar.toNat) ∧
    (0 < k → 0x31 ≤ BitVec.ofNat 8 k.digitChar.toNat ∧ BitVec.ofNat 8 k.digitChar.toNat ≤ 0x39) ∧
    (BitVec.ofNat 8 k.digitChar.toNat).setWidth 32 - chr '0' = BitVec.ofNat 32 k := by
  revert hk k
  decide

/-- The width loop reads what `decimal` writes. -/
theorem decimal_number (n : ℕ) (hn : 0 < n) : ∃ d ds, decimal n = d :: ds ∧ (0x31 ≤ d ∧ d ≤ 0x39) ∧
    (∀ x ∈ ds, IsDigit x) ∧
    number (d.setWidth 32 - chr '0') ds = BitVec.ofNat 32 n := by
  induction n using Nat.strong_induction_on with
  | _ n ih =>
    by_cases hlt : n < 10
    · obtain ⟨-, hd, hval⟩ := decimal_digit hlt
      exact ⟨_, [], by rw [decimal, Nat.toDigits_of_lt_base hlt]; rfl, hd hn, by simp, hval⟩
    · obtain ⟨d, ds, hdec, hd, hds, hnum⟩ := ih (n / 10) (by omega) (by omega)
      obtain ⟨hlast, -, hval⟩ := decimal_digit (Nat.mod_lt n (by decide : 10 > 0))
      refine ⟨d, ds ++ [BitVec.ofNat 8 (n % 10).digitChar.toNat], ?_, hd, fun x hx => ?_, ?_⟩
      · rw [decimal, Nat.toDigits_of_base_le (by decide) (not_lt.mp hlt),
          List.map_append, ← decimal, hdec]
        rfl
      · rcases List.mem_append.mp hx with hx | hx
        · exact hds x hx
        · rw [List.mem_singleton.mp hx]
          exact hlast
      · have hsplit : BitVec.ofNat 32 n = BitVec.ofNat 32 (n / 10) * 10 + BitVec.ofNat 32
            (n % 10) := by
          rw [show (10 : Word) = BitVec.ofNat 32
            10 from rfl, ← BitVec.ofNat_mul, ← BitVec.ofNat_add, Nat.div_add_mod']
        rw [number_append, hnum, hsplit, ← hval, BitVec.sub_eq_add_neg, BitVec.sub_eq_add_neg,
          BitVec.add_assoc]

/-! ### Fields -/

/-- The padding a field asks for. -/
inductive PadFlag where
  /-- No flag: spaces on the left. -/
  | none
  /-- `0`. -/
  | zero
  /-- `-`: on the right. -/
  | minus
  deriving DecidableEq

/-- The flag in the format. -/
def PadFlag.text : PadFlag → List (BitVec 8)
  | .none => []
  | .zero => bytes "0"
  | .minus => bytes "-"

/-- The conversions of numbers. -/
inductive NumConv where
  /-- `%d`. -/
  | d
  /-- `%u`. -/
  | u
  /-- `%x`. -/
  | x

namespace NumConv

/-- The character of the conversion. -/
def char : NumConv → BitVec 8
  | d => 0x64
  | u => 0x75
  | x => 0x78

/-- The base it prints in. -/
def base : NumConv → ℕ
  | d | u => 10
  | x => 16

/-- The value of the argument, with `lflag` letters `l`. -/
def value (lflag : ℕ) (ap : List Word) : NumConv → ℤ
  | d => (getint (Fmt.ofArgs ap) lflag).1
  | u | x => (getuint (Fmt.ofArgs ap) lflag).1

end NumConv

/-- The sign of a numeral. -/
def sign (v : ℤ) : List Word := if v < 0 then [chr '-'] else []

/-- The minimal numeral of a value. -/
def numeral (b : ℕ) (v : ℤ) : List Word := sign v ++ digits b v.natAbs

/-- **The field that is asked for**, `w` characters wide if the numeral is not longer. -/
def PadFlag.field (w b : ℕ) (v : ℤ) : PadFlag → List Word
  | .none => List.replicate (w - (numeral b v).length) (chr ' ') ++ numeral b v
  | .zero => sign v ++ List.replicate (w - (numeral b v).length) (chr '0') ++ digits b v.natAbs
  | .minus => numeral b v ++ List.replicate (w - (numeral b v).length) (chr ' ')

/-- A width, in the format or for `*`; the width 0 is none at all. -/
def widthText (star : Bool) (w : ℕ) : List (BitVec 8) :=
  if star then bytes "*" else if w = 0 then [] else decimal w

/-- The format of a single number. -/
def numFormat (conv : NumConv) (flag : PadFlag) (star : Bool) (w lflag : ℕ) : List (BitVec 8) :=
  0x25 :: (flag.text ++ widthText star w ++ List.replicate lflag 0x6c) ++ [conv.char]

/-- The text that `vprintfmt` prints for it. -/
def numText (rd : Word → Option (BitVec 8)) (conv : NumConv) (flag : PadFlag) (star : Bool)
    (w lflag : ℕ) (ap : List Word) : List Word :=
  (vprintfmt rd (numFormat conv flag star w lflag) (if star then BitVec.ofNat 32 w :: ap
    else ap)).out

/-! ### Reading the field -/

/-- The padding character that the flag sets. -/
def PadFlag.padc : PadFlag → Word
  | .none => chr ' '
  | .zero => chr '0'
  | .minus => chr '-'

/-- The width that is set: none for none. -/
def widthWord (star : Bool) (w : ℕ) : Word := if star = true ∨ w ≠ 0 then BitVec.ofNat 32 w else -1

theorem flag_passes (flag : PadFlag) (hpos : s.pos = pre.length) (hs : s.halt = none) :
    ∃ n ≤ flag.text.length,
    Passes rd (pre ++ flag.text ++ rest) n (.esc .init, s)
      (.esc ⟨flag.padc, -1, -1, 0, false⟩, { s with pos := pre.length + flag.text.length }) := by
  cases flag with
  | none =>
    have hsame : ({ s with pos := pre.length + PadFlag.none.text.length } : Fmt) = s := by
      rw [← hpos]; rfl
    rw [hsame]
    exact ⟨0, le_rfl, .refl _⟩
  | zero =>
    have hat : fmtAt (pre ++ PadFlag.zero.text ++ rest) pre.length = 0x30 := by
      rw [List.append_assoc]
      exact fmtAt_append pre 0x30 rest
    refine ⟨1, le_rfl, Passes.one hs ?_⟩
    simp only [fmtStep, hpos, hat]
    rfl
  | minus =>
    have hat : fmtAt (pre ++ PadFlag.minus.text ++ rest) pre.length = 0x2d := by
      rw [List.append_assoc]
      exact fmtAt_append pre 0x2d rest
    refine ⟨1, le_rfl, Passes.one hs ?_⟩
    simp only [fmtStep, hpos, hat]
    rfl

/-- A width becomes the field's width when there is none yet. -/
theorem processPrecision_width (padc precision : Word) :
    (Esc.mk padc (-1) precision 0 false).processPrecision = ⟨padc, precision, -1, 0, false⟩ :=
  if_pos (show isNeg (-1 : Word) = true by decide)

theorem fmtStep_star {fmt : List (BitVec 8)} (hat : fmtAt fmt s.pos = 0x2a) :
    fmtStep rd fmt (.esc e, s) =
    some (.esc { e with precision := s.ap.headD 0 }.processPrecision,
        { s with pos := s.pos + 1, ap := s.ap.tail }) := by
  simp [fmtStep, hat, Fmt.vaArg]

theorem width_passes (star : Bool) {ap : List Word} (padc : Word)
    (hrest : ∀ x, rest.head? = some x → ¬ IsDigit x) (hpos : s.pos = pre.length)
    (hap : s.ap = if star then BitVec.ofNat 32 w :: ap else ap) (hs : s.halt = none) :
    ∃ n ≤ (widthText star w).length,
    Passes rd (pre ++ widthText star w ++ rest) n (.esc ⟨padc, -1, -1, 0, false⟩, s)
      (.esc ⟨padc, widthWord star w, -1, 0, false⟩,
          { s with pos := pre.length + (widthText star w).length, ap := ap }) := by
  cases star with
  | true =>
    have hat : fmtAt (pre ++ widthText true w ++ rest) s.pos = 0x2a := by
      rw [hpos, List.append_assoc]
      exact fmtAt_append pre 0x2a rest
    have hap : s.ap = BitVec.ofNat 32 w :: ap := hap
    have hstep := @fmtStep_star rd ⟨padc, -1, -1, 0, false⟩ s _ hat
    dsimp only at hstep
    rw [hap, hpos, processPrecision_width] at hstep
    exact ⟨1, le_rfl, Passes.one hs hstep⟩
  | false =>
    have hargs : s.ap = ap := hap
    by_cases hw : w = 0
    · subst hw
      have hsame : ({ s with pos := pre.length + (widthText false 0).length, ap := ap } : Fmt) =
        s := by rw [← hpos, ← hargs]; rfl
      rw [hsame]
      exact ⟨0, Nat.zero_le _, .refl _⟩
    · obtain ⟨d, ds, hdec, hd, hds, hnum⟩ := decimal_number w (Nat.pos_of_ne_zero hw)
      have htext : widthText false w = d :: ds := by
        rw [widthText, if_neg Bool.false_ne_true, if_neg hw, hdec]
      have hstep := @fmtStep_width rd pre rest d ⟨padc, -1, -1, 0, false⟩ s ds hd hds hrest hpos
      dsimp only at hstep
      rw [hnum, processPrecision_width] at hstep
      rw [htext, widthWord, if_pos (.inr hw), ← hargs]
      exact ⟨1, by rw [List.length_cons]; omega, Passes.one hs hstep⟩

theorem lflag_passes : ∀ (k : ℕ) (pre : List (BitVec 8)) (e : Esc) (s : Fmt), s.pos = pre.length →
    s.halt = none →
    Passes rd (pre ++ List.replicate k 0x6c ++ rest) k (.esc e, s)
      (.esc { e with lflag := e.lflag + k }, { s with pos := pre.length + k }) := by
  intro k
  induction k with
  | zero =>
    intro pre e s hpos _
    have hsame : ({ s with pos := pre.length + 0 } : Fmt) = s := by rw [← hpos]; rfl
    rw [hsame]
    exact .refl _
  | succ k ih =>
    intro pre e s hpos hs
    have hsplit : pre ++ List.replicate (k + 1) 0x6c ++ rest = pre ++ [0x6c] ++
        List.replicate k 0x6c ++ rest := by
      rw [List.replicate_succ]
      simp
    have hat : fmtAt (pre ++ [0x6c] ++ List.replicate k 0x6c ++ rest) s.pos = 0x6c := by
      rw [hpos, List.append_assoc, List.append_assoc, List.singleton_append, fmtAt_append]
    have hstep : fmtStep rd (pre ++ [0x6c] ++ List.replicate k 0x6c ++ rest) (.esc e, s) =
        some (.esc { e with lflag := e.lflag + 1 }, { s with pos := s.pos + 1 }) := by
      simp only [fmtStep, hat]
      rfl
    have hlen : (pre ++ [0x6c]).length = pre.length + 1 := List.length_append
    have hnext := ih (pre ++ [0x6c]) { e with lflag := e.lflag + 1 } { s with pos := s.pos + 1 }
      (by rw [hlen, hpos]) hs
    rw [hlen] at hnext
    rw [hsplit, Nat.add_comm k 1, ← Nat.add_assoc, ← Nat.add_assoc, Nat.add_comm 1 k]
    exact .head hs hstep hnext

/-! ### What is printed -/

theorem getuint_lt (s : Fmt) (lflag : ℕ) : (getuint s lflag).1 < 2 ^ 64 := by
  rw [getuint]
  split_ifs
  · exact BitVec.isLt _
  · exact lt_of_lt_of_le (BitVec.isLt _) (by decide)

theorem getint_lt (s : Fmt) (lflag : ℕ) : (getint s lflag).1.natAbs < 2 ^ 64 := by
  rw [getint]
  split_ifs
  · have := BitVec.toInt_lt (x := s.vaArg64.1)
    have := BitVec.le_toInt (x := s.vaArg64.1)
    omega
  · have := BitVec.toInt_lt (x := s.vaArg.1)
    have := BitVec.le_toInt (x := s.vaArg.1)
    omega

/-- A value in a field, as `vprintfmt` prints it. -/
theorem printNum_eq (conv : NumConv) (lflag : ℕ) (ap : List Word) (padc : Word) (width : ℤ) :
    sign (conv.value lflag ap) ++ printnum conv.base padc 64 (conv.value lflag ap).natAbs width =
      sign (conv.value lflag ap) ++
        (List.replicate (width - (digits conv.base (conv.value lflag ap).natAbs).length).toNat
        padc ++
        digits conv.base (conv.value lflag ap).natAbs) := by
  have hlt : (conv.value lflag ap).natAbs < 2 ^ 64 := by
    cases conv with
    | d => exact getint_lt _ _
    | u => exact getuint_lt _ _
    | x => exact getuint_lt _ _
  have hbase : 1 < conv.base ∧ conv.base ≤ 16 := by cases conv <;> decide
  rw [printnum_eq hbase.1 hbase.2 padc 64 _ width (by decide)
    (lt_of_lt_of_le hlt (Nat.pow_le_pow_left hbase.1 64))]

/-- The conversion itself. -/
theorem fmtStep_number (conv : NumConv) {fmt : List (BitVec 8)}
    (hat : fmtAt fmt s.pos = conv.char) : ∃ ap',
    fmtStep rd fmt (.esc e, s) = some (.text,
      ⟨s.pos + 1, ap', s.out ++ (sign (conv.value e.lflag s.ap) ++
      printnum conv.base e.padc 64 (conv.value e.lflag s.ap).natAbs e.width.toInt), s.reads,
          s.halt⟩) := by
  cases conv with
  | d =>
    refine ⟨(getint (Fmt.ofArgs s.ap) e.lflag).2.ap, ?_⟩
    have hat : fmtAt fmt s.pos = 0x64 := hat
    simp only [fmtStep, hat]
    rw [getint_frame]
    rfl
  | u =>
    refine ⟨(getuint (Fmt.ofArgs s.ap) e.lflag).2.ap, ?_⟩
    have hat : fmtAt fmt s.pos = 0x75 := hat
    simp only [fmtStep, hat]
    rw [getuint_frame]
    rfl
  | x =>
    refine ⟨(getuint (Fmt.ofArgs s.ap) e.lflag).2.ap, ?_⟩
    have hat : fmtAt fmt s.pos = 0x78 := hat
    simp only [fmtStep, hat]
    rw [getuint_frame]
    rfl

/-- The padding is what the width leaves after the digits. -/
theorem widthWord_toInt (star : Bool) (hw : w < 2 ^ 31) {k : ℕ} (hk : 0 < k) :
    ((widthWord star w).toInt - k).toNat = w - k := by
  rw [widthWord]
  split_ifs with h
  · rw [BitVec.toInt_eq_toNat_of_lt (by rw [BitVec.toNat_ofNat]; omega), BitVec.toNat_ofNat]
    omega
  · have hz : w = 0 := by simpa using (not_or.mp h).2
    have hneg : (-1 : Word).toInt = -1 := by decide
    rw [hneg]
    omega

/-- What `vprintfmt` prints for a number: the sign, the padding and the digits. -/
theorem numText_eq (rd : Word → Option (BitVec 8)) (conv : NumConv) (flag : PadFlag) (star : Bool)
    (hw : w < 2 ^ 31) (lflag : ℕ)
    (ap : List Word) : numText rd conv flag star w lflag ap =
      sign (conv.value lflag ap) ++
        (List.replicate (w - (digits conv.base (conv.value lflag ap).natAbs).length) flag.padc ++
        digits conv.base (conv.value lflag ap).natAbs) := by
  have hnoflag : ∀ x, ([conv.char] : List (BitVec 8)).head? = some x → ¬ IsDigit x := by
    intro x hx
    rw [List.head?_cons, Option.some.injEq] at hx
    subst hx
    cases conv <;> decide
  have hnodigit : ∀ x, (List.replicate lflag (0x6c : BitVec 8) ++ [conv.char]).head? = some x →
      ¬ IsDigit x := by
    cases lflag with
    | zero => exact hnoflag
    | succ k =>
      intro x hx
      rw [List.replicate_succ, List.cons_append, List.head?_cons, Option.some.injEq] at hx
      subst hx
      decide
  generalize hfmt : numFormat conv flag star w lflag = fmt
  generalize hargs : (if star then BitVec.ofNat 32 w :: ap else ap) = args
  have hpercent : fmtAt fmt 0 = 0x25 := by rw [← hfmt]; rfl
  -- the `%`, the flag, the width, the letters `l`
  have h₀ : Passes rd fmt 1 (fmtStart args) (.esc .init, ⟨1, args, [], [], none⟩) :=
    Passes.one rfl (fmtStep_percent hpercent)
  obtain ⟨n₁, hn₁, h₁⟩ := @flag_passes rd [0x25]
    (widthText star w ++ (List.replicate lflag 0x6c ++ [conv.char]))
    ⟨1, args, [], [], none⟩ flag rfl rfl
  obtain ⟨n₂, hn₂, h₂⟩ := @width_passes rd ([0x25] ++ flag.text)
    (List.replicate lflag 0x6c ++ [conv.char])
    ⟨[0x25].length + flag.text.length, args, [], [], none⟩ w star ap flag.padc hnodigit
      List.length_append.symm hargs.symm rfl
  have h₃ := @lflag_passes rd [conv.char] lflag ([0x25] ++ flag.text ++ widthText star w)
    ⟨flag.padc, widthWord star w, -1, 0, false⟩
    ⟨([0x25] ++ flag.text).length + (widthText star w).length, ap, [], [],
      none⟩ List.length_append.symm rfl
  have hsame₁ : [0x25] ++ flag.text ++
      (widthText star w ++ (List.replicate lflag 0x6c ++ [conv.char])) = fmt := by
    rw [← hfmt, numFormat]
    simp
  have hsame₂ : [0x25] ++ flag.text ++ widthText star w ++
      (List.replicate lflag 0x6c ++ [conv.char]) = fmt := by
    rw [← hfmt, numFormat]
    simp
  have hsame₃ : [0x25] ++ flag.text ++ widthText star w ++ List.replicate lflag 0x6c ++
      [conv.char] = fmt := by
    rw [← hfmt, numFormat]
    simp
  rw [hsame₁] at h₁
  rw [hsame₂] at h₂
  rw [hsame₃] at h₃
  have hlen : fmt.length = ([0x25] ++ flag.text ++ widthText star w).length + lflag + 1 := by
    rw [← hsame₃, List.length_append, List.length_append, List.length_replicate]
    rfl
  have hat : fmtAt fmt (([0x25] ++ flag.text ++ widthText star w).length + lflag) = conv.char := by
    have := fmtAt_append ([0x25] ++ flag.text ++ widthText star w ++ List.replicate lflag 0x6c)
      conv.char []
    rwa [hsame₃, List.length_append, List.length_replicate] at this
  obtain ⟨ap', h₄⟩ := @fmtStep_number rd ⟨flag.padc, widthWord star w, -1, 0 + lflag, false⟩
    ⟨([0x25] ++ flag.text ++ widthText star w).length + lflag, ap, [], [], none⟩ conv fmt hat
  have hall := ((h₀.trans h₁).trans (h₂.trans h₃)).trans (Passes.one rfl h₄)
  have hn : 1 + n₁ + (n₂ + lflag) + 1 < 2 * fmt.length + 2 := by
    rw [List.length_append, List.length_append, List.length_singleton] at hlen
    omega
  obtain ⟨g, hg⟩ := Nat.exists_eq_add_of_lt hn
  have hrun : vprintfmt rd fmt args = fmtRun rd fmt (2 * fmt.length + 2) (fmtStart args) := rfl
  rw [numText, hfmt, hargs, hrun, hall.run_le hn.le,
    show 2 * fmt.length + 2 - (1 + n₁ + (n₂ + lflag) + 1) = g + 1 by
      omega, fmtRun_done g (by rw [← hlen, fmtAt_length]),
    Nat.zero_add, printNum_eq, widthWord_toInt star hw (digits_length_pos _ _)]
  exact List.nil_append _

/-- The text is the field that is asked for. -/
def InField (rd : Word → Option (BitVec 8)) (conv : NumConv) (flag : PadFlag) (star : Bool)
    (w lflag : ℕ) (ap : List Word) : Prop :=
  (numText rd conv flag star w lflag ap).length =
    max w (numeral conv.base (conv.value lflag ap)).length ∧
    numText rd conv flag star w lflag ap = flag.field w conv.base (conv.value lflag ap)

/-- **A number is in its field exactly when** there is no padding, or neither a sign nor the flag
`-`. -/
theorem numText_field_iff (rd : Word → Option (BitVec 8)) (conv : NumConv) (flag : PadFlag)
    (star : Bool) (hw : w < 2 ^ 31)
    (lflag : ℕ) (ap : List Word) :
    InField rd conv flag star w lflag ap ↔
      w ≤ (digits conv.base (conv.value lflag ap).natAbs).length ∨
          (0 ≤ conv.value lflag ap ∧ flag ≠ .minus) := by
  rw [InField, numText_eq rd conv flag star hw]
  have hminus : ∀ x ∈ digits conv.base (conv.value lflag ap).natAbs, x ≠ chr '-' := by
    refine digits_forall (by cases conv <;> decide) (fun k hk => ?_) _
    have hk' : k < 16 := lt_of_lt_of_le hk (by cases conv <;> decide)
    clear hk
    revert hk' k
    decide
  have hpos := digits_length_pos conv.base (conv.value lflag ap).natAbs
  simp only [numeral, PadFlag.field]
  generalize conv.value lflag ap = v at hminus hpos
  generalize digits conv.base v.natAbs = ds at hminus hpos
  constructor
  · rintro ⟨hlen, heq⟩
    by_contra hnot
    rw [not_or, not_le, not_and, not_not] at hnot
    obtain ⟨hlt, hflag⟩ := hnot
    by_cases hv : 0 ≤ v
    · obtain ⟨d, ds, rfl⟩ := List.exists_cons_of_length_pos hpos
      obtain ⟨p, hp⟩ := Nat.exists_eq_add_of_lt hlt
      rw [hflag hv, sign, if_neg (not_lt.mpr hv),
        show w - (d :: ds).length = p + 1 by omega, List.replicate_succ] at heq
      have hhead : chr '-' = d := (List.cons.inj heq).1
      exact hminus d List.mem_cons_self hhead.symm
    · rw [sign, if_pos (not_le.mp hv)] at hlen
      simp at hlen
      omega
  · rintro (hle | ⟨hv, hflag⟩)
    · have hz : w - ds.length = 0 := by omega
      have hz' : w - (sign v ++ ds).length = 0 := by
        rw [List.length_append]
        omega
      rw [hz, hz', List.replicate_zero, List.nil_append]
      refine ⟨(max_eq_right (by rw [List.length_append]; omega)).symm, ?_⟩
      cases flag <;> simp
    · have hsign : sign v = [] := if_neg (not_lt.mpr hv)
      rw [hsign, List.nil_append, List.nil_append]
      refine ⟨by simp; omega, ?_⟩
      cases flag with
      | none => rfl
      | zero => rfl
      | minus => exact absurd rfl hflag

/-- `%5u` of 42. -/
theorem numText_field_u : InField (fun _ => none) .u .none false 5 0 [42] :=
  (numText_field_iff (fun _ => none) .u .none false (w := 5) (by decide) 0 [42]).mpr
    (.inr (by decide))

/-- `%5d` of -42 prints six characters, and `%-5d` of 42 prints `---42`. -/
theorem not_inField : numText (fun _ => none) .d .none false 5 0 [-42] = chars "-   42" ∧
    ¬ InField (fun _ => none) .d .none false 5 0 [-42] ∧
    numText (fun _ => none) .d .minus false 5 0 [42] = chars "---42" ∧
    ¬ InField (fun _ => none) .d .minus false 5 0 [42] := by
  refine ⟨by decide, fun h => ?_, by decide, fun h => ?_⟩
  · exact absurd h.1 (by decide)
  · exact absurd h.2 (by decide)

end JOS
