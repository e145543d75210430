import JOS.Lib.String
import JOS.Print.Numbers
import JOS.Print.Snprintf

/-!
# Numbers that are read back

`strtol` reads the digits of a number from the first on, in 32 bits
(`strtolLoop_digits`); what `vsnprintf` has written with `%d`, `%u`, `%x` or `%p` it reads
as the same 32 bits, and stops at the NUL (`strtol_vsnprintf`).
-/

namespace JOS

variable {rd : Word → Option (BitVec 8)} {mem : Word → BitVec 8} {p v : Word} {b m : ℕ}

/-- A NUL-terminated string in memory. -/
def StrAt (mem : Word → BitVec 8) (p : Word) : List (BitVec 8) → Prop
  | [] => mem p = 0
  | c :: cs => mem p = c ∧ StrAt mem (p + 1) cs

theorem add_one_ofNat (p : Word) (k : ℕ) : p + 1 + BitVec.ofNat 32 k = p + BitVec.ofNat 32
    (k + 1) := by
  rw [BitVec.ofNat_add, BitVec.add_assoc, BitVec.add_comm (1 : Word)]
  rfl

theorem strAt_of_bytesAt : ∀ (cs : List (BitVec 8)) (p : Word), bytesAt mem p cs.length = cs →
    mem (p + BitVec.ofNat 32 cs.length) = 0 → StrAt mem p cs := by
  intro cs
  induction cs with
  | nil =>
    intro p _ hnul
    rwa [List.length_nil, BitVec.ofNat_eq_ofNat, BitVec.add_zero] at hnul
  | cons c cs ih =>
    intro p hbytes hnul
    have hcons : bytesAt mem p (cs.length + 1) = mem p :: bytesAt mem (p + 1) cs.length := by
      rw [bytesAt, List.range_succ_eq_map, List.map_cons, List.map_map, bytesAt]
      congr 1
      · rw [BitVec.add_zero]
      · refine List.map_congr_left fun k _ => ?_
        rw [add_one_ofNat]
        rfl
    rw [List.length_cons, hcons] at hbytes
    obtain ⟨hc, hcs⟩ := List.cons.inj hbytes
    exact ⟨hc, ih (p + 1) hcs (by rwa [add_one_ofNat])⟩

/-! ### Digits -/

/-- The value that the loop has after more digits. -/
def strtolValue (base val : Word) (cs : List (BitVec 8)) : Word :=
  cs.foldl (fun v c => v * base + (strtolDigit c).getD 0) val

theorem strtolValue_append (base val : Word) (cs : List (BitVec 8)) (c : BitVec 8) :
    strtolValue base val (cs ++ [c]) = strtolValue base val cs * base + (strtolDigit c).getD 0 :=
      List.foldl_concat ..

/-- What `strtol` takes for a digit in this base. -/
def IsDigitOf (base : Word) (c : BitVec 8) : Prop := ∃ dig, strtolDigit c = some dig ∧
    dig.toInt < base.toInt

theorem strtolLoop_string (base : Word) : ∀ (cs : List (BitVec 8)) (f : ℕ) (p val : Word),
    StrAt mem p cs →
    (∀ c ∈ cs, IsDigitOf base c) →
    cs.length < f → strtolLoop mem base f p val = some (strtolValue base val cs,
      p + BitVec.ofNat 32 cs.length) := by
  intro cs
  induction cs with
  | nil =>
    intro f p val hstr _ hf
    obtain ⟨f, rfl⟩ := Nat.exists_eq_succ_of_ne_zero (Nat.ne_of_gt hf)
    have hnul : mem p = 0 := hstr
    have hnone : strtolDigit 0 = none := by decide
    rw [strtolLoop, hnul, hnone, List.length_nil, BitVec.ofNat_eq_ofNat, BitVec.add_zero]
    rfl
  | cons c cs ih =>
    intro f p val hstr hcs hf
    obtain ⟨f, rfl⟩ := Nat.exists_eq_succ_of_ne_zero (Nat.ne_of_gt (Nat.zero_lt_of_lt hf))
    obtain ⟨dig, hdig, hlt⟩ := hcs c List.mem_cons_self
    rw [strtolLoop, hstr.1, hdig]
    dsimp only
    rw [if_neg (not_le.mpr hlt),
      ih f (p + 1) _ hstr.2 (fun x hx => hcs x (List.mem_cons_of_mem _ hx))
      (by rw [List.length_cons] at hf; omega), add_one_ofNat, strtolValue, strtolValue,
      List.foldl_cons, hdig]
    rfl

/-- A digit that `printnum` prints. -/
theorem strtolDigit_digitChar {k : ℕ} (hk : k < 16) :
    strtolDigit ((chr k.digitChar).setWidth 8) = some (BitVec.ofNat 32 k) ∧
    (BitVec.ofNat 32 k).toInt = k := by
  revert hk k
  decide

theorem toInt_base (hb : b ≤ 16) : (BitVec.ofNat 32 b).toInt = b := by
  rw [BitVec.toInt_eq_toNat_of_lt (by rw [BitVec.toNat_ofNat]; omega), BitVec.toNat_ofNat]
  omega

theorem isDigitOf_digits (hb : 1 < b) (hb' : b ≤ 16) (m : ℕ) : ∀ c ∈ lowBytes (digits b m),
    IsDigitOf (BitVec.ofNat 32 b) c := by
  intro c hc
  obtain ⟨x, hx, rfl⟩ := List.mem_map.mp hc
  refine digits_forall (P := fun x => IsDigitOf (BitVec.ofNat 32 b) (x.setWidth 8)) hb
    (fun k hk => ?_) m x hx
  obtain ⟨hdig, hint⟩ := strtolDigit_digitChar (lt_of_lt_of_le hk hb')
  exact ⟨_, hdig, by rw [hint, toInt_base hb']; omega⟩

/-- The digits of a number have its value, in 32 bits. -/
theorem strtolValue_digits (hb : 1 < b) (hb' : b ≤ 16) (m : ℕ) :
    strtolValue (BitVec.ofNat 32 b) 0 (lowBytes (digits b m)) = BitVec.ofNat 32 m := by
  induction m using Nat.strong_induction_on with
  | _ m ih =>
    by_cases hle : b ≤ m
    · obtain ⟨hdig, -⟩ := strtolDigit_digitChar (lt_of_lt_of_le (Nat.mod_lt m (by omega)) hb')
      have hrec := ih (m / b) (Nat.div_lt_self (by omega) hb)
      rw [digits_of_le hb hle, lowBytes, List.map_append, ← lowBytes, List.map_singleton,
        strtolValue_append, hrec, hdig,
        Option.getD_some, ← BitVec.ofNat_mul, ← BitVec.ofNat_add, Nat.div_add_mod']
    · obtain ⟨hdig, -⟩ := strtolDigit_digitChar (lt_of_lt_of_le (not_le.mp hle) hb')
      rw [digits_of_lt (not_le.mp hle)]
      simp only [lowBytes, List.map_cons, List.map_nil, strtolValue, List.foldl_cons,
        List.foldl_nil, hdig, Option.getD_some]
      simp

/-- **The loop reads a number** that `printnum` has printed. -/
theorem strtolLoop_digits (hb : 1 < b) (hb' : b ≤ 16) (hstr : StrAt mem p (lowBytes (digits b m)))
    (hlen : (digits b m).length < 2 ^ 32) :
    strtolLoop mem (BitVec.ofNat 32 b) (2 ^ 32) p 0 =
        some (BitVec.ofNat 32 m, p + BitVec.ofNat 32 (digits b m).length) := by
  have hlow : (lowBytes (digits b m)).length = (digits b m).length := List.length_map _
  rw [strtolLoop_string _ _ _ p 0 hstr (isDigitOf_digits hb hb' m) (by rwa [hlow]),
    strtolValue_digits hb hb', hlow]

/-! ### Blanks, sign and prefix -/

theorem skipBlanks_self (hblank : mem p ≠ 0x20 ∧ mem p ≠ 0x09) :
    skipBlanks mem (2 ^ 32) p = some p := by
  rw [show 2 ^ 32 = 2 ^ 32 - 1 + 1 by decide, skipBlanks, if_neg (not_or.mpr hblank)]

/-- A digit is neither a blank nor a sign. -/
theorem IsDigitOf.ne {base : Word} {c : BitVec 8} (h : IsDigitOf base c) : c ≠ 0x20 ∧ c ≠ 0x09 ∧
    c ≠ 0x2b ∧ c ≠ 0x2d := by
  obtain ⟨dig, hdig, -⟩ := h
  have hsome : strtolDigit c ≠ none := by
    rw [hdig]
    exact Option.some_ne_none dig
  clear hdig
  revert hsome c
  decide

/-- The `x` of the prefix is no digit. -/
theorem IsDigitOf.ne_x {c : BitVec 8} (hb : b ≤ 16) (h : IsDigitOf (BitVec.ofNat 32 b) c) :
    c ≠ 0x78 := by
  rintro rfl
  obtain ⟨dig, hdig, hlt⟩ := h
  have hx : strtolDigit 0x78 = some 33 := by decide
  rw [hx, Option.some.injEq] at hdig
  have h33 : (33 : Word).toInt = 33 := by decide
  rw [← hdig, toInt_base hb, h33] at hlt
  omega

/-- A number without a sign, in a given base. -/
theorem strtol_digits (hb : b = 10 ∨ b = 16) (hstr : StrAt mem p (lowBytes (digits b m)))
    (hlen : (digits b m).length < 2 ^ 32) :
    strtol mem p (BitVec.ofNat 32 b) = some (BitVec.ofNat 32 m,
        p + BitVec.ofNat 32 (digits b m).length) := by
  have hle : 1 < b ∧ b ≤ 16 := by omega
  have hloop := strtolLoop_digits hle.1 hle.2 hstr hlen
  have hdigits := isDigitOf_digits hle.1 hle.2 m
  obtain ⟨d, ds, hds⟩ := List.exists_cons_of_length_pos (digits_length_pos b m)
  rw [hds] at hstr hdigits
  obtain ⟨hat, hrest⟩ : mem p = d.setWidth 8 ∧ StrAt mem (p + 1) (lowBytes ds) := hstr
  have hfirst : IsDigitOf (BitVec.ofNat 32 b) (mem p) := hat ▸ hdigits _ List.mem_cons_self
  obtain ⟨h₁, h₂, h₃, h₄⟩ := hfirst.ne
  -- after a first digit there is no `x`
  have hx : mem (p + 1) ≠ 0x78 := by
    cases ds with
    | nil =>
      have hnul : mem (p + 1) = 0 := hrest
      rw [hnul]
      decide
    | cons d' ds =>
      have hat' : mem (p + 1) = d'.setWidth 8 := hrest.1
      rw [hat']
      exact (hdigits _ (List.mem_cons_of_mem _ List.mem_cons_self)).ne_x hle.2
  have hbase : ¬ BitVec.ofNat 32 b = 0 := by rcases hb with rfl | rfl <;> decide
  rw [strtol, skipBlanks_self ⟨h₁, h₂⟩]
  simp only [Option.bind_eq_bind, Option.bind_some, if_neg h₃, if_neg h₄, hx, and_false, if_false,
    hbase, false_and, hloop]
  rfl

/-- A negative number. -/
theorem strtol_minus (hstr : StrAt mem p (0x2d :: lowBytes (digits 10 m)))
    (hlen : (digits 10 m).length < 2 ^ 32) :
    strtol mem p 10 = some (-BitVec.ofNat 32 m, p + 1 + BitVec.ofNat 32 (digits 10 m).length) := by
  obtain ⟨hat, hrest⟩ := hstr
  have hloop := strtolLoop_digits (by decide) (by decide) hrest hlen
  have hblank : mem p ≠ 0x20 ∧ mem p ≠ 0x09 := by
    rw [hat]
    decide
  have hplus : ¬ mem p = 0x2b := by
    rw [hat]
    decide
  have hbase : ¬ (10 : Word) = 0 ∧ ¬ (10 : Word) = 16 := by decide
  rw [strtol, skipBlanks_self hblank]
  simp only [Option.bind_eq_bind, Option.bind_some, if_neg hplus, if_pos hat, hbase, or_self,
    false_and, if_false]
  rw [show (10 : Word) = BitVec.ofNat 32 10 from rfl, hloop]
  rfl

/-- A number with the prefix `0x`, in the base 0. -/
theorem strtol_prefix (hstr : StrAt mem p (0x30 :: 0x78 :: lowBytes (digits 16 m)))
    (hlen : (digits 16 m).length < 2 ^ 32) :
    strtol mem p 0 = some (BitVec.ofNat 32 m, p + 2 + BitVec.ofNat 32 (digits 16 m).length) := by
  obtain ⟨hat, hx, hrest⟩ := hstr
  have htwo : p + 1 + 1 = p + 2 := by
    rw [BitVec.add_assoc]
    rfl
  have hloop := strtolLoop_digits (by decide) (by decide) (htwo ▸ hrest) hlen
  have hblank : mem p ≠ 0x20 ∧ mem p ≠ 0x09 := by
    rw [hat]
    decide
  have hplus : ¬ mem p = 0x2b ∧ ¬ mem p = 0x2d := by
    rw [hat]
    decide
  rw [strtol, skipBlanks_self hblank]
  simp only [Option.bind_eq_bind, Option.bind_some, if_neg hplus.1, if_neg hplus.2]
  simp only [hat, hx, true_or, and_self, if_true]
  rw [show (16 : Word) = BitVec.ofNat 32 16 from rfl, hloop]
  rfl

/-! ### The round trip -/

/-- After `snprintf(buf, n, fmt, v)`, `strtol(buf, &end, base)` returns `v`, and `end` is the
terminating NUL. -/
def ReadsBack (rd : Word → Option (BitVec 8)) (mem : Word → BitVec 8) (buf n : Word)
    (fmt : List (BitVec 8)) (base v : Word) : Prop :=
  ∃ r mem', vsnprintf rd mem buf n fmt [v] = .ok (r, mem') ∧
    strtol mem' buf base = some (v, buf + r) ∧ mem' (buf + r) = 0

/-- What `vsnprintf` has written, when all of it fits. -/
theorem vsnprintf_strAt {buf n : Word} {fmt : List (BitVec 8)} {ap : List Word} (hbuf : buf ≠ 0)
    (hn : 1 ≤ n.toInt)
    (hfit : buf.toNat + n.toNat ≤ 2 ^ 32) (hhalt : (vprintfmt rd fmt ap).halt = none)
    (hlen : (vprintfmt rd fmt ap).out.length < n.toNat) :
    ∃ mem', vsnprintf rd mem buf n fmt ap = .ok
      (BitVec.ofNat 32 (vprintfmt rd fmt ap).out.length, mem') ∧
      StrAt mem' buf (lowBytes (vprintfmt rd fmt ap).out) ∧
      mem' (buf + BitVec.ofNat 32 (vprintfmt rd fmt ap).out.length) = 0 := by
  obtain ⟨r, mem', hcall, htrunc⟩ := @vsnprintf_ok rd mem buf n fmt ap hbuf hn hfit hhalt
  have hmin : min (vprintfmt rd fmt ap).out.length (n.toNat - 1) =
    (vprintfmt rd fmt ap).out.length := by omega
  have hlow : (lowBytes (vprintfmt rd fmt ap).out).length = (vprintfmt rd fmt ap).out.length :=
    List.length_map _
  have hwritten := htrunc.written
  have hnul := htrunc.nul
  rw [hmin, List.take_of_length_le (by omega), ← hlow] at hwritten
  rw [hmin] at hnul
  exact ⟨mem', by rw [hcall, htrunc.ret], strAt_of_bytesAt _ _ hwritten (by rwa [hlow]), hnul⟩

/-- A format without a `%s`. -/
theorem vprintfmt_halt_none {fmt : List (BitVec 8)} (ap : List Word) (hnul : ∀ x ∈ fmt, x ≠ 0)
    (hs : 0x73 ∉ fmt) :
    (vprintfmt rd fmt ap).halt = none := (vprintfmt_text hnul (stringArgs_of_not_mem hs _)).1

/-- `%d`, `%u` and `%x` of a word. -/
theorem vprintfmt_number (conv : NumConv) (v : Word) : (vprintfmt rd [0x25, conv.char] [v]).out =
    sign (conv.value 0 [v]) ++ digits conv.base (conv.value 0 [v]).natAbs := by
  have h := numText_eq rd conv .none false (w := 0) (by decide) 0 [v]
  rw [Nat.zero_sub, List.replicate_zero, List.nil_append] at h
  exact h

theorem vprintfmt_pointer (v : Word) : (vprintfmt rd (bytes "%p") [v]).out = chars "0x" ++
    digits 16 v.toNat := by
  have hfmt : bytes "%p" = [0x25, 0x70] := by decide
  have h₀ : fmtStep rd [0x25, 0x70] (.text, ⟨0, [v], [], [], none⟩) =
    some (.esc .init, ⟨1, [v], [], [], none⟩) := rfl
  have h₁ : fmtStep rd [0x25, 0x70] (.esc .init, ⟨1, [v], [], [], none⟩) =
      some (.text, ⟨2, [], chars "0x" ++ printnum 16 (chr ' ') 64 v.toNat (-1), [], none⟩) := rfl
  have hlt : v.toNat < 16 ^ 64 := lt_of_lt_of_le v.isLt (by decide)
  rw [vprintfmt, hfmt, show 2 * [0x25, (0x70 : BitVec 8)].length + 2 = 4 + 2 from rfl,
    fmtRun_succ _ rfl h₀, fmtRun_succ _ rfl h₁,
    fmtRun_done _ rfl, printnum_eq (by decide) (by decide) _ _ _ _ (by decide) hlt]
  have hpad : (-1 - ((digits 16 v.toNat).length : ℤ)).toNat = 0 := by omega
  rw [hpad]
  rfl

/-- The sign and the digits of a word give the word. -/
theorem ofNat_natAbs_toInt (v : Word) :
    (0 ≤ v.toInt → BitVec.ofNat 32 v.toInt.natAbs = v) ∧
        (v.toInt < 0 → -BitVec.ofNat 32 v.toInt.natAbs = v) := by
  have hlt := v.isLt
  have hint := BitVec.toInt_eq_toNat_cond v
  constructor
  · intro hv
    split_ifs at hint
    · rw [hint, Int.natAbs_natCast, BitVec.ofNat_toNat, BitVec.setWidth_eq]
    · omega
  · intro hv
    split_ifs at hint
    · omega
    · refine BitVec.eq_of_toNat_eq ?_
      rw [BitVec.toNat_neg, BitVec.toNat_ofNat]
      omega

/-- The round trip from what `strtol` makes of the text. -/
theorem readsBack_of {buf n : Word} {fmt : List (BitVec 8)} {base : Word} (hbuf : buf ≠ 0)
    (hn : 1 ≤ n.toInt)
    (hfit : buf.toNat + n.toNat ≤ 2 ^ 32) (hnul : ∀ x ∈ fmt, x ≠ 0) (hs : 0x73 ∉ fmt)
    (hlen : (vprintfmt rd fmt [v]).out.length < n.toNat)
    (hread : ∀ mem', StrAt mem' buf (lowBytes (vprintfmt rd fmt [v]).out) →
      strtol mem' buf base = some (v, buf + BitVec.ofNat 32 (vprintfmt rd fmt [v]).out.length)) :
        ReadsBack rd mem buf n fmt base v := by
  obtain ⟨mem', hcall, hstr, hend⟩ :=
    @vsnprintf_strAt rd mem buf n fmt [v] hbuf hn hfit (vprintfmt_halt_none [v] hnul hs) hlen
  exact ⟨_, mem', hcall, hread mem' hstr, hend⟩

/-- **`strtol` reads back what `vsnprintf` writes** in a buffer that is large enough. -/
theorem strtol_vsnprintf (rd : Word → Option (BitVec 8)) (mem : Word → BitVec 8) {buf n : Word}
    (v : Word) (hbuf : buf ≠ 0)
    (hn : 1 ≤ n.toInt) (hfit : buf.toNat + n.toNat ≤ 2 ^ 32) :
    ∀ q ∈ [(bytes "%d", (10 : Word)), (bytes "%u", 10), (bytes "%x", 16), (bytes "%p", 0)],
      (vprintfmt rd q.1 [v]).out.length < n.toNat → ReadsBack rd mem buf n q.1 q.2 v := by
  have hv : BitVec.ofNat 32 v.toNat = v := by rw [BitVec.ofNat_toNat, BitVec.setWidth_eq]
  have hn' : n.toNat < 2 ^ 32 := n.isLt
  intro q hq hlen
  simp only [List.mem_cons, List.not_mem_nil, or_false] at hq
  rcases hq with rfl | rfl | rfl | rfl
  · have hout : (vprintfmt rd (bytes "%d") [v]).out = sign v.toInt ++ digits 10 v.toInt.natAbs :=
      vprintfmt_number .d v
    refine readsBack_of hbuf hn hfit (by decide) (by decide) hlen fun mem' hstr => ?_
    rw [hout] at hlen hstr ⊢
    by_cases hneg : v.toInt < 0
    · rw [sign, if_pos hneg, List.singleton_append] at hlen hstr ⊢
      rw [List.length_cons] at hlen
      have hread := strtol_minus hstr (by omega)
      rw [(ofNat_natAbs_toInt v).2 hneg, add_one_ofNat] at hread
      exact hread
    · rw [sign, if_neg hneg, List.nil_append] at hlen hstr ⊢
      have hread := strtol_digits (.inl rfl) hstr (by omega)
      rwa [(ofNat_natAbs_toInt v).1 (not_lt.mp hneg)] at hread
  · have hout : (vprintfmt rd (bytes "%u") [v]).out = digits 10 v.toNat := vprintfmt_number .u v
    refine readsBack_of hbuf hn hfit (by decide) (by decide) hlen fun mem' hstr => ?_
    rw [hout] at hlen hstr ⊢
    have hread := strtol_digits (.inl rfl) hstr (by omega)
    rwa [hv] at hread
  · have hout : (vprintfmt rd (bytes "%x") [v]).out = digits 16 v.toNat := vprintfmt_number .x v
    refine readsBack_of hbuf hn hfit (by decide) (by decide) hlen fun mem' hstr => ?_
    rw [hout] at hlen hstr ⊢
    have hread := strtol_digits (.inr rfl) hstr (by omega)
    rwa [hv] at hread
  · refine readsBack_of hbuf hn hfit (by decide) (by decide) hlen fun mem' hstr => ?_
    rw [vprintfmt_pointer] at hlen hstr ⊢
    rw [List.length_append] at hlen
    have hread := strtol_prefix hstr (by omega)
    rw [hv, show (2 : Word) = 1 + 1 from rfl, ← BitVec.add_assoc, add_one_ofNat,
      add_one_ofNat] at hread
    exact hread

/-- The least integer, in hexadecimal and in decimal. -/
theorem strtol_vsnprintf_min : ReadsBack (fun _ => none) (fun _ => 1) 0x1000 12
    (bytes "%d") 10 0x80000000 ∧
    ReadsBack (fun _ => none) (fun _ => 1) 0x1000 12 (bytes "%p") 0 0x80000000 := by
  have h := @strtol_vsnprintf (fun _ => none) (fun _ => 1) 0x1000 12 0x80000000 (by decide)
    (by decide) (by decide)
  exact ⟨h (bytes "%d", 10) (by decide) (by decide), h (bytes "%p", 0) (by decide) (by decide)⟩

end JOS
