import JOS.Lib.Readline
import Mathlib.Data.List.Basic
import Mathlib.Data.List.Induction

/-!
# Editing a line

What `readline` has in its buffer is a list (`LineHeld`), and a character changes it as
`typed` says. That is what editing should do (`edited`) but for one key: on an empty line
DEL is not a key that erases, and so it is a character that is stored. The line then has a
stray DEL in front, up to the next key that erases it (`Front`); `readline_edits_iff` says
when the line that is returned is right.
-/

namespace JOS

variable {s s' : Readline} {l text code : List (BitVec 8)} {b : BitVec 8} {echoing : Bool}

/-! ### Lines -/

/-- Backspace and DEL. -/
def Erases (b : BitVec 8) : Prop := b = 0x08 ∨ b = 0x7f

/-- The keys that end a line. -/
def EndsLine (b : BitVec 8) : Prop := b = 0x0a ∨ b = 0x0d

instance (b : BitVec 8) : Decidable (Erases b) := inferInstanceAs (Decidable (_ ∨ _))
instance (b : BitVec 8) : Decidable (EndsLine b) := inferInstanceAs (Decidable (_ ∨ _))

/-- Editing, a character at a time. -/
def edited (text : List (BitVec 8)) (b : BitVec 8) : List (BitVec 8) :=
  if Erases b then text.dropLast
  else if 0x20 ≤ b.toNat ∧ text.length < BUFLEN - 1 then text ++ [b]
  else text

/-- Editing as `readline` does it. -/
def typed (text : List (BitVec 8)) (b : BitVec 8) : List (BitVec 8) :=
  if Erases b ∧ 0 < text.length then text.dropLast
  else if 0x20 ≤ b.toNat ∧ text.length < BUFLEN - 1 then text ++ [b]
  else text

/-- The only difference. -/
theorem typed_eq (text : List (BitVec 8)) (b : BitVec 8) :
    typed text b = if b = 0x7f ∧ text = [] then [b] else edited text b := by
  cases text with
  | nil =>
    by_cases hdel : b = 0x7f
    · subst hdel
      decide
    · rw [if_neg fun h => hdel h.1, typed, edited, if_neg (by simp)]
      by_cases hbs : b = 0x08
      · subst hbs
        decide
      · have hkey : ¬ Erases b := not_or.mpr ⟨hbs, hdel⟩
        rw [if_neg hkey]
  | cons a text =>
    rw [if_neg (by simp), typed, edited]
    simp

/-- A string at the beginning of `buf`. -/
structure IsCString (buf : ℕ → BitVec 8) (l : List (BitVec 8)) : Prop where
  chars : ∀ j (h : j < l.length), buf j = l[j]
  nul : buf l.length = 0
  noNul : 0 ∉ l

theorem IsCString.length_le {buf : ℕ → BitVec 8} {l' : List (BitVec 8)} (h : IsCString buf l)
    (h' : IsCString buf l') :
    l.length ≤ l'.length := by
  by_contra hlt
  have hzero := h.chars l'.length (Nat.lt_of_not_le hlt)
  rw [h'.nul] at hzero
  exact h.noNul (hzero ▸ List.getElem_mem _)

/-- The string in `buf` is determined. -/
theorem IsCString.unique {buf : ℕ → BitVec 8} {l' : List (BitVec 8)} (h : IsCString buf l)
    (h' : IsCString buf l') : l = l' := by
  refine List.ext_getElem (Nat.le_antisymm (h.length_le h') (h'.length_le h)) fun j hj hj' => ?_
  rw [← h.chars j hj, h'.chars j hj']

/-! ### The buffer -/

/-- `buf` holds `text`, and there is room for a NUL. -/
structure LineHeld (s : Readline) (text : List (BitVec 8)) : Prop where
  i_eq : s.i = text.length
  chars : ∀ j (h : j < text.length), s.buf j = text[j]
  noNul : 0 ∉ text
  le : text.length ≤ BUFLEN - 1
  indices : ∀ i ∈ s.indices, i ≤ BUFLEN - 1

/-- A pass begins. -/
theorem LineHeld.pass (h : LineHeld s text) :
    LineHeld { s with indices := s.indices ++ [s.i] } text := by
  refine ⟨h.i_eq, h.chars, h.noNul, h.le, fun i hi => ?_⟩
  rcases List.mem_append.mp hi with hi | hi
  · exact h.indices i hi
  · rw [List.mem_singleton.mp hi, h.i_eq]
    exact h.le

theorem LineHeld.echo (h : LineHeld s text) (echoing : Bool) (c : ℤ) :
    LineHeld (s.echo echoing c) text := by
  cases echoing <;> exact ⟨h.i_eq, h.chars, h.noNul, h.le, h.indices⟩

theorem LineHeld.erase (h : LineHeld s text) : LineHeld { s with i := s.i - 1 } text.dropLast := by
  refine ⟨by rw [List.length_dropLast,
    h.i_eq], fun j hj => ?_, fun hmem => h.noNul (List.dropLast_subset _ hmem), ?_, h.indices⟩
  · rw [List.getElem_dropLast]
    exact h.chars j _
  · rw [List.length_dropLast]
    exact Nat.le_trans (Nat.sub_le _ _) h.le

theorem LineHeld.append (h : LineHeld s text) (hb : b ≠ 0) (hlt : text.length < BUFLEN - 1) :
    LineHeld { s.store b.toNat with i := s.i + 1 } (text ++ [b]) := by
  refine ⟨by rw [List.length_append, h.i_eq]; rfl, fun j hj => ?_, fun hmem => ?_, ?_, h.indices⟩
  · change Function.update s.buf s.i (BitVec.ofInt 8 b.toNat) j = _
    rw [List.length_append, List.length_singleton] at hj
    rcases Nat.lt_or_eq_of_le (Nat.le_of_lt_succ hj) with hjl | rfl
    · rw [Function.update_of_ne (by rw [h.i_eq]; omega), h.chars j hjl,
        List.getElem_append_left hjl]
    · rw [h.i_eq, Function.update_self, List.getElem_concat_length rfl]
      simp
  · rcases List.mem_append.mp hmem with hmem | hmem
    · exact h.noNul hmem
    · exact hb (List.mem_singleton.mp hmem).symm
  · rw [List.length_append, List.length_singleton]
    omega

/-- The end of a line. -/
theorem LineHeld.finish (h : LineHeld s text) : IsCString (s.store 0).buf text := by
  refine ⟨fun j hj => ?_, ?_, h.noNul⟩
  · change Function.update s.buf s.i 0 j = _
    rw [Function.update_of_ne (by rw [h.i_eq]; omega), h.chars j hj]
  · change Function.update s.buf s.i 0 text.length = 0
    rw [h.i_eq, Function.update_self]

/-! ### The loop -/

/-- The tests of the loop, for a character. -/
theorem byte_tests (b : BitVec 8) : ¬ (b.toNat : ℤ) < 0 ∧
    (((b.toNat : ℤ) = 0x08 ∨ (b.toNat : ℤ) = 0x7f) ↔ Erases b) ∧
    ((b.toNat : ℤ) ≥ 0x20 ↔ 0x20 ≤ b.toNat) ∧
    (((b.toNat : ℤ) = 0x0a ∨ (b.toNat : ℤ) = 0x0d) ↔ EndsLine b) := by
  have heq : ∀ k : BitVec 8, (b.toNat : ℤ) = k.toNat ↔ b = k := fun k => by
    rw [Int.natCast_inj, BitVec.toNat_inj]
  exact ⟨by omega, or_congr (heq 0x08) (heq 0x7f), by omega, or_congr (heq 0x0a) (heq 0x0d)⟩

/-- **A character** that does not end the line. -/
theorem readlineLoop_char (echoing : Bool) (h : LineHeld s text) (hb : ¬ EndsLine b)
    (input : List ℤ) :
    ∃ s', readlineLoop echoing (b.toNat :: input) s = readlineLoop echoing input s' ∧
        LineHeld s' (typed text b) := by
  obtain ⟨hneg, herase, hprint, hend⟩ := byte_tests b
  have hpass := h.pass
  have hpos : s.i > 0 ↔ 0 < text.length := by rw [h.i_eq]
  have hroom : s.i < BUFLEN - 1 ↔ text.length < BUFLEN - 1 := by rw [h.i_eq]
  rw [readlineLoop, typed]
  simp only [herase, hprint, hend, hpos, hroom, if_neg hneg, if_neg hb]
  split_ifs with h₁ h₂
  · exact ⟨_, rfl, (hpass.echo echoing 0x08).erase⟩
  · have hnz : b ≠ 0 := by
      rintro rfl
      exact absurd h₂.1 (by decide)
    exact ⟨_, rfl, (hpass.echo echoing b.toNat).append hnz h₂.2⟩
  · exact ⟨_, rfl, hpass⟩

/-- **A key that ends the line.** -/
theorem readlineLoop_end (h : LineHeld s text) (hb : EndsLine b) (input : List ℤ) :
    ∃ s', readlineLoop echoing (b.toNat :: input) s = some (true, s', input) ∧
      IsCString s'.buf text ∧
      ∀ i ∈ s'.indices, i ≤ BUFLEN - 1 := by
  obtain ⟨hneg, herase, hprint, hend⟩ := byte_tests b
  have hkey : ¬ Erases b ∧ ¬ 0x20 ≤ b.toNat := by
    rcases hb with rfl | rfl <;> decide
  have hecho := h.pass.echo echoing 0x0a
  refine ⟨({ s with indices := s.indices ++ [s.i] }.echo echoing 0x0a).store 0, ?_, hecho.finish,
    hecho.indices⟩
  rw [readlineLoop, if_neg hneg, if_neg fun h => hkey.1 (herase.mp h.1), if_neg fun h =>
    hkey.2 (hprint.mp h.1),
    if_pos (hend.mpr hb)]

/-- What `getchar` answers for the characters of a list. -/
def keys (cs : List (BitVec 8)) : List ℤ := cs.map fun c => (c.toNat : ℤ)

/-- **The whole line.** -/
theorem readlineLoop_typed (echoing : Bool) (input : List ℤ) (hend : EndsLine b) :
    ∀ (cs text : List (BitVec 8)) (s : Readline), LineHeld s text →
    (∀ c ∈ cs, ¬ EndsLine c) → ∃ s', readlineLoop echoing (keys cs ++ (b.toNat : ℤ) :: input) s =
      some (true, s', input) ∧
      IsCString s'.buf (cs.foldl typed text) ∧ ∀ i ∈ s'.indices, i ≤ BUFLEN - 1 := by
  intro cs
  induction cs with
  | nil => exact fun text s h _ => readlineLoop_end h hend input
  | cons c cs ih =>
    intro text s h hcs
    obtain ⟨s₁, hs₁, h₁⟩ := readlineLoop_char echoing h (hcs c List.mem_cons_self)
      (keys cs ++ (b.toNat : ℤ) :: input)
    obtain ⟨s', hs', hres⟩ := ih (typed text c) s₁ h₁ fun c hc => hcs c (List.mem_cons_of_mem _ hc)
    exact ⟨s', hs₁.trans hs', hres⟩

/-! ### The stray DEL -/

/-- How the line that `readline` holds differs from the edited one. -/
inductive Front where
  /-- Not at all. -/
  | clean
  /-- There is a DEL in front. -/
  | stray
  /-- There is a DEL in front, and for want of room a character is missing at some place behind
  it. -/
  | shifted
  deriving DecidableEq

/-- The next character, when the edited line is `text`. -/
def Front.next (text : List (BitVec 8)) (b : BitVec 8) : Front → Front
  | clean => if b = 0x7f ∧ text = [] then stray else clean
  | stray =>
    if Erases b then if text = [] then clean else stray
    else if 0x20 ≤ b.toNat ∧ text.length = BUFLEN - 2 then shifted
    else stray
  | shifted => if Erases b ∧ text.length = 1 then clean else shifted

/-- After the characters of a list, typed on an empty line. -/
def front (cs : List (BitVec 8)) : Front :=
  (cs.foldl (fun q b => (edited q.1 b, q.2.next q.1 b)) (([] : List (BitVec 8)), Front.clean)).2

/-- The line that `readline` holds, and the edited one. -/
inductive Differ : Front → List (BitVec 8) → List (BitVec 8) → Prop where
  | clean {text : List (BitVec 8)} : 0x7f ∉ text → text.length ≤ BUFLEN - 1 →
    Differ .clean text text
  | stray {text : List (BitVec 8)} : 0x7f ∉ text → text.length ≤ BUFLEN - 2 →
    Differ .stray (0x7f :: text) text
  | shifted {t text : List (BitVec 8)} : 0x7f ∉ text → text.length ≤ BUFLEN - 1 →
      t.length + 1 = text.length →
      Differ .shifted (0x7f :: t) text

theorem edited_erase (hb : Erases b) : edited text b = text.dropLast := if_pos hb

theorem typed_erase (hb : Erases b) (hpos : 0 < text.length) : typed text b = text.dropLast :=
  if_pos ⟨hb, hpos⟩

theorem edited_other (hb : ¬ Erases b) : edited text b = if 0x20 ≤ b.toNat ∧
    text.length < BUFLEN - 1 then text ++ [b] else text :=
  if_neg hb

theorem typed_other (hb : ¬ Erases b) : typed text b = if 0x20 ≤ b.toNat ∧
    text.length < BUFLEN - 1 then text ++ [b] else text :=
  if_neg fun h => hb h.1

/-- The edited line has no DEL, and fits. -/
theorem edited_keeps (hdel : 0x7f ∉ text) (hle : text.length ≤ BUFLEN - 1) (b : BitVec 8) :
    0x7f ∉ edited text b ∧ (edited text b).length ≤ BUFLEN - 1 := by
  by_cases hb : Erases b
  · rw [edited_erase hb, List.length_dropLast]
    exact ⟨fun hmem => hdel (List.dropLast_subset _ hmem), Nat.le_trans (Nat.sub_le _ _) hle⟩
  · rw [edited_other hb]
    split_ifs with h
    · refine ⟨fun hmem => ?_, by rw [List.length_append, List.length_singleton]; omega⟩
      rcases List.mem_append.mp hmem with hmem | hmem
      · exact hdel hmem
      · exact hb (.inr (List.mem_singleton.mp hmem).symm)
    · exact ⟨hdel, hle⟩

/-- **A character** typed on both lines. -/
theorem Differ.next {f : Front} (h : Differ f code text) (b : BitVec 8) :
    Differ (f.next text b) (typed code b) (edited text b) := by
  cases h with
  | clean hdel hle =>
    obtain ⟨hdel', hle'⟩ := edited_keeps hdel hle b
    rw [Front.next, typed_eq]
    split_ifs with h
    · obtain ⟨rfl, rfl⟩ := h
      exact .stray List.not_mem_nil (Nat.zero_le _)
    · exact .clean hdel' hle'
  | stray hdel hle =>
    have hle₁ : text.length ≤ BUFLEN - 1 := Nat.le_trans hle (by decide)
    obtain ⟨hdel', hle'⟩ := edited_keeps hdel hle₁ b
    rw [Front.next]
    by_cases hb : Erases b
    · rw [if_pos hb, @typed_erase (0x7f :: text) b hb (Nat.succ_pos _)]
      rw [edited_erase hb] at hdel' hle' ⊢
      split_ifs with hnil
      · subst hnil
        exact .clean hdel' hle'
      · rw [List.dropLast_cons_of_ne_nil hnil]
        refine .stray hdel' ?_
        rw [List.length_dropLast]
        exact Nat.le_trans (Nat.sub_le _ _) hle
    · have hlen : (0x7f :: text).length = text.length + 1 := rfl
      rw [if_neg hb, typed_other hb, hlen]
      rw [edited_other hb] at hdel' hle' ⊢
      by_cases hfull : 0x20 ≤ b.toNat ∧ text.length = BUFLEN - 2
      · -- there is no room for the character behind the DEL
        have hlt : 0x20 ≤ b.toNat ∧ text.length < BUFLEN - 1 := ⟨hfull.1, by rw [hfull.2]; decide⟩
        rw [if_pos hlt] at hdel' hle' ⊢
        rw [if_pos hfull, if_neg (by rw [hfull.2, BUFLEN]; omega)]
        exact .shifted hdel' hle' (by rw [List.length_append]; rfl)
      · rw [if_neg hfull]
        by_cases hlt : 0x20 ≤ b.toNat ∧ text.length < BUFLEN - 1
        · have hroom : text.length + 1 < BUFLEN - 1 := by
            rw [BUFLEN] at hfull hle hlt ⊢
            omega
          rw [if_pos hlt] at hdel' ⊢
          rw [if_pos ⟨hlt.1, hroom⟩, List.cons_append]
          exact .stray hdel' (by rw [List.length_append, List.length_singleton]; omega)
        · rw [if_neg hlt, if_neg fun h => hlt ⟨h.1, Nat.lt_of_succ_lt h.2⟩]
          exact .stray hdel hle
  | @shifted t _ hdel hle hlen =>
    obtain ⟨hdel', hle'⟩ := edited_keeps hdel hle b
    rw [Front.next]
    by_cases hb : Erases b
    · rw [@typed_erase (0x7f :: t) b hb (Nat.succ_pos _)]
      rw [edited_erase hb] at hdel' hle' ⊢
      by_cases hone : text.length = 1
      · obtain rfl : t = [] := List.length_eq_zero_iff.mp (by omega)
        have hnil : text.dropLast = [] :=
          List.length_eq_zero_iff.mp (by rw [List.length_dropLast]; omega)
        rw [if_pos ⟨hb, hone⟩, hnil]
        exact .clean List.not_mem_nil (Nat.zero_le _)
      · have hne : t ≠ [] := fun hnil => hone (by rw [← hlen, hnil]; rfl)
        have hpos : 0 < t.length := List.length_pos_iff.mpr hne
        rw [if_neg fun h => hone h.2, List.dropLast_cons_of_ne_nil hne]
        exact .shifted hdel' hle' (by rw [List.length_dropLast, List.length_dropLast]; omega)
    · have hcode : (0x7f :: t).length = text.length := hlen
      rw [if_neg fun h => hb h.1, typed_other hb, hcode]
      rw [edited_other hb] at hdel' hle' ⊢
      split_ifs at hdel' hle' ⊢ with hlt
      · rw [List.cons_append]
        exact .shifted hdel' hle'
          (by rw [List.length_append, List.length_append]; exact congrArg (· + 1) hlen)
      · exact .shifted hdel hle hlen

/-- After the characters of a list. -/
theorem differ_front (cs : List (BitVec 8)) :
    Differ (front cs) (cs.foldl typed []) (cs.foldl edited []) := by
  have hfold : ∀ (cs : List (BitVec 8)) (f : Front) (code text : List (BitVec 8)),
      Differ f code text →
      Differ (cs.foldl (fun q b => (edited q.1 b, q.2.next q.1 b)) (text, f)).2
        (cs.foldl typed code) (cs.foldl edited text) := by
    intro cs
    induction cs with
    | nil => exact fun f code text h => h
    | cons b cs ih => exact fun f code text h => ih _ _ _ (h.next b)
  exact hfold cs _ _ _ (.clean List.not_mem_nil (Nat.zero_le _))

/-- The lines are the same when there is no DEL in front. -/
theorem Differ.eq_iff {f : Front} (h : Differ f code text) : code = text ↔ f = .clean := by
  cases h with
  | clean _ _ => exact iff_of_true rfl rfl
  | stray hdel _ =>
    refine iff_of_false (fun heq => hdel ?_) (fun h => nomatch h)
    exact heq ▸ List.mem_cons_self
  | shifted hdel _ _ =>
    refine iff_of_false (fun heq => hdel ?_) (fun h => nomatch h)
    exact heq ▸ List.mem_cons_self

/-! ### What `readline` returns -/

/-- `readline` returns the edited line, as a string, and has stayed in its buffer. -/
def ReadsEdited (prompt : Option (List (BitVec 8))) (echoing : Bool) (buf : ℕ → BitVec 8)
    (cs : List (BitVec 8)) (b : BitVec 8)
    (input : List ℤ) : Prop :=
  ∃ s, readline prompt echoing buf (keys cs ++ (b.toNat : ℤ) :: input) = some (true, s, input) ∧
    IsCString s.buf (cs.foldl edited []) ∧ ∀ i ∈ s.indices, i ≤ BUFLEN - 1

/-- **The line is edited as it should be** exactly when no stray DEL is left in front of it. -/
theorem readline_edits_iff (prompt : Option (List (BitVec 8))) (echoing : Bool) (buf : ℕ → BitVec 8)
    {cs : List (BitVec 8)}
    {b : BitVec 8} (input : List ℤ) (hcs : ∀ c ∈ cs, ¬ EndsLine c) (hb : EndsLine b) :
    ReadsEdited prompt echoing buf cs b input ↔ front cs = .clean := by
  obtain ⟨out, hout⟩ : ∃ out, readline prompt echoing buf = fun input =>
    readlineLoop echoing input ⟨buf, 0, out, []⟩ := ⟨_, rfl⟩
  have hstart : LineHeld ⟨buf, 0, out, []⟩ [] :=
    ⟨rfl, fun j hj => absurd hj (Nat.not_lt_zero j), List.not_mem_nil, Nat.zero_le _, fun i hi =>
      absurd hi List.not_mem_nil⟩
  obtain ⟨s, hs, hstring, hindices⟩ := readlineLoop_typed echoing input hb cs [] _ hstart hcs
  rw [← (differ_front cs).eq_iff, ReadsEdited, hout]
  constructor
  · rintro ⟨s', hs', hstring', -⟩
    cases hs.symm.trans hs'
    exact hstring.unique hstring'
  · intro heq
    exact ⟨s, hs, heq ▸ hstring, hindices⟩

/-- `"hi"`, with a DEL in between that takes back a wrong letter. -/
theorem readline_edits_hi : ReadsEdited none true (fun _ => 0) [0x68, 0x6f, 0x7f, 0x69] 0x0a [] :=
  (readline_edits_iff none true (fun _ => 0) [] (by decide) (by decide)).mpr (by decide)

/-- A DEL on an empty line is returned as the line. -/
theorem not_readline_edits : ¬ ReadsEdited none true (fun _ => 0) [0x7f] 0x0a [] := by
  rintro ⟨s, hs, hstring, -⟩
  cases hs
  exact absurd hstring.nul (by decide)

end JOS
