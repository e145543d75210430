import JOS.General.Tokens
import JOS.Kern.Monitor

/-!
# The command line

`runcmd` goes over the line once. Up to where it is, whitespace has been overwritten with
NULs (`blanked`), and what lies ahead is as it was; so the loops find the tokens of the
line in the order of `tokens`, `gobble` between two of them (`gobble_spec`) and `scanArg`
inside one (`scanArg_spec`). `argv` has room for `MAXARGS - 1` of them and a null pointer.
-/

namespace JOS

open JOS.General

variable {mem : Word → BitVec 8} {buf : Word} {text t : List (BitVec 8)} {st : Cmd} {i j k f : ℕ}
  {c : BitVec 8}

/-- A character of `WHITESPACE`. -/
def isWhite (c : BitVec 8) : Bool := (strchr WHITESPACE c).isSome

/-- The NUL-terminated string `text` is at `buf`. -/
structure LineAt (mem : Word → BitVec 8) (buf : Word) (text : List (BitVec 8)) : Prop where
  fits : buf.toNat + text.length < 2 ^ 32
  chars : ∀ k c, text[k]? = some c → mem (buf + BitVec.ofNat 32 k) = c
  nul : mem (buf + BitVec.ofNat 32 text.length) = 0
  noNul : 0 ∉ text

/-! ### The buffer -/

/-- The buffer with the whitespace of its first `k` places overwritten. -/
def blanked (mem : Word → BitVec 8) (buf : Word) (text : List (BitVec 8)) (k : ℕ)
    (a : Word) : BitVec 8 :=
  if (a - buf).toNat < k ∧ (text[(a - buf).toNat]?).any isWhite then 0 else mem a

theorem blanked_zero (mem : Word → BitVec 8) (buf : Word) (text : List (BitVec 8)) :
    blanked mem buf text 0 = mem :=
  funext fun _ => if_neg fun h => Nat.not_lt_zero _ h.1

namespace LineAt

theorem lt_pow (h : LineAt mem buf text) (hk : k ≤ text.length) : k < 2 ^ 32 := by
  have := h.fits
  omega

/-- A place of the buffer, the NUL included. -/
theorem blanked_place (h : LineAt mem buf text) (hj : j ≤ text.length) :
    blanked mem buf text k (buf + BitVec.ofNat 32 j) =
    if j < k ∧ (text[j]?).any isWhite then 0 else mem (buf + BitVec.ofNat 32 j) := by
  rw [blanked, offset_toNat buf (h.lt_pow hj)]

/-- What is ahead is as it was. -/
theorem blanked_ahead (h : LineAt mem buf text) (hk : k ≤ text.length) :
    blanked mem buf text k (buf + BitVec.ofNat 32 k) = mem (buf + BitVec.ofNat 32 k) := by
  rw [h.blanked_place hk, if_neg fun hlt => lt_irrefl _ hlt.1]

theorem ne_nul (h : LineAt mem buf text) (hc : text[k]? = some c) : c ≠ 0 := by
  rintro rfl
  exact h.noNul (List.mem_of_getElem? hc)

/-- A character that is not whitespace stays. -/
theorem blanked_succ_of_not_white (hc : text[k]? = some c) (hw : isWhite c = false) :
    blanked mem buf text (k + 1) = blanked mem buf text k := by
  funext a
  rw [blanked, blanked]
  by_cases hk : (a - buf).toNat = k
  · rw [hk, hc, Option.any_some, hw, if_neg fun h => Bool.false_ne_true h.2, if_neg fun h =>
      Bool.false_ne_true h.2]
  · have hiff : (a - buf).toNat < k + 1 ↔ (a - buf).toNat < k := by omega
    simp only [hiff]

/-- Overwriting a whitespace character. -/
theorem update_blanked (hc : text[k]? = some c) (hw : isWhite c = true) (hk : k < 2 ^ 32) :
    Function.update (blanked mem buf text k) (buf + BitVec.ofNat 32 k) 0 = blanked mem buf text
        (k + 1) := by
  funext a
  by_cases ha : a = buf + BitVec.ofNat 32 k
  · subst ha
    rw [Function.update_self, blanked, offset_toNat buf hk, hc, Option.any_some,
      if_pos ⟨Nat.lt_succ_self k, hw⟩]
  · have hne : (a - buf).toNat ≠ k := fun heq => ha (by rw [← heq, offset_sub])
    rw [Function.update_of_ne ha, blanked, blanked]
    have hiff : (a - buf).toNat < k + 1 ↔ (a - buf).toNat < k := by omega
    simp only [hiff]

end LineAt

/-! ### The inner loops -/

theorem drop_cons (hk : text.drop k = c :: t) : text[k]? = some c ∧ text.drop (k + 1) = t ∧
    k < text.length := by
  have hc : text[k]? = some c := by
    rw [← List.head?_drop, hk, List.head?_cons]
  refine ⟨hc, ?_, (List.getElem?_eq_some_iff.mp hc).1⟩
  rw [← List.tail_drop, hk, List.tail_cons]

/-- **Between two tokens.** -/
theorem gobble_spec (h : LineAt mem buf text) : ∀ (t : List (BitVec 8)) (k f : ℕ) (st : Cmd),
    text.drop k = t → k ≤ text.length →
    text.length - k < f → st.mem = blanked mem buf text k → ∃ k' st',
      gobble f st (buf + BitVec.ofNat 32 k) = some (st', buf + BitVec.ofNat 32 k') ∧
      k' ≤ text.length ∧ st' = { st with mem := blanked mem buf text k', written := st'.written } ∧
      (∃ l, st'.written = st.written ++ l ∧ ∀ a ∈ l, ∃ j < text.length,
        a = buf + BitVec.ofNat 32 j) ∧
      tokens isWhite none k t = tokens isWhite none k' (text.drop k') ∧ ∀ c, text[k']? = some c →
      isWhite c = false := by
  intro t
  induction t with
  | nil =>
    intro k f st ht hk hf hmem
    have hlen : k = text.length := le_antisymm hk (List.drop_eq_nil_iff.mp ht)
    obtain ⟨f, rfl⟩ : ∃ g, f = g + 1 := ⟨f - 1, by omega⟩
    refine ⟨k, st, ?_, hk, by rw [← hmem], ⟨[], by simp⟩, by rw [ht], fun c hc => ?_⟩
    · rw [gobble, if_neg]
      rw [hmem, h.blanked_ahead hk, hlen, h.nul]
      exact fun hne => hne.1 rfl
    · rw [hlen, List.getElem?_eq_none (le_refl _)] at hc
      cases hc
  | cons c t ih =>
    intro k f st ht hk hf hmem
    obtain ⟨hc, ht', hlt⟩ := drop_cons ht
    obtain ⟨f, rfl⟩ : ∃ g, f = g + 1 := ⟨f - 1, by omega⟩
    have hread : st.mem (buf + BitVec.ofNat 32 k) = c := by
      rw [hmem, h.blanked_ahead hk, h.chars k c hc]
    rw [gobble, hread]
    by_cases hw : isWhite c = true
    · rw [if_pos ⟨h.ne_nul hc, hw⟩, offset_succ]
      obtain ⟨k', st', hgo, hk', hst', ⟨l, hl, hin⟩, htok, hend⟩ := ih (k + 1) f
        { st with
          mem := Function.update st.mem (buf + BitVec.ofNat 32 k) 0
          written := st.written ++ [buf + BitVec.ofNat 32 k] }
        ht' hlt (by omega) (by rw [hmem]; exact LineAt.update_blanked hc hw (h.lt_pow hk))
      refine ⟨k', st', hgo, hk', hst',
        ⟨[buf + BitVec.ofNat 32 k] ++ l, by rw [hl, List.append_assoc], fun a ha => ?_⟩, ?_, hend⟩
      · rcases List.mem_append.mp ha with ha | ha
        · exact ⟨k, hlt, List.mem_singleton.mp ha⟩
        · exact hin a ha
      · rw [tokens, if_pos hw, htok]
    · rw [if_neg fun hcond => hw hcond.2]
      refine ⟨k, st, rfl, hk, by rw [← hmem], ⟨[], by simp⟩, by rw [ht], fun c' hc' => ?_⟩
      obtain rfl : c' = c := Option.some.inj (hc'.symm.trans hc)
      simpa using hw

/-- **Inside a token**, which begins at `i`. -/
theorem scanArg_spec (h : LineAt mem buf text) (i : ℕ) : ∀ (t : List (BitVec 8)) (k f : ℕ),
    text.drop k = t → k ≤ text.length →
    text.length - k < f → ∃ k', scanArg (blanked mem buf text k) f (buf + BitVec.ofNat 32 k) =
      some (buf + BitVec.ofNat 32 k') ∧
      k' ≤ text.length ∧ blanked mem buf text k' = blanked mem buf text k ∧
      tokens isWhite (some i) k t = (i, k') :: tokens isWhite none k' (text.drop k') := by
  intro t
  induction t with
  | nil =>
    intro k f ht hk hf
    have hlen : k = text.length := le_antisymm hk (List.drop_eq_nil_iff.mp ht)
    obtain ⟨f, rfl⟩ : ∃ g, f = g + 1 := ⟨f - 1, by omega⟩
    refine ⟨k, ?_, hk, rfl, by rw [ht]; rfl⟩
    rw [scanArg, if_neg]
    rw [h.blanked_ahead hk, hlen, h.nul]
    exact fun hne => hne.1 rfl
  | cons c t ih =>
    intro k f ht hk hf
    obtain ⟨hc, ht', hlt⟩ := drop_cons ht
    obtain ⟨f, rfl⟩ : ∃ g, f = g + 1 := ⟨f - 1, by omega⟩
    have hread : blanked mem buf text k (buf + BitVec.ofNat 32 k) = c := by
      rw [h.blanked_ahead hk, h.chars k c hc]
    rw [scanArg, hread]
    by_cases hw : isWhite c = true
    · rw [if_neg fun hcond => hcond.2 hw]
      exact ⟨k, rfl, hk, rfl, by rw [ht, tokens, if_pos hw, tokens, if_pos hw]⟩
    · have hw' : isWhite c = false := by simpa using hw
      obtain ⟨k', hgo, hk', hmem, htok⟩ := ih (k + 1) f ht' hlt (by omega)
      rw [LineAt.blanked_succ_of_not_white hc hw'] at hgo hmem
      rw [if_pos ⟨h.ne_nul hc, hw⟩, offset_succ]
      exact ⟨k', hgo, hk', hmem, by rw [tokens, if_neg hw, htok]⟩

/-! ### The parsing loop -/

/-- What holds when the tokens of `d` have been found and the loop is at place `k`. -/
structure Parsing (mem : Word → BitVec 8) (buf : Word) (text : List (BitVec 8)) (d : List (ℕ × ℕ))
    (k : ℕ) (st : Cmd) : Prop where
  le : k ≤ text.length
  mem_eq : st.mem = blanked mem buf text k
  found : tokens isWhite none 0 text = d ++ tokens isWhite none k (text.drop k)
  argc : st.argc = d.length
  argv : ∀ i (h : i < d.length), st.argv i = buf + BitVec.ofNat 32 d[i].1
  written : ∀ a ∈ st.written, ∃ j < text.length, a = buf + BitVec.ofNat 32 j
  argvWritten : ∀ i ∈ st.argvWritten, i < MAXARGS

/-- What the loop leaves: everything that has been parsed, or an argument too many. -/
structure Parsed (mem : Word → BitVec 8) (buf : Word) (text : List (BitVec 8)) (ok : Bool)
    (st : Cmd) : Prop where
  done : ok = true → Parsing mem buf text (tokens isWhite none 0 text) text.length st ∧
    st.argv st.argc = 0 ∧ st.argc < MAXARGS
  tooMany : ok = false → MAXARGS ≤ (tokens isWhite none 0 text).length
  written : ∀ a ∈ st.written, ∃ j < text.length, a = buf + BitVec.ofNat 32 j
  argvWritten : ∀ i ∈ st.argvWritten, i < MAXARGS

/-- Whitespace is passed over. -/
theorem Parsing.gobble {d : List (ℕ × ℕ)} (h : LineAt mem buf text)
    (hp : Parsing mem buf text d k st) :
    ∃ k' st', JOS.gobble (2 ^ 32) st (buf + BitVec.ofNat 32 k) =
      some (st', buf + BitVec.ofNat 32 k') ∧
      Parsing mem buf text d k' st' ∧ st'.argc = st.argc ∧ ∀ c, text[k']? = some c →
      isWhite c = false := by
  obtain ⟨k', st', hgo, hk', hst', ⟨l, hl, hin⟩, htok, hend⟩ :=
    gobble_spec h (text.drop k) k (2 ^ 32) st rfl hp.le (by have := h.fits; omega) hp.mem_eq
  have hargc : st'.argc = st.argc := by rw [hst']
  have hargv : st'.argv = st.argv := by rw [hst']
  have hlog : st'.argvWritten = st.argvWritten := by rw [hst']
  refine ⟨k', st', hgo, ⟨hk', by rw [hst'], by rw [← htok,
    hp.found], hargc.trans hp.argc, hargv ▸ hp.argv, fun a ha => ?_,
    hlog ▸ hp.argvWritten⟩, hargc, hend⟩
  rw [hl] at ha
  exact (List.mem_append.mp ha).elim (hp.written a) (hin a)

/-- `argv[argc] = p`, with room for it. -/
theorem setArg_argvWritten (p : Word) (hlt : st.argc < MAXARGS)
    (h : ∀ i ∈ st.argvWritten, i < MAXARGS) :
    ∀ i ∈ (st.setArg p).argvWritten, i < MAXARGS := by
  intro i hi
  rcases List.mem_append.mp hi with hi | hi
  · exact h i hi
  · rw [List.mem_singleton.mp hi]
    exact hlt

/-- The next token is found. -/
theorem Parsing.token {d : List (ℕ × ℕ)} (h : LineAt mem buf text)
    (hp : Parsing mem buf text d k st) (hlt : st.argc < MAXARGS)
    (hc : text[k]? = some c) (hw : isWhite c = false) : ∃ k',
      scanArg st.mem (2 ^ 32) (buf + BitVec.ofNat 32 k) = some (buf + BitVec.ofNat 32 k') ∧
      Parsing mem buf text (d ++ [(k, k')]) k' { st.setArg (buf + BitVec.ofNat 32 k) with
        argc := st.argc + 1 } := by
  obtain ⟨k', hgo, hk', hmem, htok⟩ :=
    scanArg_spec h k (text.drop k) k (2 ^ 32) rfl hp.le (by have := h.fits; omega)
  refine ⟨k', by rw [hp.mem_eq,
    hgo], hk', by rw [hmem, ← hp.mem_eq]; rfl, ?_, ?_, fun i hi => ?_, hp.written,
    setArg_argvWritten (buf + BitVec.ofNat 32 k) hlt hp.argvWritten⟩
  · -- the token begins at the first character that is not whitespace
    have hopen : tokens isWhite none k (text.drop k) = tokens isWhite (some k) k (text.drop k) := by
      obtain ⟨hlen, hget⟩ := List.getElem?_eq_some_iff.mp hc
      rw [List.drop_eq_getElem_cons hlen, hget, tokens, if_neg (by simp [hw]), tokens,
        if_neg (by simp [hw])]
    rw [hp.found, hopen, htok, List.append_assoc]
    rfl
  · rw [List.length_append, ← hp.argc]
    rfl
  · change Function.update st.argv st.argc (buf + BitVec.ofNat 32 k) i = _
    rw [List.length_append, List.length_singleton] at hi
    rcases Nat.lt_or_eq_of_le (Nat.le_of_lt_succ hi) with hid | rfl
    · rw [Function.update_of_ne (by rw [hp.argc]; omega), hp.argv i hid,
        List.getElem_append_left hid]
    · rw [hp.argc, Function.update_self, List.getElem_concat_length rfl]

/-- **The loop ends**, after the last token or one too many. -/
theorem parseArgs_spec (h : LineAt mem buf text) : ∀ (f : ℕ) {d : List (ℕ × ℕ)} {k : ℕ} {st : Cmd},
    Parsing mem buf text d k st →
    st.argc < MAXARGS → MAXARGS ≤ st.argc + f →
    ∃ ok st', parseArgs f st (buf + BitVec.ofNat 32 k) = some (ok, st') ∧
    Parsed mem buf text ok st' := by
  intro f
  induction f with
  | zero =>
    intro d k st _ hlt hf
    omega
  | succ f ih =>
    intro d k st hp hlt hf
    obtain ⟨k₁, st₁, hgo, hp₁, hargc, hend⟩ := hp.gobble h
    rw [parseArgs, hgo]
    rw [← hargc] at hlt hf
    rcases Nat.lt_or_eq_of_le hp₁.le with hk | hk
    · have hc : text[k₁]? = some text[k₁] := List.getElem?_eq_getElem hk
      have hw := hend _ hc
      have hread : st₁.mem (buf + BitVec.ofNat 32 k₁) = text[k₁] := by
        rw [hp₁.mem_eq, h.blanked_ahead hp₁.le, h.chars k₁ _ hc]
      obtain ⟨k₂, hscan, hp₂⟩ := hp₁.token h hlt hc hw
      change ∃ ok st', (if st₁.mem (buf + BitVec.ofNat 32 k₁) = 0 then _ else _) =
        some (ok, st') ∧ _
      rw [hread, if_neg (h.ne_nul hc)]
      by_cases hfull : st₁.argc = MAXARGS - 1
      · rw [if_pos hfull]
        refine ⟨false, st₁, rfl, fun h => (nomatch h), fun _ => ?_, hp₁.written, hp₁.argvWritten⟩
        rw [hp₂.found, List.length_append, List.length_append, ← hp₁.argc, hfull]
        exact Nat.le_add_right MAXARGS _
      · rw [if_neg hfull]
        change ∃ ok st', (scanArg st₁.mem (2 ^ 32) (buf + BitVec.ofNat 32 k₁) >>= _) =
          some (ok, st') ∧ _
        rw [hscan]
        have hroom : st₁.argc + 1 < MAXARGS := by
          have : MAXARGS = 16 := rfl
          omega
        exact ih hp₂ hroom (by change MAXARGS ≤ st₁.argc + 1 + f; omega)
    · -- the end of the text
      subst hk
      have hread : st₁.mem (buf + BitVec.ofNat 32 text.length) = 0 := by
        rw [hp₁.mem_eq, h.blanked_ahead hp₁.le, h.nul]
      have hall : tokens isWhite none 0 text = d := by
        rw [hp₁.found, List.drop_length]
        exact List.append_nil d
      refine ⟨true, st₁.setArg 0, ?_, fun _ =>
        ⟨⟨hp₁.le, hp₁.mem_eq, hall ▸ hp₁.found, by rw [hall]; exact hp₁.argc, fun i hi => ?_,
        hp₁.written, setArg_argvWritten 0 hlt hp₁.argvWritten⟩, Function.update_self .., hlt⟩,
        fun h => (nomatch h), hp₁.written,
        setArg_argvWritten 0 hlt hp₁.argvWritten⟩
      · change (if st₁.mem (buf + BitVec.ofNat 32 text.length) = 0 then _ else _) = _
        rw [if_pos hread]
        rfl
      · simp only [hall] at hi ⊢
        exact (Function.update_of_ne (by rw [hp₁.argc]; omega) _ _).trans (hp₁.argv i hi)

/-! ### `runcmd` -/

/-- The arguments are the tokens, in place, each with a NUL behind it. -/
structure Tokenised (buf : Word) (text : List (BitVec 8)) (l : List (ℕ × ℕ)) (st : Cmd) : Prop where
  argc : st.argc = l.length
  argv : ∀ i (h : i < l.length), st.argv i = buf + BitVec.ofNat 32 l[i].1
  null : st.argv l.length = 0
  token : ∀ r ∈ l, (∀ k, r.1 ≤ k → k < r.2 → ∀ c, text[k]? = some c →
    st.mem (buf + BitVec.ofNat 32 k) = c) ∧
    st.mem (buf + BitVec.ofNat 32 r.2) = 0

/-- What `runcmd` is to do with a line whose tokens are `l`. -/
def ParsesLine (mem : Word → BitVec 8) (argv : ℕ → Word) (buf : Word) (text : List (BitVec 8))
    (l : List (ℕ × ℕ)) : Prop :=
  ∃ ran st, runcmd mem argv buf = some (ran, st) ∧
    (∀ a ∈ st.written, ∃ k < text.length, a = buf + BitVec.ofNat 32 k) ∧
    (∀ i ∈ st.argvWritten, i < MAXARGS) ∧
    (l.length ≤ MAXARGS - 1 → ran ≠ .tooMany ∧ Tokenised buf text l st) ∧
    (MAXARGS - 1 < l.length → ran = .tooMany)

theorem Parsing.tokenised {l : List (ℕ × ℕ)} (h : LineAt mem buf text) (hl : Tokens isWhite text l)
    (hp : Parsing mem buf text l text.length st)
    (hnull : st.argv st.argc = 0) : Tokenised buf text l st := by
  refine ⟨hp.argc, hp.argv, hp.argc ▸ hnull, fun r hr => ?_⟩
  have htok := (hl.mem r.1 r.2).mp hr
  have hplace : ∀ k ≤ text.length, ∀ w, (text[k]?).any isWhite = w →
      st.mem (buf + BitVec.ofNat 32 k) =
      if k < text.length ∧ w = true then 0 else mem (buf + BitVec.ofNat 32 k) := by
    intro k hk w hw
    rw [hp.mem_eq, h.blanked_place hk, hw]
  constructor
  · intro k hrk hkr c hc
    have hw : (text[k]?).any isWhite = false := by
      rw [hc, Option.any_some, htok.inside k hrk hkr c hc]
    have hk : k ≤ text.length := by
      have := htok.le
      omega
    rw [hplace k hk false hw, if_neg fun h => Bool.false_ne_true h.2, h.chars k c hc]
  · rcases htok.after with hlen | ⟨c, hc, hw⟩
    · rw [hlen, hplace text.length le_rfl _ rfl, if_neg fun h => lt_irrefl _ h.1, h.nul]
    · have hlt := (List.getElem?_eq_some_iff.mp hc).1
      rw [hplace r.2 hlt.le true (by rw [hc, Option.any_some, hw]), if_pos ⟨hlt, rfl⟩]

/-- After the parsing `runcmd` only looks the command up. -/
theorem runcmd_eq {ok : Bool} {argv : ℕ → Word}
    (h : parseArgs MAXARGS ((⟨mem, 0, argv, [], []⟩ : Cmd).setArg 0) buf = some (ok, st)) :
    ∃ ran, runcmd mem argv buf = some (ran, st) ∧ (ran = .tooMany ↔ ok = false) := by
  rw [runcmd, h]
  cases ok with
  | false => exact ⟨.tooMany, rfl, iff_of_true rfl rfl⟩
  | true =>
    change ∃ ran, (if st.argc = 0 then some (Ran.nothing, st) else _) = some (ran, st) ∧ _
    split_ifs with h0
    · exact ⟨.nothing, rfl, iff_of_false (fun h => nomatch h) (fun h => nomatch h)⟩
    · split
      · exact ⟨.command _, rfl, iff_of_false (fun h => nomatch h) (fun h => nomatch h)⟩
      · exact ⟨.unknown, rfl, iff_of_false (fun h => nomatch h) (fun h => nomatch h)⟩

/-- **Every command line is parsed.** -/
theorem runcmd_parsesLine {l : List (ℕ × ℕ)} (argv : ℕ → Word) (h : LineAt mem buf text)
    (hl : Tokens isWhite text l) :
    ParsesLine mem argv buf text l := by
  have hroom : 0 < MAXARGS := by decide
  have hstart : Parsing mem buf text [] 0 ((⟨mem, 0, argv, [], []⟩ : Cmd).setArg 0) :=
    ⟨Nat.zero_le _, (blanked_zero mem buf text).symm, rfl, rfl, fun i hi =>
      absurd hi (Nat.not_lt_zero i),
      fun a ha => absurd ha List.not_mem_nil, fun i hi => List.mem_singleton.mp hi ▸ hroom⟩
  obtain ⟨ok, st, hparse, hp⟩ := parseArgs_spec h MAXARGS hstart hroom (Nat.le_add_left _ _)
  obtain rfl := hl.eq_tokens
  rw [BitVec.ofNat_eq_ofNat, BitVec.add_zero] at hparse
  obtain ⟨ran, hrun, hran⟩ := runcmd_eq hparse
  refine ⟨ran, st, hrun, hp.written, hp.argvWritten, fun hle => ?_, fun hlt => ?_⟩
  · cases ok with
    | false =>
      have := hp.tooMany rfl
      omega
    | true =>
      obtain ⟨hdone, hnull, -⟩ := hp.done rfl
      exact ⟨fun h => Bool.noConfusion (hran.mp h), hdone.tokenised h hl hnull⟩
  · cases ok with
    | false => exact hran.mpr rfl
    | true =>
      obtain ⟨hdone, -, hargc⟩ := hp.done rfl
      rw [hdone.argc] at hargc
      omega

/-- `"  help	me "` at `0x1000`. -/
def helpLine : List (BitVec 8) := [0x20, 0x20, 0x68, 0x65, 0x6c, 0x70, 0x09, 0x6d, 0x65, 0x20]

theorem helpLine_at : LineAt (fun a => helpLine.getD (a - 0x1000).toNat 0) 0x1000 helpLine where
  fits := by decide
  chars := fun k c hc => by
    obtain ⟨hk, hget⟩ := List.getElem?_eq_some_iff.mp hc
    have hk : k < 10 := hk
    rw [offset_toNat 0x1000 (by omega), List.getD_eq_getElem?_getD, hc]
    rfl
  nul := by decide
  noNul := by decide

theorem runcmd_parsesLine_help :
    ParsesLine (fun a => helpLine.getD (a - 0x1000).toNat 0) (fun _ => 0xdeadbeef) 0x1000 helpLine
      [(2, 6), (7, 9)] :=
  runcmd_parsesLine _ helpLine_at (tokens_tokens isWhite helpLine)

end JOS
