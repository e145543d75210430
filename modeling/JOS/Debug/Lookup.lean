import JOS.Debug.Search

/-!
# `debuginfo_eip` and its tables

A search looks at no entry outside the range it is given, and its result is in that range
or, when everything has been put aside to the left, one below it
(`stabBinsearch_bounds`). The search for the source file can end at index -1 so
(`OffLeft`), which `debuginfo_eip` does not take for a failure: it looks at entry -1 next.
Everything else stays inside the tables (`lookupEip_reads`, `lookupInside_iff`).
-/

namespace JOS

variable {stabs : ℤ → Stab} {stop : Stab → Bool} {type l r m t L R : ℤ} {addr : Word}
  {s s' : Search}

/-! ### The bounds of a search -/

/-- What holds of every search, whatever the table. -/
structure Spanned (L R : ℤ) (s : Search) : Prop where
  le_l : L ≤ s.l
  r_le : s.r ≤ R
  right : s.right = s.r
  le_left : L ≤ s.left
  quiet : s.anyMatches = false → s.left = L ∧ s.r = R
  matched : s.anyMatches = true → L - 1 ≤ s.r
  reads : ∀ i ∈ s.reads, L ≤ i ∧ i ≤ R

theorem Spanned.start (L R : ℤ) (addr : Word) : Spanned L R ⟨L, R, L, R, addr, false, []⟩ :=
  ⟨le_rfl, le_rfl, rfl, le_rfl, fun _ => ⟨rfl, rfl⟩, fun h => (nomatch h), fun _ hi =>
    absurd hi List.not_mem_nil⟩

theorem Spanned.step (hL : 0 ≤ L ∨ R ≤ L) (h : Spanned L R s)
    (hstep : searchStep stabs type s = some s') : Spanned L R s' := by
  obtain ⟨hle, t, m, reads, hp, hin, hcases⟩ :=
    searchStep_cases (by have := h.le_l; have := h.r_le; omega) hstep
  have hll := h.le_l
  have hrr := h.r_le
  have hlt := hp.le
  have hmt := hp.scan.le
  have hge := hp.ge
  have hreads : ∀ i ∈ s.reads ++ reads, L ≤ i ∧ i ≤ R := by
    intro i hi
    rcases List.mem_append.mp hi with hi | hi
    · exact h.reads i hi
    · have := hin i hi
      omega
  rcases hcases with ⟨hm, rfl⟩ | ⟨hm, -, rfl⟩ | ⟨hm, -, rfl⟩ | ⟨hm, -, rfl⟩
  · exact ⟨by dsimp only; omega, hrr, h.right, h.le_left, h.quiet, h.matched, hreads⟩
  · exact ⟨by dsimp only; omega, hrr, h.right, by dsimp only; omega, (fun hq =>
      nomatch hq), fun _ => by dsimp only; omega,
      hreads⟩
  · exact ⟨hll, by dsimp only; omega, rfl, h.le_left, (fun hq =>
      nomatch hq), fun _ => by dsimp only; omega, hreads⟩
  · exact ⟨by dsimp only; omega, hrr, h.right, by dsimp only; omega, (fun hq =>
      nomatch hq), fun _ => by dsimp only; omega,
      hreads⟩

/-- The result, and what every pass keeps. -/
theorem stabBinsearch_keeps {I : Search → Prop} (hL : 0 ≤ L ∨ R ≤ L)
    (hstep : ∀ s s', I s → searchStep stabs type s = some s' → I s')
    (hstart : I ⟨L, R, L, R, addr, false, []⟩) : ∃ s' left right reads,
    stabBinsearch stabs L R type addr = some (left, right, reads) ∧ Spanned L R s' ∧ I s' ∧
      s'.r < s'.l ∧
      (∀ i ∈ reads, L ≤ i ∧ i ≤ R) ∧ ((s'.anyMatches = false ∧ left = L ∧ right = L - 1) ∨
        (s'.anyMatches = true ∧ right = s'.r ∧ left ≤ right ∧ (L ≤ left ∨ left = right))) := by
  obtain ⟨s', hs', hres⟩ := @stabBinsearch_eq stabs type L R addr hL
  obtain ⟨⟨h, hI⟩, hend⟩ := stabSearch_invariant (I := fun s => Spanned L R s ∧ I s)
    (fun s s' hs h => ⟨hs.1.step hL h, hstep s s' hs.2 h⟩) hs' ⟨Spanned.start L R addr, hstart⟩
  rcases hres with ⟨hany, hres⟩ | ⟨hany, e, reads, he, hin, hres⟩
  · have hleft := (h.quiet hany).1
    exact ⟨s', _, _, _, hres, h, hI, hend, h.reads, .inl ⟨hany, hleft, by rw [hleft]⟩⟩
  · have hright := h.right
    have hrr := h.r_le
    have hleft := h.le_left
    refine ⟨s', _, _, _, hres, h, hI, hend, fun i hi => ?_, .inr ⟨hany, hright, he.le, ?_⟩⟩
    · rcases List.mem_append.mp hi with hi | hi
      · exact h.reads i hi
      · have := hin i hi
        omega
    · -- the scan ends at `*region_left`, or has not begun
      by_cases hscan : s'.left + 1 ≤ s'.right + 1
      · have := he.ge hscan
        exact .inl (by omega)
      · exact .inr (he.empty (by omega))

/-- **A search stays in its range**: it looks at nothing outside, and its result is in the range, or
one below it. -/
theorem stabBinsearch_bounds (hL : 0 ≤ L ∨ R ≤ L) : ∃ left right reads,
    stabBinsearch stabs L R type addr = some (left, right, reads) ∧
    (∀ i ∈ reads, L ≤ i ∧ i ≤ R) ∧
    ((left = L ∧ right = L - 1) ∨ (L - 1 ≤ left ∧ left ≤ right ∧ right ≤ R)) := by
  obtain ⟨s', left, right, reads, hres, h, -, -, hreads,
    ⟨-, hleft, hright⟩ | ⟨hany, hright, hle, hleft⟩⟩ :=
    @stabBinsearch_keeps stabs type L R addr (fun _ => True) hL (fun _ _ _ _ => trivial) trivial
  · exact ⟨left, right, reads, hres, hreads, .inl ⟨hleft, hright⟩⟩
  · have hr := h.matched hany
    have hrr := h.r_le
    exact ⟨left, right, reads, hres, hreads, .inr ⟨by omega, hle, by omega⟩⟩

/-! ### Any table -/

/-- `stab_binsearch` comes back, and looks at nothing outside the range it is given. -/
structure EndsInBounds (stabs : ℤ → Stab) (L R type : ℤ) (addr : Word) : Prop where
  /-- A scan goes on until its condition fails. -/
  scan : ∀ stop l m, ¬ (l ≤ (scanDown stabs stop l (scanFuel l m) m).1 ∧
    stop (stabs (scanDown stabs stop l (scanFuel l m) m).1) = false)
  /-- In every pass the middle is between the ends of the range, so that `l + r` is an `int`. -/
  pass : ∀ s, Relation.ReflTransGen (fun s s' => searchStep stabs type s = some s')
    ⟨L, R, L, R, addr, false, []⟩ s →
    s.l ≤ s.r → 2 * L ≤ s.l + s.r ∧ s.l + s.r ≤ 2 * R
  /-- The search comes to a pass with `l > r`. -/
  search : ∃ s, stabSearch stabs type (searchFuel L R) ⟨L, R, L, R, addr, false, []⟩ =
    some s ∧ s.r < s.l
  result : ∃ left right reads, stabBinsearch stabs L R type addr = some (left, right, reads) ∧
    ∀ i ∈ reads, L ≤ i ∧ i ≤ R

/-- **`stab_binsearch` ends in bounds on any table**: the entries need not be in order, and `addr`
may wrap around. -/
theorem stabBinsearch_endsInBounds (stabs : ℤ → Stab) (type : ℤ) (addr : Word) (hL : 0 ≤ L) :
    EndsInBounds stabs L R type addr where
  scan := by
    rintro stop l m ⟨hle, hstop⟩
    obtain ⟨hend, -⟩ := scanDown_end stabs stop l (scanFuel l m) m le_rfl
    rw [hend.stops hle] at hstop
    cases hstop
  pass := by
    intro s hs hle
    have h : Spanned L R s := by
      clear hle
      induction hs with
      | refl => exact Spanned.start L R addr
      | tail _ hstep ih => exact ih.step (.inl hL) hstep
    have := h.le_l
    have := h.r_le
    omega
  search := by
    obtain ⟨s, hs, -⟩ := @stabBinsearch_eq stabs type L R addr (.inl hL)
    exact ⟨s, hs, (stabSearch_invariant (I := fun _ => True) (fun _ _ _ _ => trivial) hs trivial).2⟩
  result := by
    obtain ⟨left, right, reads, hres, hreads, -⟩ :=
      @stabBinsearch_bounds stabs type L R addr (.inl hL)
    exact ⟨left, right, reads, hres, hreads⟩

/-- A table in which every entry is an exact match, for the last address there is. -/
def lastAddressStabs : ℤ → Stab := fun _ => ⟨0, 0x64, 0xffffffff⟩

theorem stabBinsearch_endsInBounds_lastAddress :
    EndsInBounds lastAddressStabs 0 9 N_SO 0xffffffff :=
  stabBinsearch_endsInBounds lastAddressStabs N_SO 0xffffffff (by decide)

/-! ### Off the left end -/

/-- Halving `[0, r]` comes to entry 0 with an address below it: the entries of the type in the
middle are above the address one after the other, and so is entry 0 (or the search, after an exact
match, goes on with address 0). -/
inductive OffLeft (stabs : ℤ → Stab) (type : ℤ) (addr : Word) : ℤ → Prop where
  | zero {r t : ℤ} : Probe stabs type 0 r t 0 →
      (addr.toNat < (stabs 0).value ∨ ((stabs 0).nValue = addr ∧ addr = 0xffffffff)) →
      OffLeft stabs type addr r
  | down {r t m : ℤ} : Probe stabs type 0 r t m → 0 < m → addr.toNat < (stabs m).value →
      OffLeft stabs type addr (m - 1) →
      OffLeft stabs type addr r

theorem OffLeft.probe_iff (hp : Probe stabs type 0 r t m) : OffLeft stabs type addr r ↔
    (m = 0 ∧ (addr.toNat < (stabs 0).value ∨ ((stabs 0).nValue = addr ∧ addr = 0xffffffff))) ∨
      (0 < m ∧ addr.toNat < (stabs m).value ∧ OffLeft stabs type addr (m - 1)) := by
  constructor
  · intro h
    cases h with
    | zero hp' h =>
      obtain ⟨-, rfl⟩ := hp.unique hp'
      exact .inl ⟨rfl, h⟩
    | down hp' hm hv h =>
      obtain ⟨-, rfl⟩ := hp.unique hp'
      exact .inr ⟨hm, hv, h⟩
  · rintro (⟨rfl, h⟩ | ⟨hm, hv, h⟩)
    · exact .zero hp h
    · exact .down hp hm hv h

/-- A search from entry 0 on the way to its left end. -/
inductive Leftward (stabs : ℤ → Stab) (type R : ℤ) (addr : Word) (s : Search) : Prop where
  /-- Everything up to now was above the address. -/
  | down : s.l = 0 → 0 ≤ s.r → s.addr = addr →
    (OffLeft stabs type addr s.r ↔ OffLeft stabs type addr R) → Leftward stabs type R addr s
  /-- There was an exact match with entry 0. -/
  | hit {t : ℤ} : s.l = 0 → s.addr = addr + 1 → (stabs 0).nValue = addr →
      Probe stabs type 0 s.r t 0 →
      (addr = 0xffffffff ↔ OffLeft stabs type addr R) → Leftward stabs type R addr s
  | off : s.l = 0 → s.r = -1 → OffLeft stabs type addr R → Leftward stabs type R addr s
  | up : 0 < s.l → 0 ≤ s.r → ¬ OffLeft stabs type addr R → Leftward stabs type R addr s

theorem Leftward.step (h : Leftward stabs type R addr s)
    (hstep : searchStep stabs type s = some s') :
    Leftward stabs type R addr s' := by
  have hl : 0 ≤ s.l := by
    cases h <;> omega
  obtain ⟨hle, t, m, reads, hp, -, hcases⟩ := searchStep_cases (.inl hl) hstep
  have hlt := hp.le
  have htr := hp.ge
  have hmt := hp.scan.le
  cases h with
  | down hl hr haddr hiff =>
    rw [hl] at hp hcases
    rw [haddr] at hcases
    rw [OffLeft.probe_iff hp] at hiff
    rcases hcases with ⟨hm, rfl⟩ | ⟨hm, hv, rfl⟩ | ⟨hm, hv, rfl⟩ | ⟨hm, hv, rfl⟩
    · refine .up (by dsimp only; omega) hr ?_
      rw [← hiff]
      rintro (⟨rfl, -⟩ | ⟨hm', -⟩) <;> omega
    · have hv' : (stabs m).value < addr.toNat := hv
      refine .up (by dsimp only; omega) hr ?_
      rw [← hiff]
      rintro (⟨rfl, habove | ⟨heq, -⟩⟩ | ⟨-, habove, -⟩)
      · omega
      · rw [Stab.value, heq] at hv'
        omega
      · omega
    · have hv' : addr.toNat < (stabs m).value := hv
      rcases Int.lt_or_eq_of_le hm with hm | rfl
      · exact .down rfl (by dsimp only; omega) rfl
            ⟨fun h => hiff.mp (.inr ⟨hm, hv', h⟩), fun h => by
          obtain ⟨rfl, -⟩ | ⟨-, -, h⟩ := hiff.mpr h
          · exact absurd hm (lt_irrefl _)
          · exact h⟩
      · exact .off rfl (by dsimp only; omega) (hiff.mp (.inl ⟨rfl, .inl hv'⟩))
    · have hv' : (stabs m).value = addr.toNat := congrArg BitVec.toNat hv
      rcases Int.lt_or_eq_of_le hm with hm | rfl
      · refine .up hm hr ?_
        rw [← hiff]
        rintro (⟨rfl, -⟩ | ⟨-, habove, -⟩) <;> omega
      · refine .hit rfl rfl hv hp ?_
        rw [← hiff]
        constructor
        · exact fun hmax => .inl ⟨rfl, .inr ⟨hv, hmax⟩⟩
        · rintro (⟨-, habove | ⟨-, hmax⟩⟩ | ⟨hm, -⟩)
          · omega
          · exact hmax
          · exact absurd hm (lt_irrefl _)
  | hit hl haddr hv₀ hp₀ hiff =>
    rw [hl] at hp hcases
    obtain ⟨-, rfl⟩ := hp₀.unique hp
    rw [haddr, hv₀] at hcases
    rcases hcases with ⟨hm, rfl⟩ | ⟨-, hv, rfl⟩ | ⟨-, hv, rfl⟩ | ⟨-, hv, rfl⟩
    · exact absurd hm (lt_irrefl _)
    · refine .up (by dsimp only; omega) (by dsimp only; omega) (hiff.not.mp ?_)
      rintro rfl
      exact absurd hv (by decide)
    · refine .off rfl (by dsimp only; omega) (hiff.mp ?_)
      bv_omega
    · bv_omega
  | off hl hr hoff => omega
  | up hl hr hoff =>
    rcases hcases with ⟨hm, rfl⟩ | ⟨hm, -, rfl⟩ | ⟨hm, -, rfl⟩ | ⟨hm, -, rfl⟩
    · exact .up (by dsimp only; omega) hr hoff
    · exact .up (by dsimp only; omega) hr hoff
    · exact .up hl (by dsimp only; omega) hoff
    · exact .up (by dsimp only; omega) hr hoff

/-- **The search for the source file**: it ends at index -1 when halving comes off the left end, and
otherwise at 0, which is taken for a failure, or at an entry of the table. -/
theorem fileSearch (hR : 0 ≤ R) : ∃ lfile rfile reads,
    stabBinsearch stabs 0 R type addr = some (lfile, rfile, reads) ∧
    (∀ i ∈ reads, 0 ≤ i ∧ i ≤ R) ∧ ((OffLeft stabs type addr R ∧ lfile = -1 ∧ rfile = -1) ∨
      (¬ OffLeft stabs type addr R ∧ (lfile = 0 ∨ (0 < lfile ∧ lfile ≤ rfile ∧ rfile ≤ R)))) := by
  obtain ⟨s', lfile, rfile, reads, hres, h, hI, hend, hreads, hcases⟩ :=
    @stabBinsearch_keeps stabs type 0 R addr (Leftward stabs type R addr) (.inl le_rfl)
      (fun _ _ h hstep => h.step hstep)
      (.down rfl hR rfl Iff.rfl)
  have hrr := h.r_le
  refine ⟨lfile, rfile, reads, hres, hreads, ?_⟩
  cases hI with
  | down hl hr => omega
  | hit hl _ _ hp =>
    have := hp.le.trans hp.ge
    omega
  | off hl hr hoff =>
    rcases hcases with ⟨hany, -⟩ | ⟨-, hright, hle, hleft⟩
    · have := (h.quiet hany).2
      omega
    · exact .inl ⟨hoff, by omega, by omega⟩
  | up hl hr hoff =>
    rcases hcases with ⟨-, hleft, -⟩ | ⟨-, hright, hle, hleft⟩
    · exact .inr ⟨hoff, .inl hleft⟩
    · exact .inr ⟨hoff, by omega⟩

/-! ### The first entry a search looks at -/

/-- What a pass has looked at is not forgotten. -/
theorem searchStep_reads (h : searchStep stabs type s = some s') : ∃ more, s'.reads = s.reads ++
    ((scanDown stabs (Stab.isType · type) s.l (scanFuel s.l ((s.l + s.r).tdiv 2))
        ((s.l + s.r).tdiv 2)).2 ++ more) := by
  rw [searchStep] at h
  split_ifs at h with hle
  dsimp only at h
  split_ifs at h
  · rw [Option.some.injEq] at h
    exact ⟨[], by rw [← h, List.append_nil]⟩
  all_goals
    rw [Option.some.injEq] at h
    subst h
    exact ⟨_, List.append_assoc _ _ _⟩

/-- The first entry of a scan is looked at. -/
theorem mem_scanDown (hstop : l ≤ m) : m ∈ (scanDown stabs stop l (scanFuel l m) m).2 := by
  obtain ⟨f, hf⟩ : ∃ f, scanFuel l m = f + 1 := ⟨(m - l).toNat, by rw [scanFuel]; omega⟩
  rw [hf, scanDown, if_pos hstop]
  split_ifs
  · exact List.mem_singleton_self m
  · exact List.mem_cons_self

/-- A search looks at the middle entry of its range. -/
theorem stabBinsearch_middle {left right : ℤ} {reads : List ℤ} (hL : 0 ≤ L ∨ R ≤ L) (hle : L ≤ R)
    (h : stabBinsearch stabs L R type addr = some (left, right, reads)) : (L + R) / 2 ∈ reads := by
  rw [stabBinsearch] at h
  cases hsearch : stabSearch stabs type (searchFuel L R) ⟨L, R, L, R, addr, false, []⟩ with
  | none =>
    rw [hsearch] at h
    cases h
  | some s' =>
    have hin : (L + R) / 2 ∈ s'.reads := by
      rw [searchFuel, stabSearch] at hsearch
      cases hone : searchStep stabs type ⟨L, R, L, R, addr, false, []⟩ with
      | none => exact absurd (searchStep_none.mp hone) (not_lt.mpr hle)
      | some s₁ =>
        rw [hone] at hsearch
        refine (stabSearch_invariant (I := fun s => (L + R) / 2 ∈ s.reads)
          (fun s s' hs hstep => ?_) hsearch ?_).1
        · obtain ⟨more, hmore⟩ := searchStep_reads hstep
          rw [hmore]
          exact List.mem_append_left _ hs
        · obtain ⟨more, hmore⟩ := searchStep_reads hone
          rw [hmore, middle_eq hL hle]
          exact List.mem_append_right _
            (List.mem_append_left _ (mem_scanDown (by dsimp only; omega)))
    rw [hsearch] at h
    simp only [Option.bind_eq_bind, Option.bind_some] at h
    split_ifs at h
    all_goals
      rw [Option.pure_def, Option.some.injEq, Prod.mk.injEq, Prod.mk.injEq] at h
      obtain ⟨-, -, rfl⟩ := h
    · exact hin
    · exact List.mem_append_left _ hin

/-! ### The string table -/

/-- `strfind` stops at a NUL that is ahead, and reads nothing behind it. -/
theorem strfind_stops {byte : Word → BitVec 8} {c : BitVec 8} : ∀ {f k : ℕ} {p : Word}, k < f →
    byte (p + BitVec.ofNat 32 k) = 0 → ∃ q reads, strfind byte c f p = some (q, reads) ∧
      ∀ a ∈ reads, ∃ j ≤ k, a = p + BitVec.ofNat 32 j := by
  intro f
  induction f with
  | zero =>
    intro k p hk
    exact absurd hk (Nat.not_lt_zero k)
  | succ f ih =>
    intro k p hk hnul
    rw [strfind]
    have hzero : p = p + BitVec.ofNat 32 0 := (BitVec.add_zero p).symm
    by_cases hstop : byte p = 0 ∨ byte p = c
    · rw [if_pos hstop]
      exact ⟨p, [p], rfl, fun a ha => ⟨0, Nat.zero_le k, (List.mem_singleton.mp ha).trans hzero⟩⟩
    · rw [if_neg hstop]
      have hnext : ∀ j, p + 1 + BitVec.ofNat 32 j = p + BitVec.ofNat 32 (j + 1) := by
        intro j
        rw [Nat.add_comm j 1, BitVec.ofNat_add, ← BitVec.add_assoc]
        rfl
      cases k with
      | zero => exact absurd (.inl (hzero ▸ hnul)) hstop
      | succ k =>
        obtain ⟨q, reads, hq, hreads⟩ := ih (Nat.lt_of_succ_lt_succ hk) (by rw [hnext]; exact hnul)
        rw [hq]
        refine ⟨q, p :: reads, rfl, fun a ha => ?_⟩
        rcases List.mem_cons.mp ha with rfl | ha
        · exact ⟨0, Nat.zero_le _, hzero⟩
        · obtain ⟨j, hj, rfl⟩ := hreads a ha
          exact ⟨j + 1, Nat.succ_le_succ hj, hnext j⟩

/-- The string table is not empty, and ends with a NUL. -/
structure DebugTables.Terminated (t : DebugTables) : Prop where
  lt : t.stabstr < t.stabstrEnd
  nul : t.byte (t.stabstrEnd - 1) = 0

/-- An address in the string table. -/
def DebugTables.InStrings (t : DebugTables) (a : Word) : Prop :=
  (a - t.stabstr).toNat < (t.stabstrEnd - t.stabstr).toNat

theorem DebugTables.Terminated.last {t : DebugTables} (h : t.Terminated) :
    t.InStrings (t.stabstrEnd - 1) := by
  have := h.lt
  rw [DebugTables.InStrings]
  bv_omega

/-- The name of an entry, which `debuginfo_eip` has checked to begin in the string table, ends
there. -/
theorem DebugTables.Terminated.strfind {t : DebugTables} (h : t.Terminated) {n : Word}
    (hn : n < t.stabstrEnd - t.stabstr) :
    ∃ len reads, fnNamelen t.byte (.at (t.stabstr + n)) = some (len, reads) ∧ ∀ a ∈ reads,
        t.InStrings a := by
  have hlt := h.lt
  obtain ⟨q, reads, hq, hreads⟩ :=
    @strfind_stops t.byte 0x3a (2 ^ 32) (t.stabstrEnd - 1 - (t.stabstr + n)).toNat (t.stabstr + n)
    (BitVec.isLt _) (by
      rw [BitVec.ofNat_toNat, BitVec.setWidth_eq, BitVec.add_comm, BitVec.sub_add_cancel]
      exact h.nul)
  refine ⟨_, reads, by rw [fnNamelen, hq]; rfl, fun a ha => ?_⟩
  obtain ⟨j, hj, rfl⟩ := hreads a ha
  rw [DebugTables.InStrings]
  have : j < 2 ^ 32 := hj.trans_lt (BitVec.isLt _)
  bv_omega

/-! ### `debuginfo_eip` -/

/-- Every entry of the table that `debuginfo_eip` reads is there, and so is every byte of the string
table; and it comes to an end. -/
def LookupInside (t : DebugTables) (addr : Word) : Prop :=
  ∃ run, lookupEip t addr = some run ∧ (∀ i ∈ run.stabReads, 0 ≤ i ∧ i < t.count) ∧
    ∀ a ∈ run.strReads, t.InStrings a

/-- The name of a function, whether it is known or not. -/
theorem DebugTables.Terminated.fnNamelen {t : DebugTables} (h : t.Terminated) {name : DebugStr}
    (hname : name = .unknown ∨ ∃ n, n < t.stabstrEnd - t.stabstr ∧ name = .at (t.stabstr + n)) :
    ∃ len reads, fnNamelen t.byte name = some (len, reads) ∧ ∀ a ∈ reads, t.InStrings a := by
  obtain rfl | ⟨n, hn, rfl⟩ := hname
  · exact ⟨_, [], rfl, fun a ha => absurd ha List.not_mem_nil⟩
  · exact h.strfind hn

theorem countArgs_reads {stabs : ℤ → Stab} {rfun : ℤ} : ∀ {f : ℕ} {l : ℤ},
    ∀ i ∈ (countArgs stabs rfun f l).2, l ≤ i ∧ i < rfun := by
  intro f
  induction f with
  | zero =>
    intro l i hi
    exact absurd hi List.not_mem_nil
  | succ f ih =>
    intro l i hi
    rw [countArgs] at hi
    split_ifs at hi with hlt
    · rcases List.mem_cons.mp hi with rfl | hi
      · exact ⟨le_rfl, hlt⟩
      · have := ih i hi
        omega
    · rw [List.mem_singleton.mp hi]
      exact ⟨le_rfl, hlt⟩
    · exact absurd hi List.not_mem_nil

/-- From the entry of a file on: what the two searches read, and else entries that the second one
has found. -/
theorem lookupEip_file {t : DebugTables} {lfile rfile lfun rfun : ℤ} {reads reads' : List ℤ}
    (ht : t.Terminated)
    (hfile : stabBinsearch t.stabs 0 (t.count - 1) N_SO addr = some (lfile, rfile, reads))
    (hne : lfile ≠ 0) (hle : lfile ≤ rfile)
    (hfun : stabBinsearch t.stabs lfile rfile N_FUN addr = some (lfun, rfun, reads'))
    (hbounds : (lfun = lfile ∧ rfun = lfile - 1) ∨
    (lfile - 1 ≤ lfun ∧ lfun ≤ rfun ∧ rfun ≤ rfile)) :
    ∃ run, lookupEip t addr = some run ∧ (∀ i ∈ reads ++ reads', i ∈ run.stabReads) ∧
      (∀ i ∈ run.stabReads, i ∈ reads ++ reads' ∨ (lfile - 1 ≤ i ∧ i ≤ rfile)) ∧
      t.stabstrEnd - 1 ∈ run.strReads ∧ ∀ a ∈ run.strReads, t.InStrings a := by
  rw [lookupEip, if_neg (BitVec.not_le.mpr ht.lt), if_neg (not_not.mpr ht.nul), hfile]
  simp only [Option.bind_eq_bind, Option.bind_some]
  rw [if_neg hne, hfun]
  simp only [Option.bind_some]
  -- the function, or the whole file
  generalize hsel : (if lfun ≤ rfun then _ else _ : Eipdebuginfo × ℤ × List ℤ) = sel
  have hsel' : (sel.1.eipFnName = .unknown ∨ ∃ n, n < t.stabstrEnd - t.stabstr ∧
      sel.1.eipFnName = .at (t.stabstr + n)) ∧
      sel.2.1 ≤ rfile ∧ (∀ i ∈ reads ++ reads', i ∈ sel.2.2) ∧
      ∀ i ∈ sel.2.2, i ∈ reads ++ reads' ∨ (lfile - 1 ≤ i ∧ i ≤ rfile) := by
    rw [← hsel]
    by_cases hlr : lfun ≤ rfun
    · rw [if_pos hlr]
      refine ⟨?_, by dsimp only; omega, fun i hi => List.mem_append_left _ hi, fun i hi => ?_⟩
      · dsimp only
        split_ifs with hstrx
        · exact .inr ⟨_, hstrx, rfl⟩
        · exact .inl rfl
      · rcases List.mem_append.mp hi with hi | hi
        · exact .inl hi
        · rw [List.mem_singleton.mp hi]
          exact .inr (by omega)
    · rw [if_neg hlr]
      exact ⟨.inl rfl, hle, fun i hi => hi, fun i hi => .inl hi⟩
  clear hsel
  obtain ⟨info, lline, stabReads⟩ := sel
  obtain ⟨hname, hline, hkept, hstabs⟩ := hsel'
  dsimp only at hname hline hkept hstabs ⊢
  obtain ⟨len, strReads, hlen, hstr⟩ := ht.fnNamelen hname
  rw [hlen]
  simp only [Option.bind_some]
  have hstrs : ∀ a ∈ [t.stabstrEnd - 1] ++ strReads, t.InStrings a := by
    intro a ha
    rcases List.mem_append.mp ha with ha | ha
    · rw [List.mem_singleton.mp ha]
      exact ht.last
    · exact hstr a ha
  -- the file name
  obtain ⟨hend, hscan⟩ := scanDown_end t.stabs isFileStab lfile (scanFuel lfile lline) lline le_rfl
  generalize scanDown t.stabs isFileStab lfile (scanFuel lfile lline) lline = q at hend hscan ⊢
  have hq := hend.le
  have hscans : ∀ i ∈ stabReads ++ q.2, i ∈ reads ++ reads' ∨ (lfile - 1 ≤ i ∧ i ≤ rfile) := by
    intro i hi
    rcases List.mem_append.mp hi with hi | hi
    · exact hstabs i hi
    · have := hscan i hi
      exact .inr (by omega)
  generalize hsel : (if q.1 ≥ lfile then _ else _ : Eipdebuginfo × List ℤ) = sel
  have hsel' : (∀ i ∈ reads ++ reads', i ∈ sel.2) ∧ ∀ i ∈ sel.2, i ∈ reads ++ reads' ∨
      (lfile - 1 ≤ i ∧ i ≤ rfile) := by
    rw [← hsel]
    by_cases hge : q.1 ≥ lfile
    · rw [if_pos hge]
      refine ⟨fun i hi => List.mem_append_left _ (List.mem_append_left _ (hkept i hi)),
        fun i hi => ?_⟩
      rcases List.mem_append.mp hi with hi | hi
      · exact hscans i hi
      · rw [List.mem_singleton.mp hi]
        exact .inr (by omega)
    · rw [if_neg hge]
      exact ⟨fun i hi => List.mem_append_left _ (hkept i hi), hscans⟩
  clear hsel
  obtain ⟨info', stabReads'⟩ := sel
  obtain ⟨hkept', hstabs'⟩ := hsel'
  dsimp only at hkept' hstabs' ⊢
  -- the arguments
  by_cases hlt : lfun < rfun
  · rw [if_pos hlt]
    refine ⟨_, rfl, fun i hi => List.mem_append_left _ (hkept' i hi), fun i hi => ?_,
      List.mem_cons_self, hstrs⟩
    rcases List.mem_append.mp hi with hi | hi
    · exact hstabs' i hi
    · have := countArgs_reads i hi
      exact .inr (by omega)
  · rw [if_neg hlt]
    exact ⟨_, rfl, hkept', hstabs', List.mem_cons_self, hstrs⟩

/-- **What `debuginfo_eip` reads**, of a table that is not empty: its middle entry, and no entry
that is not in the table but the two below it, when the search comes off the left end. -/
theorem lookupEip_reads (t : DebugTables) (addr : Word) (hcount : 1 ≤ t.count) (ht : t.Terminated) :
    ∃ run, lookupEip t addr = some run ∧ (t.stabstrEnd - 1 ∈ run.strReads ∧ ∀ a ∈ run.strReads,
      t.InStrings a) ∧
      (t.count - 1) / 2 ∈ run.stabReads ∧
      ((OffLeft t.stabs N_SO addr (t.count - 1) ∧ -1 ∈ run.stabReads ∧ ∀ i ∈ run.stabReads, -2 ≤ i ∧
        i < t.count) ∨
        (¬ OffLeft t.stabs N_SO addr (t.count - 1) ∧ ∀ i ∈ run.stabReads, 0 ≤ i ∧
            i < t.count)) := by
  obtain ⟨lfile, rfile, reads, hfile, hreads, hcases⟩ :=
    @fileSearch t.stabs N_SO (t.count - 1) addr (by omega)
  have hmiddle := stabBinsearch_middle (.inl le_rfl) (by omega) hfile
  rw [Int.zero_add] at hmiddle
  obtain ⟨hoff, rfl, rfl⟩ | ⟨hoff, hcases⟩ := hcases
  · obtain ⟨lfun, rfun, reads', hfun, hin, hbounds⟩ :=
      @stabBinsearch_bounds t.stabs N_FUN (-1) (-1) addr (.inr le_rfl)
    obtain ⟨run, hrun, hkept, hstabs, hstrs⟩ :=
      lookupEip_file ht hfile (by decide) le_rfl hfun hbounds
    refine ⟨run, hrun, hstrs, hkept _ (List.mem_append_left _ hmiddle),
      .inl ⟨hoff, ?_, fun i hi => ?_⟩⟩
    · exact hkept (-1) (List.mem_append_right _ (stabBinsearch_middle (.inr le_rfl) le_rfl hfun))
    · rcases hstabs i hi with hi | hi
      · rcases List.mem_append.mp hi with hi | hi
        · have := hreads i hi
          omega
        · have := hin i hi
          omega
      · omega
  rcases hcases with rfl | ⟨hpos, hle, hr⟩
  · refine ⟨⟨-1, .init addr, reads, [t.stabstrEnd - 1]⟩, ?_, ⟨List.mem_cons_self, fun a ha => ?_⟩,
      hmiddle, .inr ⟨hoff, fun i hi => ?_⟩⟩
    · rw [lookupEip, if_neg (BitVec.not_le.mpr ht.lt), if_neg (not_not.mpr ht.nul), hfile]
      rfl
    · rw [List.mem_singleton.mp ha]
      exact ht.last
    · have := hreads i hi
      omega
  · obtain ⟨lfun, rfun, reads', hfun, hin, hbounds⟩ :=
      @stabBinsearch_bounds t.stabs N_FUN lfile rfile addr (.inl (by omega))
    obtain ⟨run, hrun, hkept, hstabs, hstrs⟩ := lookupEip_file ht hfile (by omega) hle hfun hbounds
    refine ⟨run, hrun, hstrs, hkept _ (List.mem_append_left _ hmiddle), .inr ⟨hoff, fun i hi => ?_⟩⟩
    rcases hstabs i hi with hi | hi
    · rcases List.mem_append.mp hi with hi | hi
      · have := hreads i hi
        omega
      · have := hin i hi
        omega
    · omega

/-- **`debuginfo_eip` stays inside its tables** exactly when the search for the source file does not
come off the left end. -/
theorem lookupInside_iff (t : DebugTables) (addr : Word) (hcount : 1 ≤ t.count)
    (ht : t.Terminated) :
    LookupInside t addr ↔ ¬ OffLeft t.stabs N_SO addr (t.count - 1) := by
  obtain ⟨run, hrun, hstrs, -, ⟨hoff, hbelow, -⟩ | ⟨hoff, hin⟩⟩ := lookupEip_reads t addr hcount ht
  · refine ⟨?_, fun h => absurd hoff h⟩
    rintro ⟨run', hrun', hstabs, -⟩
    rw [hrun] at hrun'
    cases hrun'
    exact absurd (hstabs (-1) hbelow).1 (by decide)
  · exact ⟨fun _ => hoff, fun _ => ⟨run, hrun, hin, hstrs.2⟩⟩

/-- A table of the given entries, and an empty string. -/
def fileTable (entries : List Stab) : DebugTables where
  stabs i := if i < 0 then ⟨0, 0, 0⟩ else entries.getD i.toNat ⟨0, 0, 0⟩
  count := entries.length
  stabstr := 0x1000
  stabstrEnd := 0x1001
  byte _ := 0

theorem fileTable_terminated (entries : List Stab) : (fileTable entries).Terminated :=
  ⟨show (0x1000 : Word) < 0x1001 by decide, rfl⟩

theorem lookupInside_fileTable :
    LookupInside (fileTable [⟨0, 0, 1⟩, ⟨0, 0x64, 0xf0100000⟩]) 0xf0100010 :=
  (lookupInside_iff _ 0xf0100010 (by decide) (fileTable_terminated _)).mpr (by
    rintro (⟨hp, -⟩ | ⟨hp, hm, -⟩)
    · exact absurd (hp.scan.stops le_rfl) (by decide)
    · have := hp.scan.le
      have := hp.mid
      have : (fileTable [⟨0, 0, 1⟩, ⟨0, 0x64, 0xf0100000⟩]).count = 2 := rfl
      omega)

/-- With an address below the only file, entry -1 is read. -/
theorem not_lookupInside : 1 ≤ (fileTable [⟨0, 0x64, 0xf0100000⟩]).count ∧
    (fileTable [⟨0, 0x64, 0xf0100000⟩]).Terminated ∧
    ¬ LookupInside (fileTable [⟨0, 0x64, 0xf0100000⟩]) 0x800020 := by
  refine ⟨by decide, fileTable_terminated _, ?_⟩
  rintro ⟨run, hrun, hstabs, -⟩
  have hreads : (lookupEip (fileTable [⟨0, 0x64, 0xf0100000⟩]) 0x800020).map
      (fun run => run.stabReads) =
      some [0, 0, 0, -1, -1] := by decide
  rw [hrun, Option.map_some, Option.some.injEq] at hreads
  have hmem : -1 ∈ run.stabReads := by
    rw [hreads]
    decide
  exact absurd (hstabs (-1) hmem).1 (by decide)

end JOS
