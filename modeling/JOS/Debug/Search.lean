import JOS.Kern.Kdebug
import Mathlib.Data.Int.LeastGreatest

/-!
# `stab_binsearch`

A pass of the search looks at the last entry of the type up to the middle
(`searchStep_cases`). Of two passes one makes the interval smaller (`stabSearch_ends`),
and what every pass keeps holds at the end (`stabSearch_invariant`).

The entry that contains the address is found when there is no exact match
(`Bracketing`). After an exact match the search goes on with the next address, and finds
the wrong entry when the next entry of the type is at that address, unless it has been
put aside before (`NextFirst`); an address before all entries is reported as found.
`stabBinsearch_iff` says exactly when the result is right.
-/

namespace JOS

variable {stabs : ℤ → Stab} {stop : Stab → Bool} {type l r m t L R : ℤ} {addr : Word}
  {s s' : Search}

/-! ### Scanning down -/

/-- Where a scan down from `m` ends. -/
structure ScanEnd (stabs : ℤ → Stab) (stop : Stab → Bool) (l m e : ℤ) : Prop where
  le : e ≤ m
  ge : l ≤ m + 1 → l - 1 ≤ e
  empty : m < l → e = m
  stops : l ≤ e → stop (stabs e) = true
  passed : ∀ i, e < i → i ≤ m → stop (stabs i) = false

theorem scanDown_end (stabs : ℤ → Stab) (stop : Stab → Bool) (l : ℤ) : ∀ (f : ℕ) (m : ℤ),
    scanFuel l m ≤ f →
    ScanEnd stabs stop l m (scanDown stabs stop l f m).1 ∧ ∀ i ∈ (scanDown stabs stop l f m).2,
    l ≤ i ∧ i ≤ m := by
  intro f
  induction f with
  | zero =>
    intro m hf
    rw [scanFuel] at hf
    exact ⟨⟨le_rfl, fun h => by rw [scanDown]; omega, fun _ => rfl,
      fun h => by rw [scanDown] at h; omega,
      fun i h₁ h₂ => by rw [scanDown] at h₁; omega⟩, fun i hi => absurd hi List.not_mem_nil⟩
  | succ f ih =>
    intro m hf
    rw [scanFuel] at hf
    rw [scanDown]
    split_ifs with hle hstop
    · refine ⟨⟨le_rfl, fun _ => by dsimp only; omega, fun _ => rfl, fun _ => hstop,
          fun i h₁ h₂ => by dsimp only at h₁; omega⟩,
        fun i hi => ?_⟩
      rw [List.mem_singleton.mp hi]
      exact ⟨hle, le_rfl⟩
    · obtain ⟨hend, hreads⟩ := ih (m - 1) (by rw [scanFuel]; omega)
      refine ⟨⟨by dsimp only; have := hend.le; omega,
          fun _ => by dsimp only; have := hend.ge; omega, fun h => absurd hle (not_le.mpr h),
        hend.stops, fun i h₁ h₂ => ?_⟩, fun i hi => ?_⟩
      · rcases Int.lt_or_eq_of_le h₂ with hlt | rfl
        · exact hend.passed i h₁ (by omega)
        · simpa using hstop
      · rcases List.mem_cons.mp hi with rfl | hi
        · exact ⟨hle, le_rfl⟩
        · have := hreads i hi
          omega
    · exact ⟨⟨le_rfl, fun h => by dsimp only; omega, fun _ => rfl, fun h => absurd h hle,
          fun i h₁ h₂ => by dsimp only at h₁; omega⟩,
        fun i hi => absurd hi List.not_mem_nil⟩

/-! ### A pass -/

/-- What a pass looks at: the middle `t`, and the last entry `m` of the type up to it, or
`l - 1`. -/
structure Probe (stabs : ℤ → Stab) (type l r t m : ℤ) : Prop where
  le : l ≤ t
  ge : t ≤ r
  mid : t = (l + r) / 2
  scan : ScanEnd stabs (Stab.isType · type) l t m

/-- The middle of an interval that is not negative, or one entry. -/
theorem middle_eq (hl : 0 ≤ l ∨ r ≤ l) (hle : l ≤ r) : (l + r).tdiv 2 = (l + r) / 2 := by
  rcases hl with hl | hl
  · exact Int.tdiv_eq_ediv_of_nonneg (by omega)
  · rw [show l + r = 2 * l by omega, Int.mul_tdiv_cancel_left _ (by decide),
      Int.mul_ediv_cancel_left _ (by decide)]

/-- **What a pass can do**, when the interval is not negative, or one entry. -/
theorem searchStep_cases (hl : 0 ≤ s.l ∨ s.r ≤ s.l) (h : searchStep stabs type s = some s') :
    s.l ≤ s.r ∧ ∃ t m reads,
    Probe stabs type s.l s.r t m ∧ (∀ i ∈ reads, s.l ≤ i ∧ i ≤ s.r) ∧
    ((m < s.l ∧ s' = { s with l := t + 1, reads := s.reads ++ reads }) ∨
      (s.l ≤ m ∧ (stabs m).nValue < s.addr ∧
        s' = { s with left := m, l := t + 1, anyMatches := true, reads := s.reads ++ reads }) ∨
      (s.l ≤ m ∧ s.addr < (stabs m).nValue ∧
        s' = { s with right := m - 1, r := m - 1, anyMatches := true, reads := s.reads ++ reads }) ∨
      (s.l ≤ m ∧ (stabs m).nValue = s.addr ∧
        s' = { s with
          left := m, l := m, addr := s.addr + 1, anyMatches := true,
          reads := s.reads ++ reads })) := by
  rw [searchStep] at h
  split_ifs at h with hle
  rw [middle_eq hl hle] at h
  dsimp only at h
  obtain ⟨hend, hreads⟩ :=
    scanDown_end stabs (Stab.isType · type) s.l (scanFuel s.l ((s.l + s.r) / 2))
    ((s.l + s.r) / 2) le_rfl
  generalize scanDown stabs (Stab.isType · type) s.l (scanFuel s.l ((s.l + s.r) / 2))
    ((s.l + s.r) / 2) = q at h hend hreads
  obtain ⟨m, reads⟩ := q
  have hprobe : Probe stabs type s.l s.r ((s.l + s.r) / 2) m := ⟨by omega, by omega, rfl, hend⟩
  have hin : ∀ i ∈ reads, s.l ≤ i ∧ i ≤ s.r :=
    fun i hi => ⟨(hreads i hi).1, (hreads i hi).2.trans hprobe.ge⟩
  dsimp only at h
  refine ⟨hle, (s.l + s.r) / 2, m, ?_⟩
  by_cases hmiss : m < s.l
  · rw [if_pos hmiss, Option.some.injEq] at h
    exact ⟨reads, hprobe, hin, .inl ⟨hmiss, h.symm⟩⟩
  have hm : s.l ≤ m := not_lt.mp hmiss
  have hmr : m ≤ s.r := hend.le.trans hprobe.ge
  have hin' : ∀ k, ∀ i ∈ reads ++ List.replicate k m, s.l ≤ i ∧ i ≤ s.r := by
    intro k i hi
    rcases List.mem_append.mp hi with hi | hi
    · exact hin i hi
    · rw [List.eq_of_mem_replicate hi]
      exact ⟨hm, hmr⟩
  rw [if_neg hmiss] at h
  by_cases hlt : (stabs m).nValue < s.addr
  · rw [if_pos hlt, Option.some.injEq] at h
    exact ⟨reads ++ List.replicate 1 m, hprobe, hin' 1,
      .inr (.inl ⟨hm, hlt, by rw [← h, ← List.append_assoc]; rfl⟩)⟩
  rw [if_neg hlt] at h
  by_cases hgt : (stabs m).nValue > s.addr
  · rw [if_pos hgt, Option.some.injEq] at h
    exact ⟨reads ++ List.replicate 2 m, hprobe, hin' 2,
      .inr (.inr (.inl ⟨hm, hgt, by rw [← h, ← List.append_assoc]; rfl⟩))⟩
  rw [if_neg hgt, Option.some.injEq] at h
  have heq : (stabs m).nValue = s.addr :=
    BitVec.eq_of_toNat_eq (le_antisymm (not_lt.mp hgt) (not_lt.mp hlt))
  exact ⟨reads ++ List.replicate 2 m, hprobe, hin' 2,
    .inr (.inr (.inr ⟨hm, heq, by rw [← h, ← List.append_assoc]; rfl⟩))⟩

/-- The search ends when the interval is empty. -/
theorem searchStep_none : searchStep stabs type s = none ↔ s.r < s.l := by
  rw [searchStep]
  constructor
  · intro h
    by_contra hle
    rw [if_pos (not_lt.mp hle)] at h
    dsimp only at h
    split_ifs at h
  · intro h
    rw [if_neg (not_le.mpr h)]

/-! ### The passes -/

/-- How many passes there can be: an exact match at `l` leaves the interval as it is, and is not one
in the next pass. -/
def passes (stabs : ℤ → Stab) (s : Search) : ℕ :=
  2 * (s.r + 1 - s.l).toNat + if (stabs s.l).nValue = s.addr then 1 else 0

theorem passes_lt (hl : 0 ≤ s.l ∨ s.r ≤ s.l) (h : searchStep stabs type s = some s') :
    passes stabs s' < passes stabs s ∧ (0 ≤ s'.l ∨ s'.r ≤ s'.l) := by
  obtain ⟨hle, t, m, reads, hprobe, -, ⟨hm, rfl⟩ | ⟨hm, -, rfl⟩ | ⟨hm, -, rfl⟩ | ⟨hm, hval, rfl⟩⟩ :=
    searchStep_cases hl h
  · have := hprobe.le
    simp only [passes]
    split_ifs <;> omega
  · have := hprobe.le
    simp only [passes]
    split_ifs <;> omega
  · have := hprobe.scan.le
    have := hprobe.ge
    simp only [passes]
    split_ifs <;> omega
  · simp only [passes]
    rcases Int.lt_or_eq_of_le hm with hlt | rfl
    · split_ifs <;> omega
    · have hnext : ¬ (stabs s.l).nValue = s.addr + 1 := by
        rw [hval]
        intro hsame
        have : s.addr.toNat = (s.addr + 1).toNat := congrArg BitVec.toNat hsame
        rw [BitVec.toNat_add] at this
        have hone : BitVec.toNat (1 : Word) = 1 := rfl
        have := s.addr.isLt
        omega
      rw [if_pos hval, if_neg hnext]
      omega

/-- **The search ends**, whatever the table. -/
theorem stabSearch_ends (stabs : ℤ → Stab) (type : ℤ) : ∀ (f : ℕ) (s : Search), 0 ≤ s.l ∨
    s.r ≤ s.l → passes stabs s < f →
    ∃ s', stabSearch stabs type f s = some s' := by
  intro f
  induction f with
  | zero =>
    intro s _ hf
    exact absurd hf (Nat.not_lt_zero _)
  | succ f ih =>
    intro s hl hf
    rw [stabSearch]
    cases hstep : searchStep stabs type s with
    | none => exact ⟨s, rfl⟩
    | some s' =>
      obtain ⟨hlt, hl'⟩ := passes_lt hl hstep
      exact ih s' hl' (by omega)

/-- **What every pass keeps** holds at the end. -/
theorem stabSearch_invariant {I : Search → Prop}
    (hstep : ∀ s s', I s → searchStep stabs type s = some s' → I s') :
    ∀ {f : ℕ} {s s' : Search}, stabSearch stabs type f s = some s' → I s → I s' ∧ s'.r < s'.l := by
  intro f
  induction f with
  | zero =>
    intro s s' h
    cases h
  | succ f ih =>
    intro s s' h hs
    rw [stabSearch] at h
    cases hone : searchStep stabs type s with
    | none =>
      rw [hone, Option.some.injEq] at h
      exact h ▸ ⟨hs, searchStep_none.mp hone⟩
    | some s₁ =>
      rw [hone] at h
      exact ih h (hstep _ _ hs hone)

/-! ### The entries of the type -/

/-- The value of an entry, as a number. -/
def Stab.value (x : Stab) : ℕ := x.nValue.toNat

/-- Entry `i` is in the range and of the type. -/
structure Entry (stabs : ℤ → Stab) (type L R i : ℤ) : Prop where
  ge : L ≤ i
  le : i ≤ R
  type : (stabs i).isType type = true

/-- `x` is the last entry of the type that is not above the address. -/
structure Containing (stabs : ℤ → Stab) (type L R : ℤ) (addr : Word) (x : ℤ) : Prop where
  entry : Entry stabs type L R x
  le : (stabs x).value ≤ addr.toNat
  last : ∀ i, x < i → Entry stabs type L R i → addr.toNat < (stabs i).value

theorem Containing.unique {x x' : ℤ} (h : Containing stabs type L R addr x)
    (h' : Containing stabs type L R addr x') : x = x' := by
  have hle := h.le
  have hle' := h'.le
  rcases lt_trichotomy x x' with hlt | heq | hgt
  · have := h.last x' hlt h'.entry
    omega
  · exact heq
  · have := h'.last x hgt h.entry
    omega

/-- Some entry contains the address, or all are above it. -/
theorem exists_containing (stabs : ℤ → Stab) (type L R : ℤ) (addr : Word) :
    (∃ x, Containing stabs type L R addr x) ∨ ∀ i, Entry stabs type L R i →
        addr.toNat < (stabs i).value := by
  by_cases h : ∃ i, Entry stabs type L R i ∧ (stabs i).value ≤ addr.toNat
  · obtain ⟨x, ⟨hx, hle⟩, hlast⟩ :=
      Int.exists_greatest_of_bdd (P := fun i => Entry stabs type L R i ∧
      (stabs i).value ≤ addr.toNat)
      ⟨R, fun i hi => hi.1.le⟩ h
    refine .inl ⟨x, hx, hle, fun i hi he => ?_⟩
    by_contra hle
    have := hlast i ⟨he, not_lt.mp hle⟩
    omega
  · exact .inr fun i hi => not_le.mp fun hle => h ⟨i, hi, hle⟩

/-- `y` is the next entry of the type after `x`. -/
structure NextEntry (stabs : ℤ → Stab) (type L R x y : ℤ) : Prop where
  entry : Entry stabs type L R y
  lt : x < y
  next : ∀ i, x < i → Entry stabs type L R i → y ≤ i

/-- The entries of the type are in strictly increasing order. -/
def Increasing (stabs : ℤ → Stab) (type L R : ℤ) : Prop :=
  ∀ i j, Entry stabs type L R i → Entry stabs type L R j → i < j → (stabs i).value < (stabs j).value

/-- The result that is asked for: the entry that contains the address, and the end of its region;
`left > right` when there is none. -/
structure Bracketing (stabs : ℤ → Stab) (type L R : ℤ) (addr : Word) (left right : ℤ) : Prop where
  found : ∀ x, Containing stabs type L R addr x → left = x
  next : ∀ x y, Containing stabs type L R addr x → NextEntry stabs type L R x y → right = y - 1
  last : ∀ x, Containing stabs type L R addr x → (∀ i, x < i → ¬ Entry stabs type L R i) → right = R
  outside : (∀ i, Entry stabs type L R i → addr.toNat < (stabs i).value) → left > right

/-- Halving `[l, r]` comes to `y` before `x`. -/
inductive NextFirst (stabs : ℤ → Stab) (type x y : ℤ) : ℤ → ℤ → Prop where
  | found {l r t : ℤ} : Probe stabs type l r t y → NextFirst stabs type x y l r
  | up {l r t m : ℤ} : Probe stabs type l r t m → m < x → NextFirst stabs type x y (t + 1) r →
    NextFirst stabs type x y l r
  | down {l r t m : ℤ} : Probe stabs type l r t m → y < m → NextFirst stabs type x y l (m - 1) →
    NextFirst stabs type x y l r

theorem Probe.unique {t' m' : ℤ} (h : Probe stabs type l r t m) (h' : Probe stabs type l r t' m') :
    t' = t ∧ m' = m := by
  obtain rfl : t' = t := h'.mid.trans h.mid.symm
  have hle := h.scan.le
  have hle' := h'.scan.le
  have hge := h.scan.ge (by have := h.le; omega)
  have hge' := h'.scan.ge (by have := h.le; omega)
  refine ⟨rfl, ?_⟩
  rcases lt_trichotomy m m' with hlt | heq | hgt
  · have hstop := h'.scan.stops (by omega)
    rw [h.scan.passed m' hlt hle'] at hstop
    cases hstop
  · exact heq.symm
  · have hstop := h.scan.stops (by omega)
    rw [h'.scan.passed m hgt hle] at hstop
    cases hstop

/-! ### What every search keeps -/

/-- The bounds of the search. -/
structure Bounds (stabs : ℤ → Stab) (type L R : ℤ) (s : Search) : Prop where
  le_l : L ≤ s.l
  r_le : s.r ≤ R
  right : s.right = s.r
  /-- The interval ends before an entry of the type, or has not become smaller on that side. -/
  edge : s.r = R ∨ Entry stabs type L R (s.r + 1)
  /-- As long as there was no match, nothing has been found out but that the entries of the type are
  ahead. -/
  quiet : s.anyMatches = false → s.left = L ∧ s.r = R ∧ ∀ i, Entry stabs type L R i → s.l ≤ i
  matched : s.anyMatches = true → ∃ i, Entry stabs type L R i

theorem Bounds.start : Bounds stabs type L R ⟨L, R, L, R, addr, false, []⟩ :=
  ⟨le_rfl, le_rfl, rfl, .inl rfl, fun _ => ⟨rfl, rfl, fun _ hi => hi.ge⟩, fun h => nomatch h⟩

/-- The entry a pass finds. -/
theorem Bounds.entry (h : Bounds stabs type L R s) (hp : Probe stabs type s.l s.r t m)
    (hm : s.l ≤ m) : Entry stabs type L R m :=
  ⟨h.le_l.trans hm, (hp.scan.le.trans hp.ge).trans h.r_le, hp.scan.stops hm⟩

/-- Between the entry a pass finds and the middle there is none. -/
theorem Probe.gap {i : ℤ} (hp : Probe stabs type l r t m) (hi : Entry stabs type L R i)
    (ht : i ≤ t) : i ≤ m := by
  by_contra hlt
  have hstop := hp.scan.passed i (not_le.mp hlt) ht
  rw [hi.type] at hstop
  cases hstop

theorem Bounds.step (hL : 0 ≤ L) (h : Bounds stabs type L R s)
    (hstep : searchStep stabs type s = some s') :
    Bounds stabs type L R s' := by
  obtain ⟨hle, t, m, reads, hp, -, ⟨hm, rfl⟩ | ⟨hm, -, rfl⟩ | ⟨hm, -, rfl⟩ | ⟨hm, -, rfl⟩⟩ :=
    searchStep_cases (.inl (hL.trans h.le_l)) hstep
  · have := hp.le
    have := hp.ge
    have := h.le_l
    exact ⟨by dsimp only; omega, h.r_le, h.right, h.edge, fun hq => ⟨(h.quiet hq).1,
      (h.quiet hq).2.1,
      fun i hi => by
        dsimp only
        by_contra hlt
        have := hp.gap hi (by omega)
        have := (h.quiet hq).2.2 i hi
        omega⟩, h.matched⟩
  · have := hp.le
    have := hp.ge
    have := h.le_l
    exact ⟨by dsimp only; omega, h.r_le, h.right, h.edge, (fun hq => nomatch hq), fun _ => ⟨m,
      h.entry hp hm⟩⟩
  · have he := h.entry hp hm
    have := he.le
    exact ⟨h.le_l, by dsimp only; omega, rfl, .inr (by dsimp only; rwa [Int.sub_add_cancel]),
      (fun hq => nomatch hq),
      fun _ => ⟨m, he⟩⟩
  · have he := h.entry hp hm
    have := hp.scan.le
    have := hp.ge
    exact ⟨he.ge, h.r_le, h.right, h.edge, (fun hq => nomatch hq), fun _ => ⟨m, he⟩⟩

/-- The result, from where the search ends, and what it has looked at. -/
theorem stabBinsearch_eq (hL : 0 ≤ L ∨ R ≤ L) : ∃ s',
    stabSearch stabs type (searchFuel L R) ⟨L, R, L, R, addr, false, []⟩ = some s' ∧
    ((s'.anyMatches = false ∧ stabBinsearch stabs L R type addr = some (s'.left, s'.left - 1,
      s'.reads)) ∨
      (s'.anyMatches = true ∧ ∃ e reads, ScanEnd stabs (Stab.isType · type)
        (s'.left + 1) s'.right e ∧
        (∀ i ∈ reads, s'.left + 1 ≤ i ∧ i ≤ s'.right) ∧
        stabBinsearch stabs L R type addr = some (e, s'.right, s'.reads ++ reads))) := by
  obtain ⟨s', hs'⟩ := stabSearch_ends stabs type (searchFuel L R) ⟨L, R, L, R, addr,
    false, []⟩ hL (by
    rw [passes, searchFuel]
    split_ifs <;> dsimp only <;> omega)
  refine ⟨s', hs', ?_⟩
  cases hany : s'.anyMatches with
  | false => exact .inl ⟨rfl, by rw [stabBinsearch, hs']; simp [hany]⟩
  | true =>
    obtain ⟨hend, hreads⟩ :=
      scanDown_end stabs (Stab.isType · type) (s'.left + 1)
      (scanFuel (s'.left + 1) s'.right) s'.right le_rfl
    exact .inr ⟨rfl, _, _, hend, hreads, by rw [stabBinsearch, hs']; simp [hany]⟩

/-! ### A search that finds the entry -/

/-- On the way to `x`: nothing on the wrong side of it has been put aside, and no later entry will
match. -/
structure Homing (stabs : ℤ → Stab) (type L R : ℤ) (addr : Word) (x : ℤ) (s : Search) : Prop where
  bounds : Bounds stabs type L R s
  before : ∀ i, Entry stabs type L R i → i < s.l → i ≤ x
  after : ∀ i, Entry stabs type L R i → s.r < i → x < i
  left : s.l ≤ x ∨ s.left = x
  /-- Before the exact match, if there is one, and after it. -/
  phase : s.addr = addr ∨ (s.addr = addr + 1 ∧ (stabs x).value = addr.toNat ∧ x ≤ s.l ∧ s.left = x)
  next : (stabs x).value = addr.toNat → addr.toNat + 1 < 2 ^ 32 ∧ ∀ y, Entry stabs type L R y →
    (stabs y).value = addr.toNat + 1 →
    s.r < y ∨ (s.addr = addr ∧ s.l ≤ x ∧ y ≤ s.r ∧ NextFirst stabs type x y s.l s.r)

theorem NextFirst.probe {x y : ℤ} (h : NextFirst stabs type x y l r)
    (hp : Probe stabs type l r t m) :
    m = y ∨ (m < x ∧ NextFirst stabs type x y (t + 1) r) ∨
        (y < m ∧ NextFirst stabs type x y l (m - 1)) := by
  cases h with
  | found hp' => exact .inl (hp.unique hp').2.symm
  | up hp' hm h =>
    obtain ⟨rfl, rfl⟩ := hp.unique hp'
    exact .inr (.inl ⟨hm, h⟩)
  | down hp' hm h =>
    obtain ⟨rfl, rfl⟩ := hp.unique hp'
    exact .inr (.inr ⟨hm, h⟩)

theorem toNat_add_one {w : Word} (h : w.toNat + 1 < 2 ^ 32) : (w + 1).toNat = w.toNat + 1 := by
  rw [BitVec.toNat_add, show BitVec.toNat (1 : Word) = 1 from rfl, Nat.mod_eq_of_lt h]

/-- The address the search is at is not below the one it began with. -/
theorem Homing.addr_ge {x : ℤ} (h : Homing stabs type L R addr x s) : addr.toNat ≤ s.addr.toNat ∧
    (s.addr.toNat = addr.toNat ∨ (s.addr.toNat = addr.toNat + 1 ∧ (stabs x).value = addr.toNat ∧
      x ≤ s.l ∧ s.left = x)) := by
  rcases h.phase with haddr | ⟨haddr, hval, hl, hleft⟩
  · rw [haddr]
    exact ⟨le_rfl, .inl rfl⟩
  · rw [haddr, toNat_add_one (h.next hval).1]
    exact ⟨Nat.le_succ _, .inr ⟨rfl, hval, hl, hleft⟩⟩

/-- Values and positions of entries are in the same order. -/
theorem Increasing.le (h : Increasing stabs type L R) {i j : ℤ} (hi : Entry stabs type L R i)
    (hj : Entry stabs type L R j)
    (hle : i ≤ j) : (stabs i).value ≤ (stabs j).value := by
  rcases Int.lt_or_eq_of_le hle with hlt | rfl
  · exact (h i j hi hj hlt).le
  · exact le_rfl

theorem Increasing.lt_of_lt (h : Increasing stabs type L R) {i j : ℤ} (hi : Entry stabs type L R i)
    (hj : Entry stabs type L R j)
    (hlt : (stabs i).value < (stabs j).value) : i < j := by
  by_contra hle
  exact absurd (h.le hj hi (not_lt.mp hle)) (not_le.mpr hlt)

/-- Entries at the next address come after the one that contains the address. -/
theorem Containing.lt_next {x y : ℤ} (hinc : Increasing stabs type L R)
    (hx : Containing stabs type L R addr x) (hy : Entry stabs type L R y)
    (hyv : (stabs y).value = addr.toNat + 1) : x < y := by
  have hxle := hx.le
  exact hinc.lt_of_lt hx.entry hy (by omega)

/-- An entry not above the address is not after the one that contains it. -/
theorem Containing.ge {x : ℤ} (hx : Containing stabs type L R addr x)
    (hm : Entry stabs type L R m) (hle : (stabs m).value ≤ addr.toNat) : m ≤ x := by
  by_contra hgt
  have := hx.last m (not_le.mp hgt) hm
  omega

/-- Nothing of the type up to the middle: the search goes on above it. -/
theorem Homing.miss {x : ℤ} {rs : List ℤ} (hinc : Increasing stabs type L R)
    (hx : Containing stabs type L R addr x) (h : Homing stabs type L R addr x s)
    (hp : Probe stabs type s.l s.r t m) (hm : m < s.l)
    (hbounds : Bounds stabs type L R { s with l := t + 1, reads := rs }) :
    Homing stabs type L R addr x { s with l := t + 1, reads := rs } := by
  have hmiss : ∀ i, Entry stabs type L R i → i ≤ t → i < s.l := fun i hi ht => by
    have := hp.gap hi ht
    omega
  have hxt : s.l ≤ x → t < x := fun hl => by
    by_contra hle
    have := hmiss x hx.entry (by omega)
    omega
  have hle := hp.le
  refine ⟨hbounds, fun i hi hlt => h.before i hi (hmiss i hi (by dsimp only at hlt; omega)),
    h.after, ?_, ?_, fun hval => ?_⟩
  · exact h.left.imp_left fun hl => hxt hl
  · exact h.phase.imp_right fun ⟨haddr, hval, hl, hleft⟩ =>
      ⟨haddr, hval, by dsimp only; omega, hleft⟩
  · obtain ⟨hmax, hnext⟩ := h.next hval
    refine ⟨hmax, fun y hy hyv => (hnext y hy hyv).imp_right fun ⟨haddr, hl, hr, hfirst⟩ =>
      ⟨haddr, hxt hl, hr, ?_⟩⟩
    have hxy := hx.lt_next hinc hy hyv
    rcases hfirst.probe hp with rfl | ⟨-, hfirst⟩ | ⟨hym, -⟩
    · omega
    · exact hfirst
    · omega

/-- An entry below the address: the search goes on above the middle. -/
theorem Homing.below {x : ℤ} {rs : List ℤ} (hinc : Increasing stabs type L R)
    (hx : Containing stabs type L R addr x) (h : Homing stabs type L R addr x s)
    (hp : Probe stabs type s.l s.r t m) (hm : s.l ≤ m)
    (hlt : (stabs m).value < s.addr.toNat)
    (hbounds :
      Bounds stabs type L R { s with left := m, l := t + 1, anyMatches := true, reads := rs }) :
    Homing stabs type L R addr x
      { s with left := m, l := t + 1, anyMatches := true, reads := rs } := by
  have he := h.bounds.entry hp hm
  have hmx : m ≤ x := by
    obtain ⟨-, haddr | ⟨haddr, -⟩⟩ := h.addr_ge
    · exact hx.ge he (by omega)
    · exact hx.ge he (by omega)
  have hxt : m < x → t < x := fun hlt => by
    by_contra hle
    have := hp.gap hx.entry (not_lt.mp hle)
    omega
  refine ⟨hbounds, fun i hi hlt => (hp.gap hi (by dsimp only at hlt; omega)).trans hmx, h.after,
    ?_, ?_, fun hval => ?_⟩
  · rcases Int.lt_or_eq_of_le hmx with hmx | hmx
    · exact .inl (hxt hmx)
    · exact .inr hmx
  · refine h.phase.imp_right fun ⟨haddr, hval, hl, _⟩ => ⟨haddr, hval, ?_, ?_⟩
    · have := hp.le
      dsimp only
      omega
    · exact le_antisymm hmx (hl.trans hm)
  · obtain ⟨hmax, hnext⟩ := h.next hval
    refine ⟨hmax, fun y hy hyv => (hnext y hy hyv).imp_right fun ⟨haddr, hl, hr, hfirst⟩ => ?_⟩
    have hxy := hx.lt_next hinc hy hyv
    rcases hfirst.probe hp with rfl | ⟨hlt, hfirst⟩ | ⟨hym, -⟩
    · omega
    · exact ⟨haddr, hxt hlt, hr, hfirst⟩
    · omega

/-- An entry above the address: the search goes on below it. -/
theorem Homing.above {x : ℤ} {rs : List ℤ} (hinc : Increasing stabs type L R)
    (hx : Containing stabs type L R addr x) (h : Homing stabs type L R addr x s)
    (hp : Probe stabs type s.l s.r t m) (hm : s.l ≤ m)
    (hgt : s.addr.toNat < (stabs m).value)
    (hbounds :
      Bounds stabs type L R { s with right := m - 1, r := m - 1, anyMatches := true, reads := rs }) :
    Homing stabs type L R addr x
      { s with right := m - 1, r := m - 1, anyMatches := true, reads := rs } := by
  have hxm : x < m := by
    have hxle := hx.le
    obtain ⟨hage, -⟩ := h.addr_ge
    exact hinc.lt_of_lt hx.entry (h.bounds.entry hp hm) (by omega)
  have hmr : m ≤ s.r := hp.scan.le.trans hp.ge
  refine ⟨hbounds, h.before,
    fun i hi hlt => by dsimp only at hlt; omega, h.left, h.phase, fun hval => ?_⟩
  obtain ⟨hmax, hnext⟩ := h.next hval
  refine ⟨hmax, fun y hy hyv => ?_⟩
  rcases hnext y hy hyv with hr | ⟨haddr, hl, hr, hfirst⟩
  · exact .inl (by dsimp only; omega)
  · rcases hfirst.probe hp with rfl | ⟨hlt, -⟩ | ⟨hym, hfirst⟩
    · exact .inl (by dsimp only; omega)
    · omega
    · exact .inr ⟨haddr, hl, by dsimp only; omega, hfirst⟩

/-- An entry at the address: it is the one looked for, and the search goes on from it with
the next address. There is no second one, since the next address was put aside before. -/
theorem Homing.hit {x : ℤ} {rs : List ℤ} (hinc : Increasing stabs type L R)
    (hx : Containing stabs type L R addr x) (h : Homing stabs type L R addr x s)
    (hp : Probe stabs type s.l s.r t m) (hm : s.l ≤ m)
    (heq : (stabs m).value = s.addr.toNat)
    (hbounds : Bounds stabs type L R
      { s with left := m, l := m, addr := s.addr + 1, anyMatches := true, reads := rs }) :
    Homing stabs type L R addr x
      { s with left := m, l := m, addr := s.addr + 1, anyMatches := true, reads := rs } := by
  have he := h.bounds.entry hp hm
  have hmr : m ≤ s.r := hp.scan.le.trans hp.ge
  obtain ⟨-, haddr | ⟨haddr, hval, -, -⟩⟩ := h.addr_ge
  · have hmx : m = x := by
      refine le_antisymm (hx.ge he (heq.trans haddr).le) ?_
      by_contra hlt
      have := hinc m x he hx.entry (not_le.mp hlt)
      have := hx.le
      omega
    subst hmx
    have haddr' : s.addr = addr := BitVec.eq_of_toNat_eq haddr
    have hval : (stabs m).value = addr.toNat := heq.trans haddr
    obtain ⟨hmax, hnext⟩ := h.next hval
    refine ⟨hbounds, fun i hi hlt => le_of_lt hlt, h.after, .inr rfl,
      .inr ⟨by rw [haddr'], hval, le_rfl, rfl⟩,
      fun _ => ⟨hmax, fun y hy hyv => ?_⟩⟩
    have hxy := hx.lt_next hinc hy hyv
    refine (hnext y hy hyv).imp_right fun ⟨_, _, hr, hfirst⟩ => ?_
    rcases hfirst.probe hp with rfl | ⟨hlt, -⟩ | ⟨hym, -⟩ <;> omega
  · rcases (h.next hval).2 m he (heq.trans haddr) with hr | ⟨hsame, -⟩
    · omega
    · rw [hsame] at haddr
      omega

theorem Homing.step {x : ℤ} (hL : 0 ≤ L) (hinc : Increasing stabs type L R)
    (hx : Containing stabs type L R addr x)
    (h : Homing stabs type L R addr x s) (hstep : searchStep stabs type s = some s') :
    Homing stabs type L R addr x s' := by
  have hbounds := h.bounds.step hL hstep
  obtain ⟨-, t, m, reads, hp, -, ⟨hm, rfl⟩ | ⟨hm, hlt, rfl⟩ | ⟨hm, hgt, rfl⟩ | ⟨hm, heq, rfl⟩⟩ :=
    searchStep_cases (.inl (hL.trans h.bounds.le_l)) hstep
  · exact h.miss hinc hx hp hm hbounds
  · exact h.below hinc hx hp hm hlt hbounds
  · exact h.above hinc hx hp hm hgt hbounds
  · exact h.hit hinc hx hp hm (congrArg BitVec.toNat heq) hbounds

/-- At the end of such a search the entry and its region have been found. -/
theorem Homing.finish {x e : ℤ} (hx : Containing stabs type L R addr x)
    (h : Homing stabs type L R addr x s) (hend : s.r < s.l)
    (he : ScanEnd stabs (Stab.isType · type) (s.left + 1) s.right e) :
    Bracketing stabs type L R addr e s.right := by
  have hbounds := h.bounds
  have hxr : x ≤ s.r := by
    by_contra hlt
    exact absurd (h.after x hx.entry (not_le.mp hlt)) (lt_irrefl x)
  have hleft : s.left = x := by
    rcases h.left with hl | hl
    · omega
    · exact hl
  have hright := hbounds.right
  have hex : e = x := by
    refine le_antisymm ?_ ?_
    · by_contra hlt
      have hentry : Entry stabs type L R e :=
        ⟨by have := hx.entry.ge; omega, by have := he.le; have := hbounds.r_le; omega,
        he.stops (by omega)⟩
      have := h.before e hentry (by have := he.le; omega)
      omega
    · have := he.ge (by omega)
      omega
  subst hex
  refine ⟨fun x' hx' => hx.unique hx', fun x' y hx' hy => ?_, fun x' hx' hnone => ?_,
    fun hout => ?_⟩
  · obtain rfl := hx'.unique hx
    -- the next entry is just after the interval
    have hyr : s.r < y := by
      by_contra hle
      have := h.before y hy.entry (by omega)
      have := hy.lt
      omega
    rcases hbounds.edge with hedge | hedge
    · have := hy.entry.le
      omega
    · have := hy.next (s.r + 1) (by omega) hedge
      omega
  · obtain rfl := hx'.unique hx
    rcases hbounds.edge with hedge | hedge
    · rw [hright, hedge]
    · exact absurd hedge (hnone (s.r + 1) (by omega))
  · have := hout _ hx.entry
    have := hx.le
    omega

/-! ### A search that goes past the entry -/

/-- The search matches `w` exactly, or has done so, and goes on from there. -/
inductive Late (stabs : ℤ → Stab) (type L R w : ℤ) (s : Search) : Prop where
  /-- It is looking for the address of `w`, which is ahead. -/
  | aim : s.addr.toNat = (stabs w).value → s.l ≤ w → w ≤ s.r → Late stabs type L R w s
  /-- It is past `w`, and will not come back. -/
  | past : Entry stabs type L R s.left → w ≤ s.left → s.left ≤ s.r → s.left ≤ s.l →
      (stabs s.left).value < s.addr.toNat →
      Late stabs type L R w s
  /-- It has matched the last address there is, and looks for the address 0. -/
  | wrapped : s.addr = 0 → s.left = s.l → s.l ≤ s.r → Entry stabs type L R s.left →
      (stabs s.left).value + 1 = 2 ^ 32 → w ≤ s.left →
      Late stabs type L R w s
  /-- It has put aside the entry that it matched. -/
  | stuck : s.left = s.l → s.r = s.l - 1 → Entry stabs type L R s.left →
      (stabs s.left).value + 1 = 2 ^ 32 → w ≤ s.left →
      Late stabs type L R w s

/-- After an exact match at `m`. -/
theorem Late.of_hit {w : ℤ} {right : ℤ} {reads : List ℤ} {any : Bool} (he : Entry stabs type L R m)
    (hval : (stabs m).value = addr.toNat)
    (hw : w ≤ m) (hr : m ≤ r) : Late stabs type L R w ⟨m, r, m, right, addr + 1, any, reads⟩ := by
  by_cases hmax : addr.toNat + 1 < 2 ^ 32
  · exact .past he hw hr le_rfl (by dsimp only; rw [toNat_add_one hmax]; omega)
  · have hzero : addr + 1 = 0 := by
      refine BitVec.eq_of_toNat_eq ?_
      have := addr.isLt
      rw [BitVec.toNat_add, show BitVec.toNat (1 : Word) = 1 from rfl,
        show addr.toNat + 1 = 2 ^ 32 by omega]
      rfl
    exact .wrapped hzero rfl hr he (by dsimp only; have := addr.isLt; omega) hw

theorem Late.step {w : ℤ} (hL : 0 ≤ L) (hinc : Increasing stabs type L R)
    (hw : Entry stabs type L R w) (hb : Bounds stabs type L R s)
    (h : Late stabs type L R w s) (hstep : searchStep stabs type s = some s') :
    Late stabs type L R w s' := by
  obtain ⟨hle, t, m, reads, hp, -, hcases⟩ := searchStep_cases (.inl (hL.trans hb.le_l)) hstep
  have hlt := hp.le
  have hge := hp.ge
  have hmt := hp.scan.le
  cases h with
  | aim haddr hl hr =>
    have hgap : t < w ∨ w ≤ m := by
      by_cases hle : w ≤ t
      · exact .inr (hp.gap hw hle)
      · exact .inl (not_le.mp hle)
    rcases hcases with ⟨hm, rfl⟩ | ⟨hm, hval, rfl⟩ | ⟨hm, hval, rfl⟩ | ⟨hm, hval, rfl⟩
    · exact .aim haddr (by dsimp only; omega) hr
    · have hval : (stabs m).value < s.addr.toNat := hval
      have := hinc.lt_of_lt (hb.entry hp hm) hw (by omega)
      exact .aim haddr (by dsimp only; omega) hr
    · have hval : s.addr.toNat < (stabs m).value := hval
      have := hinc.lt_of_lt hw (hb.entry hp hm) (by omega)
      exact .aim haddr hl (by dsimp only; omega)
    · have hval : (stabs m).value = s.addr.toNat := congrArg BitVec.toNat hval
      refine Late.of_hit (hb.entry hp hm) hval ?_ (hmt.trans hge)
      by_contra hlt
      have := hinc m w (hb.entry hp hm) hw (not_le.mp hlt)
      omega
  | past he hwl hlr hll hlval =>
    rcases hcases with ⟨hm, rfl⟩ | ⟨hm, hval, rfl⟩ | ⟨hm, hval, rfl⟩ | ⟨hm, hval, rfl⟩
    · exact .past he hwl hlr (by dsimp only; omega) hlval
    · exact .past (hb.entry hp hm) (by dsimp only; omega) (by dsimp only; omega)
        (by dsimp only; omega) hval
    · have hval : s.addr.toNat < (stabs m).value := hval
      have := hinc.lt_of_lt he (hb.entry hp hm) (by omega)
      exact .past he hwl (by dsimp only; omega) hll hlval
    · exact Late.of_hit (hb.entry hp hm) (congrArg BitVec.toNat hval) (by omega) (hmt.trans hge)
  | wrapped haddr hl hlr he hmax hwl =>
    have hleft := hp.gap he (by omega)
    have hzero : s.addr.toNat = 0 := by rw [haddr]; rfl
    have hm : s.l ≤ m := by omega
    have hbound : (stabs m).value < 2 ^ 32 := (stabs m).nValue.isLt
    have hsame : m = s.left := by
      refine le_antisymm ?_ hleft
      by_contra hlt
      have := hinc s.left m he (hb.entry hp hm) (not_le.mp hlt)
      omega
    rcases hcases with ⟨hm, rfl⟩ | ⟨-, hval, rfl⟩ | ⟨-, -, rfl⟩ | ⟨-, hval, rfl⟩
    · omega
    · have hval : (stabs m).value < s.addr.toNat := hval
      omega
    · exact .stuck hl (by dsimp only; omega) he hmax hwl
    · have hval : (stabs m).value = s.addr.toNat := congrArg BitVec.toNat hval
      rw [hsame] at hval
      omega
  | stuck hl hr _ _ _ => omega

/-- Where such a search ends. -/
theorem Late.finish {w e : ℤ} (hinc : Increasing stabs type L R) (hw : Entry stabs type L R w)
    (hb : Bounds stabs type L R s)
    (h : Late stabs type L R w s) (hend : s.r < s.l)
    (he : ScanEnd stabs (Stab.isType · type) (s.left + 1) s.right e) :
    ((stabs w).value + 1 < 2 ^ 32 ∧ w ≤ e) ∨
      ∃ z, Entry stabs type L R z ∧ (stabs z).value + 1 = 2 ^ 32 ∧ w ≤ z ∧ e = z - 1 ∧
          s.right = z - 1 := by
  have hright := hb.right
  cases h with
  | aim _ hl hr => omega
  | past hentry hwl hlr hll hval =>
    have := hinc.le hw hentry hwl
    have := s.addr.isLt
    have := he.ge (by omega)
    exact .inl ⟨by omega, by omega⟩
  | wrapped _ _ hlr _ _ _ => omega
  | stuck hl hr hentry hmax hwl =>
    have := he.empty (by omega)
    exact .inr ⟨s.left, hentry, hmax, hwl, by omega, by omega⟩

/-- Before the exact match of `x`, with the entry `y` at the next address ahead. -/
def Missing (stabs : ℤ → Stab) (type L R : ℤ) (addr : Word) (x y : ℤ) (s : Search) : Prop :=
  (s.addr = addr ∧ s.l ≤ x ∧ y ≤ s.r ∧ ¬ NextFirst stabs type x y s.l s.r) ∨ Late stabs type L R y s

theorem Missing.step {x y : ℤ} (hL : 0 ≤ L) (hinc : Increasing stabs type L R)
    (hx : Entry stabs type L R x)
    (hxv : (stabs x).value = addr.toNat) (hy : Entry stabs type L R y)
    (hyv : (stabs y).value = addr.toNat + 1)
    (hb : Bounds stabs type L R s) (h : Missing stabs type L R addr x y s)
    (hstep : searchStep stabs type s = some s') :
    Missing stabs type L R addr x y s' := by
  rcases h with ⟨haddr, hl, hr, hfirst⟩ | h
  · obtain ⟨hle, t, m, reads, hp, -, hcases⟩ := searchStep_cases (.inl (hL.trans hb.le_l)) hstep
    have hxy := hinc.lt_of_lt hx hy (by omega)
    have hgap : t < x ∨ x ≤ m := by
      by_cases hle : x ≤ t
      · exact .inr (hp.gap hx hle)
      · exact .inl (not_le.mp hle)
    have hmt := hp.scan.le
    have hge := hp.ge
    rcases hcases with ⟨hm, rfl⟩ | ⟨hm, hval, rfl⟩ | ⟨hm, hval, rfl⟩ | ⟨hm, hval, rfl⟩
    · exact .inl ⟨haddr, by dsimp only; omega, hr, fun h => hfirst (.up hp (by omega) h)⟩
    · have hval : (stabs m).value < s.addr.toNat := hval
      rw [haddr] at hval
      have := hinc.lt_of_lt (hb.entry hp hm) hx (by omega)
      exact .inl ⟨haddr, by dsimp only; omega, hr, fun h => hfirst (.up hp this h)⟩
    · have hval : s.addr.toNat < (stabs m).value := hval
      rw [haddr] at hval
      have hym : y < m := by
        by_contra hle
        rcases Int.lt_or_eq_of_le (not_lt.mp hle) with hlt | rfl
        · have := hinc m y (hb.entry hp hm) hy hlt
          omega
        · exact hfirst (.found hp)
      exact .inl ⟨haddr, hl, by dsimp only; omega, fun h => hfirst (.down hp hym h)⟩
    · have hval : (stabs m).value = s.addr.toNat := congrArg BitVec.toNat hval
      have hmx : m < y := hinc.lt_of_lt (hb.entry hp hm) hy (by rw [hval, haddr, hyv]; omega)
      have hmax : addr.toNat + 1 < 2 ^ 32 := hyv ▸ (stabs y).nValue.isLt
      refine .inr (.aim ?_ hmx.le hr)
      dsimp only
      rw [haddr, toNat_add_one hmax, hyv]
  · exact .inr (h.step hL hinc hy hb hstep)

/-! ### The result -/

/-- `stab_binsearch` does what its comment says. -/
def BinsearchFinds (stabs : ℤ → Stab) (type L R : ℤ) (addr : Word) : Prop :=
  ∃ left right reads, stabBinsearch stabs L R type addr = some (left, right, reads) ∧
    Bracketing stabs type L R addr left right

/-- When it does: there is no entry of the type, or one contains the address and is not missed. It
is missed after an exact match, when the address is the last there is, or when the next address has
an entry too that halving does not come to first (but for a slip that makes good the other, at the
very end of the address space). -/
def NotMissed (stabs : ℤ → Stab) (type L R : ℤ) (addr : Word) : Prop :=
  (∀ i, ¬ Entry stabs type L R i) ∨ ∃ x, Containing stabs type L R addr x ∧
    ((stabs x).value < addr.toNat ∨ (addr ≠ 0xffffffff ∧ ∀ y, Entry stabs type L R y →
      (stabs y).value = addr.toNat + 1 →
      NextFirst stabs type x y L R ∨ (y = x + 1 ∧ addr = 0xfffffffe)))

/-- Every pass keeps the bounds, and with them what else it keeps. -/
theorem stabSearch_bounds {I : Search → Prop} (hL : 0 ≤ L)
    (hstep : ∀ s s', Bounds stabs type L R s → I s → searchStep stabs type s = some s' → I s')
    {f : ℕ}
    (h : stabSearch stabs type f s = some s') (hb : Bounds stabs type L R s) (hs : I s) :
    Bounds stabs type L R s' ∧ I s' ∧ s'.r < s'.l := by
  obtain ⟨⟨hb', hs'⟩, hend⟩ := stabSearch_invariant (I := fun s => Bounds stabs type L R s ∧ I s)
    (fun s s' hs h => ⟨hs.1.step hL h, hstep s s' hs.1 hs.2 h⟩) h ⟨hb, hs⟩
  exact ⟨hb', hs', hend⟩

/-- Without an entry of the type the search says so. -/
theorem finds_of_none (hL : 0 ≤ L) (hnone : ∀ i, ¬ Entry stabs type L R i) :
    BinsearchFinds stabs type L R addr := by
  obtain ⟨s', hs', ⟨-, hres⟩ | ⟨hany, -⟩⟩ := @stabBinsearch_eq stabs type L R addr (.inl hL)
  · exact ⟨_, _, _, hres, fun x hx => absurd hx.entry (hnone x), fun x _ hx =>
      absurd hx.entry (hnone x),
      fun x hx => absurd hx.entry (hnone x), fun _ => by omega⟩
  · obtain ⟨hb, -, -⟩ := stabSearch_bounds (I := fun _ => True) hL
      (fun _ _ _ _ _ => trivial) hs' Bounds.start trivial
    obtain ⟨i, hi⟩ := hb.matched hany
    exact absurd hi (hnone i)

/-- With one, the result is where the search ends. -/
theorem finds_result (hL : 0 ≤ L) {i : ℤ} (hi : Entry stabs type L R i) : ∃ s' e reads,
    stabSearch stabs type (searchFuel L R) ⟨L, R, L, R, addr, false, []⟩ = some s' ∧
      ScanEnd stabs (Stab.isType · type) (s'.left + 1) s'.right e ∧
      stabBinsearch stabs L R type addr = some (e, s'.right, reads) := by
  obtain ⟨s', hs', ⟨hany, -⟩ | ⟨-, e, reads, he, -, hres⟩⟩ :=
    @stabBinsearch_eq stabs type L R addr (.inl hL)
  · obtain ⟨hb, -, hend⟩ := stabSearch_bounds (I := fun _ => True) hL
      (fun _ _ _ _ _ => trivial) hs' Bounds.start trivial
    obtain ⟨-, hr, hahead⟩ := hb.quiet hany
    have := hahead i hi
    have := hi.le
    omega
  · exact ⟨s', e, s'.reads ++ reads, hs', he, hres⟩

/-- The search for `x` begins. -/
theorem Homing.start {x : ℤ} (hx : Containing stabs type L R addr x)
    (hnext : (stabs x).value = addr.toNat → addr.toNat + 1 < 2 ^ 32 ∧ ∀ y, Entry stabs type L R y →
    (stabs y).value = addr.toNat + 1 →
      NextFirst stabs type x y L R) : Homing stabs type L R addr x ⟨L, R, L, R, addr,
      false, []⟩ where
  bounds := Bounds.start
  before _ hi hlt := absurd hi.ge (not_le.mpr hlt)
  after _ hi hlt := absurd hi.le (not_le.mpr hlt)
  left := .inl hx.entry.ge
  phase := .inl rfl
  next hval := ⟨(hnext hval).1, fun y hy hyv =>
    .inr ⟨rfl, hx.entry.ge, hy.le, (hnext hval).2 y hy hyv⟩⟩

/-- The exact match of the last address there is goes wrong. -/
theorem not_bracketing_max {x e : ℤ} (hL : 0 ≤ L) (hinc : Increasing stabs type L R)
    (hx : Containing stabs type L R addr x)
    (hval : (stabs x).value = addr.toNat) (hmax : addr.toNat + 1 = 2 ^ 32)
    (hs' : stabSearch stabs type (searchFuel L R) ⟨L, R, L, R, addr, false, []⟩ = some s')
    (he : ScanEnd stabs (Stab.isType · type) (s'.left + 1) s'.right e) :
    ¬ Bracketing stabs type L R addr e s'.right := by
  obtain ⟨hb, hlate, hend⟩ :=
    stabSearch_bounds hL (fun _ _ hb h hstep => h.step hL hinc hx.entry hb hstep) hs' Bounds.start
    (Late.aim hval.symm hx.entry.ge hx.entry.le)
  intro hbr
  rcases hlate.finish hinc hx.entry hb hend he with ⟨hlt, -⟩ | ⟨z, hz, hzv, hxz, hez, -⟩
  · omega
  · have := hbr.found x hx
    rcases Int.lt_or_eq_of_le hxz with hlt | rfl
    · have := hinc x z hx.entry hz hlt
      omega
    · omega

/-- With an entry at the next address that halving does not come to first, the search ends at it or
later, unless that is the last address there is. -/
theorem bracketing_missing_iff {x y e : ℤ} (hL : 0 ≤ L) (hinc : Increasing stabs type L R)
    (hx : Containing stabs type L R addr x)
    (hval : (stabs x).value = addr.toNat) (hy : Entry stabs type L R y)
    (hyv : (stabs y).value = addr.toNat + 1)
    (hfirst : ¬ NextFirst stabs type x y L R)
    (hs' : stabSearch stabs type (searchFuel L R) ⟨L, R, L, R, addr, false, []⟩ = some s')
    (he : ScanEnd stabs (Stab.isType · type) (s'.left + 1) s'.right e) :
    Bracketing stabs type L R addr e s'.right ↔ y = x + 1 ∧ addr.toNat + 2 = 2 ^ 32 := by
  have hxy : x < y := hinc.lt_of_lt hx.entry hy (by omega)
  obtain ⟨hb, hmissing, hend⟩ := stabSearch_bounds hL
    (fun _ _ hb h hstep => Missing.step hL hinc hx.entry hval hy hyv hb h hstep) hs' Bounds.start
    (.inl ⟨rfl, hx.entry.ge, hy.le, hfirst⟩ : Missing stabs type L R addr x y _)
  rcases hmissing with ⟨-, hl, hr, -⟩ | hlate
  · omega
  rcases hlate.finish hinc hy hb hend he with ⟨hlt, hye⟩ | ⟨z, hz, hzv, hyz, hez, hright⟩
  · constructor
    · intro hbr
      have := hbr.found x hx
      omega
    · omega
  · constructor
    · intro hbr
      have := hbr.found x hx
      obtain rfl : y = z := by omega
      exact ⟨by omega, by omega⟩
    · rintro ⟨hyx, hmax⟩
      have hyz : y = z := by
        rcases Int.lt_or_eq_of_le hyz with hlt | heq
        · have := hinc y z hy hz hlt
          omega
        · exact heq
      refine ⟨fun x' hx' => ?_, fun x' y' hx' hy' => ?_, fun x' hx' hnone => ?_, fun hout => ?_⟩
      · rw [hx'.unique hx]
        omega
      · obtain rfl := hx'.unique hx
        have := hy'.next y hxy hy
        have := hy'.lt
        omega
      · obtain rfl := hx'.unique hx
        exact absurd hy (hnone y hxy)
      · have := hout x hx.entry
        omega

/-- **`stab_binsearch` is right exactly when** the entry is not missed. -/
theorem stabBinsearch_iff (stabs : ℤ → Stab) (type : ℤ) {L R : ℤ} (addr : Word) (hL : 0 ≤ L)
    (hinc : Increasing stabs type L R) :
    BinsearchFinds stabs type L R addr ↔ NotMissed stabs type L R addr := by
  by_cases hnone : ∀ i, ¬ Entry stabs type L R i
  · exact ⟨fun _ => .inl hnone, fun _ => finds_of_none hL hnone⟩
  rw [not_forall] at hnone
  obtain ⟨i, hi⟩ := hnone
  rw [not_not] at hi
  obtain ⟨s', e, reads, hs', he, hres⟩ := @finds_result stabs type L R addr hL i hi
  have hiff : BinsearchFinds stabs type L R addr ↔ Bracketing stabs type L R addr e s'.right := by
    constructor
    · rintro ⟨left, right, reads', hres', hb⟩
      rw [hres, Option.some.injEq, Prod.mk.injEq, Prod.mk.injEq] at hres'
      obtain ⟨rfl, rfl, -⟩ := hres'
      exact hb
    · exact fun hb => ⟨e, s'.right, reads, hres, hb⟩
  rw [hiff]
  rcases exists_containing stabs type L R addr with ⟨x, hx⟩ | hout
  swap
  · -- all entries are above the address
    constructor
    · intro hb
      have := hb.outside hout
      have := he.le
      omega
    · rintro (hnone | ⟨x, hx, -⟩)
      · exact absurd hi (hnone i)
      · have := hout x hx.entry
        have := hx.le
        omega
  have hle := hx.le
  have hmissed : NotMissed stabs type L R addr ↔
      ((stabs x).value < addr.toNat ∨ (addr ≠ 0xffffffff ∧
      ∀ y, Entry stabs type L R y → (stabs y).value = addr.toNat + 1 →
      NextFirst stabs type x y L R ∨ (y = x + 1 ∧ addr = 0xfffffffe))) := by
    constructor
    · rintro (hnone | ⟨x', hx', h⟩)
      · exact absurd hi (hnone i)
      · exact hx'.unique hx ▸ h
    · exact fun h => .inr ⟨x, hx, h⟩
  rw [hmissed]
  -- the search finds `x` when what it meets is as it should be
  have hfound : ((stabs x).value = addr.toNat → addr.toNat + 1 < 2 ^ 32 ∧ ∀ y,
      Entry stabs type L R y →
      (stabs y).value = addr.toNat + 1 → NextFirst stabs type x y L R) →
      Bracketing stabs type L R addr e s'.right := by
    intro hnext
    obtain ⟨-, hhoming, hend⟩ :=
      stabSearch_bounds hL (fun _ _ _ h hstep => Homing.step hL hinc hx h hstep) hs' Bounds.start
      (Homing.start hx hnext)
    exact hhoming.finish hx hend he
  rcases Nat.lt_or_eq_of_le hle with hlt | hval
  · exact ⟨fun _ => .inl hlt, fun _ => hfound fun hval => absurd hval (Nat.ne_of_lt hlt)⟩
  have hmaxiff : addr = 0xffffffff ↔ addr.toNat + 1 = 2 ^ 32 := by
    rw [← BitVec.toNat_inj, show BitVec.toNat (0xffffffff : Word) = 2 ^ 32 - 1 from rfl]
    omega
  have hmaxiff' : addr = 0xfffffffe ↔ addr.toNat + 2 = 2 ^ 32 := by
    rw [← BitVec.toNat_inj, show BitVec.toNat (0xfffffffe : Word) = 2 ^ 32 - 2 from rfl]
    omega
  by_cases hmax : addr = 0xffffffff
  · constructor
    · exact fun hb => absurd hb (not_bracketing_max hL hinc hx hval (hmaxiff.mp hmax) hs' he)
    · rintro (hlt | ⟨hne, -⟩)
      · exact absurd hval (Nat.ne_of_lt hlt)
      · exact absurd hmax hne
  by_cases hnext : ∀ y, Entry stabs type L R y → (stabs y).value = addr.toNat + 1 →
    NextFirst stabs type x y L R
  · have hroom : addr.toNat + 1 < 2 ^ 32 := by
      have := addr.isLt
      have := mt hmaxiff.mpr hmax
      omega
    exact ⟨fun _ => .inr ⟨hmax, fun y hy hyv => .inl (hnext y hy hyv)⟩, fun _ => hfound fun _ =>
      ⟨hroom, hnext⟩⟩
  · simp only [not_forall] at hnext
    obtain ⟨y, hy, hyv, hfirst⟩ := hnext
    rw [bracketing_missing_iff hL hinc hx hval hy hyv hfirst hs' he, ← hmaxiff']
    constructor
    · rintro ⟨hyx, hlast⟩
      refine .inr ⟨hmax, fun y' hy' hyv' => .inr ⟨?_, hlast⟩⟩
      -- only one entry is at that address
      rcases lt_trichotomy y y' with hlt | rfl | hgt
      · have := hinc y y' hy hy' hlt
        omega
      · exact hyx
      · have := hinc y' y hy' hy hgt
        omega
    · rintro (hlt | ⟨-, h⟩)
      · exact absurd hval (Nat.ne_of_lt hlt)
      · exact (h y hy hyv).resolve_left hfirst

/-- Two source files at the addresses `a` and `b`, entries 0 and 1 of a table. -/
def twoFiles (a b : Word) (i : ℤ) : Stab := if i = 0 then ⟨0, 0x64, a⟩
    else if i = 1 then ⟨0, 0x64, b⟩ else ⟨0, 0x44, 0⟩

theorem twoFiles_containing {a b : Word} (ha : a.toNat ≤ addr.toNat) (hb : addr.toNat < b.toNat) :
    Containing (twoFiles a b) N_SO 0 1 addr 0 where
  entry := ⟨le_rfl, by decide, rfl⟩
  le := ha
  last i hi he := by
    obtain rfl : i = 1 := le_antisymm he.le hi
    exact hb

theorem twoFiles_increasing {a b : Word} (h : a.toNat < b.toNat) :
    Increasing (twoFiles a b) N_SO 0 1 := by
  intro i j hi hj hlt
  have := hi.ge
  have := hj.le
  obtain rfl : i = 0 := by omega
  obtain rfl : j = 1 := by omega
  exact h

theorem binsearchFinds_twoFiles :
    BinsearchFinds (twoFiles 0xf0100000 0xf0100040) N_SO 0 1 0xf0100010 :=
  (stabBinsearch_iff (twoFiles 0xf0100000 0xf0100040) N_SO 0xf0100010 le_rfl
    (twoFiles_increasing (by decide))).mpr
    (.inr ⟨0, twoFiles_containing (by decide) (by decide), .inl (by decide)⟩)

/-- Looking for the first of two entries one address apart gives the second; and an address before
both is given an entry. -/
theorem not_binsearchFinds :
    ¬ BinsearchFinds (twoFiles 0x10 0x11) N_SO 0 1 0x10 ∧
        ¬ BinsearchFinds (twoFiles 0x10 0x20) N_SO 0 1 0x5 := by
  refine ⟨?_, ?_⟩
  · rintro ⟨left, right, reads, h, hb⟩
    have hres : (stabBinsearch (twoFiles 0x10 0x11) 0 1 N_SO 0x10).map (fun q => q.1) =
      some 1 := by decide
    rw [h] at hres
    have hleft : left = 1 := Option.some.inj hres
    have hfound := hb.found 0 (twoFiles_containing (by decide) (by decide))
    omega
  · rintro ⟨left, right, reads, h, hb⟩
    have hres : (stabBinsearch (twoFiles 0x10 0x20) 0 1 N_SO 0x5).map (fun q => (q.1, q.2.1)) =
      some (-1, -1) := by decide
    rw [h] at hres
    have hsame : (left, right) = (-1, -1) := Option.some.inj hres
    obtain ⟨rfl, rfl⟩ := Prod.mk.inj hsame
    refine absurd (hb.outside fun i hi => ?_) (lt_irrefl _)
    have := hi.ge
    have := hi.le
    obtain rfl | rfl : i = 0 ∨ i = 1 := by omega
    · decide
    · decide

end JOS
