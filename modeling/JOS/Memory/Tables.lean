import JOS.Kern.Boot

/-!
# What the pages of physical memory are

Nothing in memory says what a page is used for: a page directory, a page table and user
data are all words. `Kind` is that use, and `Tables` says that directories and tables
are where the kinds say they are: every present directory entry of an environment names
a table of its own, and every present entry of a table names a page of user data. Each
way in which the kernel writes to a table keeps this; the lemmas below also say what
each does to the entries a user program sees (`upte`).
-/

namespace JOS

open Function (update)

/-- `w` is a present entry, for the page `p`. -/
def Names (w : Word) (p : ℕ) : Prop := test w PTE_P = true ∧ PGNUM w = p

instance (w : Word) (p : ℕ) : Decidable (Names w p) := inferInstanceAs (Decidable (_ ∧ _))

theorem not_names_zero (p : ℕ) : ¬ Names 0 p := by
  rintro ⟨h, -⟩
  rw [test_zero] at h
  cases h

theorem names_unique {w : Word} {p q : ℕ} (hp : Names w p) (hq : Names w q) : p = q :=
  hp.2.symm.trans hq.2

theorem names_mkPte {p : ℕ} {perm : Word} (hp : p < 2 ^ 20) (hf : IsFlags perm) :
    Names (mkPte p perm) p :=
  ⟨test_mkPte_P p perm, PGNUM_mkPte hp hf⟩

/-- Memory with word `i` of page `p` replaced. -/
def setW (phys : ℕ → ℕ → Word) (p i : ℕ) (w : Word) : ℕ → ℕ → Word :=
  update phys p (update (phys p) i w)

section SetW

variable {phys : ℕ → ℕ → Word} {p q i j : ℕ} {w : Word}

@[simp] theorem setW_self : setW phys p i w p i = w := by simp [setW]

theorem setW_of_ne (h : q ≠ p) : setW phys p i w q = phys q := by simp [setW, h]

theorem setW_of_ne_index (h : j ≠ i) : setW phys p i w q j = phys q j := by
  by_cases hq : q = p
  · subst hq; simp [setW, h]
  · rw [setW_of_ne hq]

end SetW

/-! ### The entries of an environment -/

/-- The entry for page `v` in the directory `d`; `0` when there is no table. -/
def dirPte (phys : ℕ → ℕ → Word) (d v : ℕ) : Word :=
  if test (phys d (v / 1024)) PTE_P then phys (PGNUM (phys d (v / 1024))) (v % 1024) else 0

/-- The entry for the user page `v` of environment `e`, when `D` gives the directories. -/
def upte (phys : ℕ → ℕ → Word) (D : ℕ → Option ℕ) (e v : ℕ) : Word :=
  match D e with
  | some d => if v < NUPAGES then dirPte phys d v else 0
  | none => 0

/-- The use of a page. -/
inductive Kind where
  /-- Not managed by the page allocator. -/
  | reserved
  /-- A page table of the kernel's half. -/
  | kern
  /-- On the free list. -/
  | free
  /-- Handed out, and not in use yet or no longer. -/
  | held
  /-- User data. -/
  | data
  /-- The page directory of an environment. -/
  | dir (e : ℕ)
  /-- The page table of an environment for an entry of its directory. -/
  | table (e i : ℕ)
  deriving DecidableEq

/-- The page is no table. -/
def Kind.Loose : Kind → Prop
  | .free => True
  | .held => True
  | .data => True
  | _ => False

/-- The page is not on the free list, and no environment has it. -/
def Kind.Aside : Kind → Prop
  | .reserved => True
  | .kern => True
  | .held => True
  | _ => False

/-- Entry `i` of the kernel's directory `kd` names the table `p` of the kernel's half. -/
def KernEntry (phys : ℕ → ℕ → Word) (kd i p : ℕ) : Prop :=
  NUPDX ≤ i ∧ i < NPDENTRIES ∧ i ≠ PDX UVPT ∧ Names (phys kd i) p

/-- Directories and tables are where the kinds say; `kd` is the kernel's directory. -/
structure Tables (kd : ℕ) (phys : ℕ → ℕ → Word) (D : ℕ → Option ℕ) (k : ℕ → Kind) : Prop where
  /-- The kernel's directory comes from `boot_alloc`. -/
  kernPgdir : k kd = .reserved
  /-- Its user half is empty. -/
  kernUser : ∀ i < NUPDX, phys kd i = 0
  /-- The tables of its other half. -/
  kern : ∀ p, k p = .kern ↔ ∃ i, KernEntry phys kd i p
  /-- They differ. -/
  kern_inj : ∀ i j p, KernEntry phys kd i p → KernEntry phys kd j p → i = j
  /-- Only environments of the table have directories. -/
  bound : ∀ e, D e ≠ none → e < NENV
  /-- The directory of each environment is its own. -/
  dir : ∀ e d, D e = some d ↔ k d = .dir e
  /-- So is the table of each entry of it, -/
  pde : ∀ e d i, D e = some d → i < NUPDX → test (phys d i) PTE_P = true →
    k (PGNUM (phys d i)) = .table e i
  /-- and there are no other tables. -/
  table : ∀ p e i, k p = .table e i → i < NUPDX ∧ ∃ d, D e = some d ∧ Names (phys d i) p
  /-- What a table maps is user data. -/
  pte : ∀ p e i j, k p = .table e i → j < 1024 → test (phys p j) PTE_P = true →
    k (PGNUM (phys p j)) = .data

variable {kd : ℕ} {phys phys' : ℕ → ℕ → Word} {D : ℕ → Option ℕ} {k : ℕ → Kind} {d e i j p t v : ℕ}
  {w : Word} {x : Kind}

theorem upte_of_dir (hd : D e = some d) (hv : v < NUPAGES) : upte phys D e v = dirPte phys d v := by
  simp only [upte, hd, if_pos hv]

theorem upte_of_none (h : D e = none) : upte phys D e v = 0 := by simp only [upte, h]

theorem div_lt_NUPDX (hv : v < NUPAGES) : v / 1024 < NUPDX := by
  unfold NUPAGES at hv; unfold NUPDX; omega

theorem table_div (hj : j < 1024) : (i * 1024 + j) / 1024 = i := by omega

theorem table_mod (hj : j < 1024) : (i * 1024 + j) % 1024 = j := by omega

namespace Tables

/-- A table of an environment, reached through its directory. -/
theorem upte_table (h : Tables kd phys D k) (ht : k t = .table e i) (hj : j < 1024) :
    upte phys D e (i * 1024 + j) = phys t j := by
  obtain ⟨hi, d, hd, hP, rfl⟩ := h.table t e i ht
  have hv : i * 1024 + j < NUPAGES := by
    unfold NUPDX at hi; unfold NUPAGES; omega
  rw [upte_of_dir hd hv, dirPte, table_div hj, table_mod hj, if_pos hP]

/-- Where a present entry is. -/
theorem of_present (h : Tables kd phys D k) (hP : test (upte phys D e v) PTE_P = true) :
    v < NUPAGES ∧ ∃ d t, D e = some d ∧ Names (phys d (v / 1024)) t ∧ k t = .table e (v / 1024) ∧
      upte phys D e v = phys t (v % 1024) := by
  cases hd : D e with
  | none =>
    rw [upte_of_none hd, test_zero] at hP
    cases hP
  | some d =>
    by_cases hv : v < NUPAGES
    · rw [upte_of_dir hd hv, dirPte] at hP ⊢
      split_ifs at hP ⊢ with hpde
      · exact ⟨hv, d, _, rfl, ⟨hpde, rfl⟩, h.pde e d _ hd (div_lt_NUPDX hv) hpde, rfl⟩
      · rw [test_zero] at hP
        cases hP
    · simp only [upte, hd, if_neg hv] at hP
      rw [test_zero] at hP
      cases hP

/-- **What a user program sees is user data.** -/
theorem data_of_names (h : Tables kd phys D k) (hn : Names (upte phys D e v) p) : k p = .data := by
  obtain ⟨hP, rfl⟩ := hn
  obtain ⟨-, d, t, -, -, ht, hw⟩ := h.of_present hP
  rw [hw] at hP ⊢
  exact h.pte t e _ _ ht (Nat.mod_lt _ (by decide)) hP

theorem lt_of_names (h : Tables kd phys D k) (hn : Names (upte phys D e v) p) : e < NENV ∧
    v < NUPAGES := by
  obtain ⟨hv, d, t, hd, -⟩ := h.of_present hn.1
  exact ⟨h.bound e (by rw [hd]; exact Option.some_ne_none d), hv⟩

/-! ### Writes elsewhere -/

/-- Only directories and tables matter. -/
theorem upte_congr (h : Tables kd phys D k) (hp : ∀ p, ¬ (k p).Loose → phys' p = phys p) :
    upte phys' D e v = upte phys D e v := by
  cases hd : D e with
  | none => rw [upte_of_none hd, upte_of_none hd]
  | some d =>
    by_cases hv : v < NUPAGES
    · have hdir : phys' d = phys d := hp d (by rw [(h.dir e d).mp hd]; exact id)
      rw [upte_of_dir hd hv, upte_of_dir hd hv, dirPte, dirPte, hdir]
      by_cases hP : test (phys d (v / 1024)) PTE_P = true
      · rw [if_pos hP, if_pos hP, hp _ (by rw [h.pde e d _ hd (div_lt_NUPDX hv) hP]; exact id)]
      · rw [if_neg hP, if_neg hP]
    · simp only [upte, hd, if_neg hv]

theorem congr (h : Tables kd phys D k) (hp : ∀ p, ¬ (k p).Loose → phys' p = phys p) :
    Tables kd phys' D k := by
  have hkd : phys' kd = phys kd := hp kd (by rw [h.kernPgdir]; exact id)
  have hdir : ∀ e d, D e = some d → phys' d = phys d :=
    fun e d hd => hp d (by rw [(h.dir e d).mp hd]; exact id)
  have htable : ∀ t e i, k t = .table e i → phys' t = phys t :=
    fun t e i ht => hp t (by rw [ht]; exact id)
  refine ⟨h.kernPgdir, ?_, ?_, ?_, h.bound, h.dir, ?_, ?_, ?_⟩
  · rw [hkd]; exact h.kernUser
  · simp only [KernEntry, hkd]; exact h.kern
  · simp only [KernEntry, hkd]; exact h.kern_inj
  · intro e d i hd
    rw [hdir e d hd]
    exact h.pde e d i hd
  · intro p e i hp
    obtain ⟨hi, d, hd, hn⟩ := h.table p e i hp
    exact ⟨hi, d, hd, by rw [hdir e d hd]; exact hn⟩
  · intro p e i j hp
    rw [htable p e i hp]
    exact h.pte p e i j hp

/-- A page that is no table changes its use. It stays or becomes user data if an entry names it. -/
theorem retag (h : Tables kd phys D k) (hp : (k p).Loose) (hx : x.Loose)
    (hno : x ≠ .data → ∀ e v, ¬ Names (upte phys D e v) p) : Tables kd phys D (update k p x) := by
  -- a page of another use is not `p`
  have hne : ∀ {q y}, k q = y → ¬ y.Loose → q ≠ p := by
    rintro q y hq hy rfl
    exact hy (hq ▸ hp)
  have hupd : ∀ {q y}, update k p x q = y → ¬ y.Loose → q ≠ p := by
    rintro q y hq hy rfl
    rw [Function.update_self] at hq
    exact hy (hq ▸ hx)
  refine ⟨?_, h.kernUser, fun q => ?_, h.kern_inj, h.bound, fun e d => ?_, fun e d i hd hi hP => ?_,
    fun q e i hq => ?_,
    fun q e i j hq hj hP => ?_⟩
  · rw [Function.update_of_ne (hne h.kernPgdir id)]
    exact h.kernPgdir
  · rw [← h.kern]
    constructor <;> intro hq
    · rwa [Function.update_of_ne (hupd hq id)] at hq
    · rwa [Function.update_of_ne (hne hq id)]
  · rw [h.dir]
    constructor <;> intro hq
    · rwa [Function.update_of_ne (hne hq id)]
    · rwa [Function.update_of_ne (hupd hq id)] at hq
  · have ht := h.pde e d i hd hi hP
    rwa [Function.update_of_ne (hne ht id)]
  · rw [Function.update_of_ne (hupd hq id)] at hq
    exact h.table q e i hq
  · rw [Function.update_of_ne (hupd hq id)] at hq
    have hdata := h.pte q e i j hq hj hP
    by_cases hpq : PGNUM (phys q j) = p
    · by_cases hxd : x = .data
      · rw [hpq, Function.update_self, hxd]
      · exact absurd ⟨by rwa [h.upte_table hq hj], by rwa [h.upte_table hq hj]⟩
          (hno hxd e (i * 1024 + j))
    · rwa [Function.update_of_ne hpq]

/-! ### Writes to a table -/

/-- An entry of a table is overwritten, with one for user data. -/
theorem setPte (h : Tables kd phys D k) (ht : k t = .table e i)
    (hw : test w PTE_P = true → k (PGNUM w) = .data) : Tables kd (setW phys t j w) D k := by
  have hne : ∀ {q y}, k q = y → y ≠ .table e i → q ≠ t := by
    rintro q y hq hy rfl
    exact hy (hq.symm.trans ht)
  have hkd : setW phys t j w kd = phys kd := setW_of_ne (hne h.kernPgdir nofun)
  have hdir : ∀ e' d, D e' = some d → setW phys t j w d = phys d :=
    fun e' d hd => setW_of_ne (hne ((h.dir e' d).mp hd) nofun)
  refine ⟨h.kernPgdir, ?_, ?_, ?_, h.bound, h.dir, ?_, ?_, ?_⟩
  · rw [hkd]; exact h.kernUser
  · simp only [KernEntry, hkd]; exact h.kern
  · simp only [KernEntry, hkd]; exact h.kern_inj
  · intro e' d i' hd
    rw [hdir e' d hd]
    exact h.pde e' d i' hd
  · intro p e' i' hp
    obtain ⟨hi, d, hd, hn⟩ := h.table p e' i' hp
    exact ⟨hi, d, hd, by rw [hdir e' d hd]; exact hn⟩
  · intro p e' i' j' hp hj' hP
    by_cases hpt : p = t
    · by_cases hjj : j' = j
      · rw [hpt, hjj, setW_self] at hP ⊢
        exact hw hP
      · rw [setW_of_ne_index hjj] at hP ⊢
        exact h.pte p e' i' j' hp hj' hP
    · rw [setW_of_ne hpt] at hP ⊢
      exact h.pte p e' i' j' hp hj' hP

/-- The program sees the new entry, and no other change. -/
theorem upte_setPte (h : Tables kd phys D k) (ht : k t = .table e i) (hj : j < 1024) (e' v' : ℕ) :
    upte (setW phys t j w) D e' v' = if e' = e ∧ v' = i * 1024 + j then w
        else upte phys D e' v' := by
  have hdir : ∀ d, D e' = some d → setW phys t j w d = phys d := by
    refine fun d hd => setW_of_ne ?_
    rintro rfl
    have := ((h.dir e' d).mp hd).symm.trans ht
    cases this
  cases hd : D e' with
  | none =>
    have hne : e' ≠ e := by
      rintro rfl
      obtain ⟨-, d, hd', -⟩ := h.table t e' i ht
      rw [hd] at hd'
      cases hd'
    rw [upte_of_none hd, upte_of_none hd, if_neg fun h => hne h.1]
  | some d =>
    by_cases hv : v' < NUPAGES
    · rw [upte_of_dir hd hv, upte_of_dir hd hv, dirPte, dirPte, hdir d hd]
      by_cases hP : test (phys d (v' / 1024)) PTE_P = true
      · rw [if_pos hP, if_pos hP]
        have ht' := h.pde e' d _ hd (div_lt_NUPDX hv) hP
        by_cases hpt : PGNUM (phys d (v' / 1024)) = t
        · -- the entry is in the same table
          rw [hpt, ht] at ht'
          injection ht' with he hi
          subst he
          by_cases hjj : v' % 1024 = j
          · rw [if_pos ⟨rfl, by omega⟩, hpt, hjj, setW_self]
          · rw [if_neg (fun h => hjj (by omega)), setW_of_ne_index hjj]
        · rw [setW_of_ne hpt, if_neg]
          rintro ⟨rfl, rfl⟩
          obtain ⟨-, d', hd', hn⟩ := h.table t e' i ht
          rw [hd] at hd'
          cases hd'
          rw [table_div hj] at hpt
          exact hpt hn.2
      · rw [if_neg hP, if_neg hP, if_neg]
        rintro ⟨rfl, rfl⟩
        obtain ⟨-, d', hd', hn⟩ := h.table t e' i ht
        rw [hd] at hd'
        cases hd'
        rw [table_div hj] at hP
        exact hP hn.1
    · simp only [upte, hd, if_neg hv]
      rw [if_neg]
      rintro ⟨rfl, rfl⟩
      obtain ⟨hi, -⟩ := h.table t e' i ht
      unfold NUPDX at hi
      unfold NUPAGES at hv
      exact absurd hj (by omega)

/-! ### Writes to a directory -/

/-- An entry of a directory is overwritten with one that names the same table. -/
theorem orPde (h : Tables kd phys D k) (hd : D e = some d) (hP : test (phys d i) PTE_P = true)
    (hw : Names w (PGNUM (phys d i))) : Tables kd (setW phys d i w) D k := by
  have hne : ∀ {q y}, k q = y → y ≠ .dir e → q ≠ d := by
    rintro q y hq hy rfl
    exact hy (hq.symm.trans ((h.dir e q).mp hd))
  have hkd : setW phys d i w kd = phys kd := setW_of_ne (hne h.kernPgdir nofun)
  -- what any directory entry names has not changed
  have hnames : ∀ d' i' t, Names (setW phys d i w d' i') t ↔ Names (phys d' i') t := by
    intro d' i' t
    by_cases hdd : d' = d
    · by_cases hii : i' = i
      · rw [hdd, hii, setW_self, Names, Names, hw.1, hw.2, hP]
      · rw [setW_of_ne_index hii]
    · rw [setW_of_ne hdd]
  refine ⟨h.kernPgdir, ?_, ?_, ?_, h.bound, h.dir, ?_, ?_, ?_⟩
  · rw [hkd]; exact h.kernUser
  · simp only [KernEntry, hkd]; exact h.kern
  · simp only [KernEntry, hkd]; exact h.kern_inj
  · intro e' d' i' hd' hi' hP'
    have hn := (hnames d' i' _).mp ⟨hP', rfl⟩
    rw [← hn.2]
    exact h.pde e' d' i' hd' hi' hn.1
  · intro p e' i' hp
    obtain ⟨hi, d', hd', hn⟩ := h.table p e' i' hp
    exact ⟨hi, d', hd', (hnames _ _ _).mpr hn⟩
  · intro p e' i' j' hp
    rw [setW_of_ne (hne hp nofun)]
    exact h.pte p e' i' j' hp

/-- The program does not see it. -/
theorem upte_orPde (h : Tables kd phys D k) (hd : D e = some d) (hP : test (phys d i) PTE_P = true)
    (hw : Names w (PGNUM (phys d i))) (e' v' : ℕ) :
    upte (setW phys d i w) D e' v' = upte phys D e' v' := by
  cases hd' : D e' with
  | none => rw [upte_of_none hd', upte_of_none hd']
  | some d' =>
    by_cases hv : v' < NUPAGES
    · have htable : ∀ t e i', k t = .table e i' → setW phys d i w t = phys t := by
        refine fun t e' i' ht => setW_of_ne ?_
        rintro rfl
        have := ((h.dir e t).mp hd).symm.trans ht
        cases this
      have hsame : test (setW phys d i w d' (v' / 1024)) PTE_P = test (phys d' (v' / 1024)) PTE_P ∧
          PGNUM (setW phys d i w d' (v' / 1024)) = PGNUM (phys d' (v' / 1024)) := by
        by_cases hdd : d' = d
        · by_cases hii : v' / 1024 = i
          · rw [hdd, hii, setW_self, hw.1, hw.2, hP]
            exact ⟨rfl, rfl⟩
          · rw [setW_of_ne_index hii]
            exact ⟨rfl, rfl⟩
        · rw [setW_of_ne hdd]
          exact ⟨rfl, rfl⟩
      rw [upte_of_dir hd' hv, upte_of_dir hd' hv, dirPte, dirPte, hsame.1, hsame.2]
      by_cases hP' : test (phys d' (v' / 1024)) PTE_P = true
      · rw [if_pos hP', if_pos hP', htable _ _ _ (h.pde e' d' _ hd' (div_lt_NUPDX hv) hP')]
      · rw [if_neg hP', if_neg hP']
    · simp only [upte, hd', if_neg hv]

/-- An empty page becomes the table for an entry of a directory that has none. -/
theorem newTable (h : Tables kd phys D k) (hp : k p = .held) (hzero : ∀ j < 1024, phys p j = 0)
    (hd : D e = some d)
    (hi : i < NUPDX) (hP : test (phys d i) PTE_P ≠ true) (hw : Names w p) :
    Tables kd (setW phys d i w) D (update k p (.table e i)) := by
  have hne : ∀ {q y}, k q = y → y ≠ .dir e → q ≠ d := by
    rintro q y hq hy rfl
    exact hy (hq.symm.trans ((h.dir e q).mp hd))
  have hnep : ∀ {q y}, k q = y → y ≠ .held → q ≠ p := by
    rintro q y hq hy rfl
    exact hy (hq.symm.trans hp)
  have hpd : p ≠ d := hne hp nofun
  have hkd : setW phys d i w kd = phys kd := setW_of_ne (hne h.kernPgdir nofun)
  -- the entries that were present are still the same
  have hold : ∀ d' i' t, Names (phys d' i') t → setW phys d i w d' i' = phys d' i' := by
    intro d' i' t hn
    by_cases hdd : d' = d
    · refine setW_of_ne_index ?_
      rintro rfl
      rw [hdd] at hn
      exact hP hn.1
    · rw [setW_of_ne hdd]
  refine ⟨?_, ?_, fun q => ?_, ?_, h.bound, fun e' d' => ?_, fun e' d' i' hd' hi' hP' => ?_,
    fun q e' i' hq => ?_,
    fun q e' i' j' hq hj hP' => ?_⟩
  · rw [Function.update_of_ne (hnep h.kernPgdir nofun)]
    exact h.kernPgdir
  · rw [hkd]; exact h.kernUser
  · simp only [KernEntry, hkd]
    rw [show (∃ i, NUPDX ≤ i ∧ i < NPDENTRIES ∧ i ≠ PDX UVPT ∧ Names (phys kd i) q) ↔
      k q = .kern from (h.kern q).symm]
    by_cases hqp : q = p
    · simp [hqp, hp]
    · rw [Function.update_of_ne hqp]
  · simp only [KernEntry, hkd]; exact h.kern_inj
  · rw [h.dir]
    by_cases hqp : d' = p
    · simp [hqp, hp]
    · rw [Function.update_of_ne hqp]
  · by_cases hdi : d' = d ∧ i' = i
    · obtain ⟨rfl, rfl⟩ := hdi
      rw [setW_self, hw.2, Function.update_self]
      have := ((h.dir e' d').mp hd').symm.trans ((h.dir e d').mp hd)
      injection this with this
      rw [this]
    · have hsame : setW phys d i w d' i' = phys d' i' := by
        by_cases hdd : d' = d
        · exact setW_of_ne_index fun h => hdi ⟨hdd, h⟩
        · rw [setW_of_ne hdd]
      rw [hsame] at hP' ⊢
      have ht := h.pde e' d' i' hd' hi' hP'
      rwa [Function.update_of_ne (hnep ht nofun)]
  · by_cases hqp : q = p
    · rw [hqp, Function.update_self] at hq
      injection hq with he' hi'
      rw [← he', ← hi', hqp]
      exact ⟨hi, d, hd, by rw [setW_self]; exact hw⟩
    · rw [Function.update_of_ne hqp] at hq
      obtain ⟨hi', d', hd', hn⟩ := h.table q e' i' hq
      exact ⟨hi', d', hd', by rw [hold _ _ _ hn]; exact hn⟩
  · by_cases hqp : q = p
    · rw [hqp, setW_of_ne hpd, hzero j' hj, test_zero] at hP'
      cases hP'
    · rw [Function.update_of_ne hqp] at hq
      rw [setW_of_ne (hne hq nofun)] at hP' ⊢
      have hdata := h.pte q e' i' j' hq hj hP'
      rwa [Function.update_of_ne (hnep hdata nofun)]

/-- The program does not see an empty table. -/
theorem upte_newTable (h : Tables kd phys D k) (hp : k p = .held) (hzero : ∀ j < 1024, phys p j = 0)
    (hd : D e = some d) (hP : test (phys d i) PTE_P ≠ true) (hw : Names w p) (e' v' : ℕ) :
    upte (setW phys d i w) D e' v' = upte phys D e' v' := by
  have hne : ∀ {q y}, k q = y → y ≠ .dir e → q ≠ d := by
    rintro q y hq hy rfl
    exact hy (hq.symm.trans ((h.dir e q).mp hd))
  cases hd' : D e' with
  | none => rw [upte_of_none hd', upte_of_none hd']
  | some d' =>
    by_cases hv : v' < NUPAGES
    · rw [upte_of_dir hd' hv, upte_of_dir hd' hv, dirPte, dirPte]
      by_cases hdi : d' = d ∧ v' / 1024 = i
      · obtain ⟨rfl, rfl⟩ := hdi
        rw [setW_self, if_pos hw.1, if_neg hP, hw.2, setW_of_ne (hne hp nofun),
          hzero _ (Nat.mod_lt _ (by decide))]
      · have hsame : setW phys d i w d' (v' / 1024) = phys d' (v' / 1024) := by
          by_cases hdd : d' = d
          · exact setW_of_ne_index fun h => hdi ⟨hdd, h⟩
          · rw [setW_of_ne hdd]
        rw [hsame]
        by_cases hP' : test (phys d' (v' / 1024)) PTE_P = true
        · have ht := h.pde e' d' _ hd' (div_lt_NUPDX hv) hP'
          rw [if_pos hP', if_pos hP', setW_of_ne (hne ht nofun)]
        · rw [if_neg hP', if_neg hP']
    · simp only [upte, hd', if_neg hv]

/-- An entry of a directory is cleared when its table is empty; the table is no table any more. -/
theorem clearPde (h : Tables kd phys D k) (hd : D e = some d) (hi : i < NUPDX)
    (hn : Names (phys d i) t)
    (hempty : ∀ j < 1024, test (phys t j) PTE_P ≠ true) :
    Tables kd (setW phys d i 0) D (update k t .held) := by
  have ht : k t = .table e i := by rw [← hn.2]; exact h.pde e d i hd hi hn.1
  have hne : ∀ {q y}, k q = y → y ≠ .dir e → q ≠ d := by
    rintro q y hq hy rfl
    exact hy (hq.symm.trans ((h.dir e q).mp hd))
  have hnet : ∀ {q y}, k q = y → y ≠ .table e i → q ≠ t := by
    rintro q y hq hy rfl
    exact hy (hq.symm.trans ht)
  have hkd : setW phys d i 0 kd = phys kd := setW_of_ne (hne h.kernPgdir nofun)
  have hsame : ∀ {d' i'}, ¬ (d' = d ∧ i' = i) → setW phys d i 0 d' i' = phys d' i' := by
    intro d' i' hdi
    by_cases hdd : d' = d
    · exact setW_of_ne_index fun h => hdi ⟨hdd, h⟩
    · rw [setW_of_ne hdd]
  refine ⟨?_, ?_, fun q => ?_, ?_, h.bound, fun e' d' => ?_, fun e' d' i' hd' hi' hP' => ?_,
    fun q e' i' hq => ?_,
    fun q e' i' j' hq hj hP' => ?_⟩
  · rw [Function.update_of_ne (hnet h.kernPgdir nofun)]
    exact h.kernPgdir
  · rw [hkd]; exact h.kernUser
  · simp only [KernEntry, hkd]
    rw [show (∃ i, NUPDX ≤ i ∧ i < NPDENTRIES ∧ i ≠ PDX UVPT ∧ Names (phys kd i) q) ↔
      k q = .kern from (h.kern q).symm]
    by_cases hqt : q = t
    · simp [hqt, ht]
    · rw [Function.update_of_ne hqt]
  · simp only [KernEntry, hkd]; exact h.kern_inj
  · rw [h.dir]
    by_cases hqt : d' = t
    · simp [hqt, ht]
    · rw [Function.update_of_ne hqt]
  · by_cases hdi : d' = d ∧ i' = i
    · rw [hdi.1, hdi.2, setW_self, test_zero] at hP'
      cases hP'
    · rw [hsame hdi] at hP' ⊢
      have ht' := h.pde e' d' i' hd' hi' hP'
      rwa [Function.update_of_ne (hnet ht' ?_)]
      intro he
      injection he with he hi
      subst he hi
      rw [hd] at hd'
      cases hd'
      exact hdi ⟨rfl, rfl⟩
  · by_cases hqt : q = t
    · rw [hqt, Function.update_self] at hq
      cases hq
    · rw [Function.update_of_ne hqt] at hq
      obtain ⟨hi', d', hd', hn'⟩ := h.table q e' i' hq
      refine ⟨hi', d', hd', ?_⟩
      rw [hsame]
      · exact hn'
      · rintro ⟨rfl, rfl⟩
        exact hqt (hn'.2.symm.trans hn.2)
  · by_cases hqt : q = t
    · rw [hqt, Function.update_self] at hq
      cases hq
    · rw [Function.update_of_ne hqt] at hq
      rw [setW_of_ne (hne hq nofun)] at hP' ⊢
      have hdata := h.pte q e' i' j' hq hj hP'
      rwa [Function.update_of_ne (hnet hdata nofun)]

/-- The program does not see it either, but for entries that were not present. -/
theorem upte_clearPde (h : Tables kd phys D k) (hd : D e = some d) (e' v' : ℕ) :
    upte (setW phys d i 0) D e' v' = if e' = e ∧ v' / 1024 = i then 0 else upte phys D e' v' := by
  have hne : ∀ {q y}, k q = y → y ≠ .dir e → q ≠ d := by
    rintro q y hq hy rfl
    exact hy (hq.symm.trans ((h.dir e q).mp hd))
  cases hd' : D e' with
  | none => rw [upte_of_none hd', upte_of_none hd', ite_self]
  | some d' =>
    have hiff : d' = d ↔ e' = e := by
      constructor
      · rintro rfl
        have := ((h.dir e' d').mp hd').symm.trans ((h.dir e d').mp hd)
        injection this
      · rintro rfl
        rw [hd] at hd'
        exact (Option.some.inj hd').symm
    by_cases hv : v' < NUPAGES
    · rw [upte_of_dir hd' hv, upte_of_dir hd' hv, dirPte, dirPte]
      by_cases hdi : d' = d ∧ v' / 1024 = i
      · rw [if_pos (c := e' = e ∧ _) ⟨hiff.mp hdi.1, hdi.2⟩, hdi.1, hdi.2, setW_self,
          if_neg (by rw [test_zero]; exact Bool.false_ne_true)]
      · have hsame : setW phys d i 0 d' (v' / 1024) = phys d' (v' / 1024) := by
          by_cases hdd : d' = d
          · exact setW_of_ne_index fun h => hdi ⟨hdd, h⟩
          · rw [setW_of_ne hdd]
        rw [hsame, if_neg (c := e' = e ∧ _) fun h => hdi ⟨hiff.mpr h.1, h.2⟩]
        by_cases hP' : test (phys d' (v' / 1024)) PTE_P = true
        · have ht := h.pde e' d' _ hd' (div_lt_NUPDX hv) hP'
          rw [if_pos hP', if_pos hP', setW_of_ne (hne ht nofun)]
        · rw [if_neg hP', if_neg hP']
    · simp only [upte, hd', if_neg hv, ite_self]

/-! ### New and old directories -/

/-- A page with an empty user half becomes the directory of an environment. -/
theorem newDir (h : Tables kd phys D k) (hp : k p = .held) (hzero : ∀ i < NUPDX, phys p i = 0)
    (he : D e = none)
    (hbound : e < NENV) : Tables kd phys (update D e (some p)) (update k p (.dir e)) := by
  have hnep : ∀ {q y}, k q = y → y ≠ .held → q ≠ p := by
    rintro q y hq hy rfl
    exact hy (hq.symm.trans hp)
  have hD : ∀ {e' d'}, D e' = some d' → update D e (some p) e' = some d' := by
    intro e' d' hd'
    rw [Function.update_of_ne, hd']
    rintro rfl
    rw [he] at hd'
    cases hd'
  refine ⟨?_, h.kernUser, fun q => ?_, h.kern_inj, fun e' he' => ?_, fun e' d' => ?_,
    fun e' d' i' hd' hi' hP' => ?_, fun q e' i' hq => ?_, fun q e' i' j' hq hj hP' => ?_⟩
  · rw [Function.update_of_ne (hnep h.kernPgdir nofun)]
    exact h.kernPgdir
  · rw [← h.kern]
    by_cases hqp : q = p
    · simp [hqp, hp]
    · rw [Function.update_of_ne hqp]
  · by_cases hee : e' = e
    · rw [hee]; exact hbound
    · rw [Function.update_of_ne hee] at he'
      exact h.bound e' he'
  · by_cases hee : e' = e
    · subst hee
      rw [Function.update_self]
      constructor
      · rintro ⟨⟩
        exact Function.update_self _ _ _
      · intro hk
        by_cases hdp : d' = p
        · rw [hdp]
        · rw [Function.update_of_ne hdp] at hk
          rw [(h.dir e' d').mpr hk] at he
          cases he
    · rw [Function.update_of_ne hee, h.dir]
      by_cases hdp : d' = p
      · simp [hdp, hp, Ne.symm hee]
      · rw [Function.update_of_ne hdp]
  · by_cases hee : e' = e
    · subst hee
      rw [Function.update_self] at hd'
      cases hd'
      rw [hzero i' hi', test_zero] at hP'
      cases hP'
    · rw [Function.update_of_ne hee] at hd'
      have ht := h.pde e' d' i' hd' hi' hP'
      rwa [Function.update_of_ne (hnep ht nofun)]
  · by_cases hqp : q = p
    · rw [hqp, Function.update_self] at hq
      cases hq
    · rw [Function.update_of_ne hqp] at hq
      obtain ⟨hi', d', hd', hn⟩ := h.table q e' i' hq
      exact ⟨hi', d', hD hd', hn⟩
  · by_cases hqp : q = p
    · rw [hqp, Function.update_self] at hq
      cases hq
    · rw [Function.update_of_ne hqp] at hq
      have hdata := h.pte q e' i' j' hq hj hP'
      rwa [Function.update_of_ne (hnep hdata nofun)]

/-- A new environment has no pages. -/
theorem upte_newDir (hzero : ∀ i < NUPDX, phys p i = 0) (he : D e = none) (e' v' : ℕ) :
    upte phys (update D e (some p)) e' v' = upte phys D e' v' := by
  by_cases hee : e' = e
  · subst hee
    rw [upte_of_none he]
    by_cases hv : v' < NUPAGES
    · rw [upte_of_dir (Function.update_self _ _ _) hv, dirPte, hzero _ (div_lt_NUPDX hv),
        if_neg (by rw [test_zero]; exact Bool.false_ne_true)]
    · simp only [upte, Function.update_self, if_neg hv]
  · simp only [upte, Function.update_of_ne hee]

/-- An environment whose directory is empty gives it up. -/
theorem dropDir (h : Tables kd phys D k) (hd : D e = some d)
    (hempty : ∀ i < NUPDX, test (phys d i) PTE_P ≠ true) :
    Tables kd phys (update D e none) (update k d .held) := by
  have hkd : k d = .dir e := (h.dir e d).mp hd
  have hned : ∀ {q y}, k q = y → y ≠ .dir e → q ≠ d := by
    rintro q y hq hy rfl
    exact hy (hq.symm.trans hkd)
  have hD : ∀ {e' d'}, update D e none e' = some d' → e' ≠ e ∧ D e' = some d' := by
    intro e' d' hd'
    by_cases hee : e' = e
    · rw [hee, Function.update_self] at hd'
      cases hd'
    · rw [Function.update_of_ne hee] at hd'
      exact ⟨hee, hd'⟩
  refine ⟨?_, h.kernUser, fun q => ?_, h.kern_inj, fun e' he' => ?_, fun e' d' => ?_,
    fun e' d' i' hd' hi' hP' => ?_, fun q e' i' hq => ?_, fun q e' i' j' hq hj hP' => ?_⟩
  · rw [Function.update_of_ne (hned h.kernPgdir nofun)]
    exact h.kernPgdir
  · rw [← h.kern]
    by_cases hqd : q = d
    · simp [hqd, hkd]
    · rw [Function.update_of_ne hqd]
  · obtain ⟨d', hd'⟩ := Option.ne_none_iff_exists'.mp he'
    exact h.bound e' (by rw [(hD hd').2]; exact Option.some_ne_none d')
  · by_cases hee : e' = e
    · rw [hee, Function.update_self]
      refine ⟨nofun, fun hk => ?_⟩
      by_cases hdd : d' = d
      · rw [hdd, Function.update_self] at hk
        cases hk
      · rw [Function.update_of_ne hdd, ← h.dir, hd] at hk
        exact absurd (Option.some.inj hk).symm hdd
    · rw [Function.update_of_ne hee, h.dir]
      by_cases hdd : d' = d
      · simp [hdd, hkd, Ne.symm hee]
      · rw [Function.update_of_ne hdd]
  · have ht := h.pde e' d' i' (hD hd').2 hi' hP'
    rwa [Function.update_of_ne (hned ht nofun)]
  · by_cases hqd : q = d
    · rw [hqd, Function.update_self] at hq
      cases hq
    · rw [Function.update_of_ne hqd] at hq
      obtain ⟨hi', d', hd', hn⟩ := h.table q e' i' hq
      have hee : e' ≠ e := by
        rintro rfl
        rw [hd] at hd'
        cases hd'
        exact hempty i' hi' hn.1
      exact ⟨hi', d', by rw [Function.update_of_ne hee, hd'], hn⟩
  · by_cases hqd : q = d
    · rw [hqd, Function.update_self] at hq
      cases hq
    · rw [Function.update_of_ne hqd] at hq
      have hdata := h.pte q e' i' j' hq hj hP'
      rwa [Function.update_of_ne (hned hdata nofun)]

end Tables

end JOS
