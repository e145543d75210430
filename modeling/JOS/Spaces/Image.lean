import JOS.Memory.PageInsert
import JOS.Memory.Regions
import JOS.Memory.Bytes
import JOS.Memory.UserMem
import Mathlib.Order.Interval.Finset.Nat

/-!
# The image of a program

`load_icode` fills the user's half of a page directory. `Image` is what it keeps: the pages `T` are
mapped, each to a frame of its own from the free list, and no others. A page is added by
`region_alloc` (`Image.page`), bytes are written by `memmove` and `memset` (`Image.bytes`), and
either leaves the bytes of the pages that are there (`Kept`). `EnoughFree` counts the free pages
that the rest will take: one for each page, and one for each table.
-/

namespace JOS

open JOS.General

variable {m m' m₁ m₂ : Mem} {l₀ l l' l₁ : List ℕ} {T T' A R : Finset ℕ} {d i n p q t v : ℕ}
  {va a fin w pte : Word}
  {f : ℕ → BitVec 8}

/-- Directory `d` maps the pages `T`, and no others below `UTOP`, to frames of their own, which were
free when the list was `l₀`. -/
structure Image (l₀ : List ℕ) (d : ℕ) (m : Mem) (l : List ℕ) (T : Finset ℕ) : Prop where
  paging : Paging m d (· < NUPDX) l
  dir : d ∉ l₀
  sub : l ⊆ l₀
  user : ∀ v ∈ T, v < NUPAGES
  frame : ∀ v ∈ T, ∃ p, dirPte m.phys d v = mkPte p (PTE_W ||| PTE_U) ∧ p < 2 ^ 20 ∧
    p ∈ l₀ ∧ p ∉ l ∧
    ∀ i < NUPDX, ¬ Names (m.phys d i) p
  /-- Directory entries allow what the entries of the tables do. -/
  pde : ∀ v ∈ T, m.phys d (v / 1024) &&& (PTE_W ||| PTE_U) = PTE_W ||| PTE_U
  /-- Different pages have different frames. -/
  inj : ∀ v ∈ T, ∀ v' ∈ T, ∀ p, Names (dirPte m.phys d v) p → Names (dirPte m.phys d v') p → v = v'
  rest : ∀ v < NUPAGES, v ∉ T → test (dirPte m.phys d v) PTE_P ≠ true

/-- There are free pages for the pages `A` that are not mapped yet, and for their tables. -/
def EnoughFree (A : Finset ℕ) (d : ℕ) (m : Mem) (l : List ℕ) (T : Finset ℕ) : Prop :=
  (A \ T).card + (lacking m d (A.image (· / 1024))).card ≤ l.length

/-- The bytes of the pages `T` are as before. -/
def Kept (d : ℕ) (T : Finset ℕ) (m m' : Mem) : Prop := ∀ a : Word, PGNUM a ∈ T →
    loadByte m' d a = loadByte m d a

theorem Kept.refl (d : ℕ) (T : Finset ℕ) (m : Mem) : Kept d T m m := fun _ _ => rfl

theorem Kept.trans (h : Kept d T m m₁) (h' : Kept d T m₁ m₂) : Kept d T m m₂ :=
  fun a ha => (h' a ha).trans (h a ha)

theorem Kept.mono (h : Kept d T' m m') (hT : T ⊆ T') : Kept d T m m' := fun a ha => h a (hT ha)

/-- A byte depends on its entry and on its frame. -/
theorem loadByte_congr (hpte : dirPte m'.phys d (PGNUM a) = dirPte m.phys d (PGNUM a))
    (hphys : ∀ p, Names (dirPte m.phys d (PGNUM a)) p → m'.phys p = m.phys p) :
    loadByte m' d a = loadByte m d a := by
  rw [loadByte, loadByte, translate_of_same_dirPte hpte]
  cases ht : translate m d a with
  | none => rfl
  | some pte =>
    rw [translate_eq_dirPte] at ht
    split_ifs at ht with hP
    cases ht
    simp only [Option.map_some, hphys _ ⟨hP, rfl⟩]

/-! ### One page -/

theorem or_and_flags (w f : Word) : (w ||| f) &&& f = f := by
  rw [BitVec.or_comm]
  exact or_and_of_and BitVec.and_self

/-- A table is made, or was there: directory entries that are not present. -/
theorem lacking_step (hi : i ∈ R) (hP : test (m'.phys d i) PTE_P = true)
    (hothers : ∀ j, j ≠ i → (test (m'.phys d j) PTE_P = true ↔ test (m.phys d j) PTE_P = true)) :
    (lacking m' d R).card + (if test (m.phys d i) PTE_P = true then 0 else 1) =
        (lacking m d R).card := by
  have herase : lacking m' d R = (lacking m d R).erase i := by
    ext j
    rw [Finset.mem_erase, lacking, lacking, Finset.mem_filter, Finset.mem_filter]
    by_cases hji : j = i
    · subst hji
      simp [hP]
    · refine ⟨?_, ?_⟩
      · rintro ⟨hR, h⟩
        exact ⟨hji, hR, fun h' => h ((hothers j hji).mpr h')⟩
      · rintro ⟨-, hR, h⟩
        exact ⟨hR, fun h' => h ((hothers j hji).mp h')⟩
  rw [herase]
  split_ifs with hold
  · rw [Finset.erase_eq_of_notMem, Nat.add_zero]
    intro hmem
    exact (Finset.mem_filter.mp hmem).2 hold
  · exact Finset.card_erase_add_one (Finset.mem_filter.mpr ⟨hi, hold⟩)

/-- The words that `pgdir_walk` writes. -/
theorem TableGot.words {W : ℕ → Prop} (h : TableGot m d W l va t m' l') (hd : d ∉ l) :
    (∀ i, i ≠ PDX va → m'.phys d i = m.phys d i) ∧
    l' ⊆ l ∧ (∀ q, q ∉ l → q ≠ d → m'.phys q = m.phys q) ∧
    (l' = l ∧ Names (m.phys d (PDX va)) t ∨ l = t :: l' ∧
      test (m.phys d (PDX va)) PTE_P ≠ true) := by
  rcases h.got with ⟨rfl, rfl, -⟩ | ⟨rfl, hP, rfl⟩
  · exact ⟨fun _ _ => rfl, List.Subset.refl _, fun _ _ _ => rfl, .inl ⟨rfl, h.names⟩⟩
  · have hdt : d ≠ t := fun hdt => hd (hdt ▸ List.mem_cons_self)
    refine ⟨fun i hi => ?_, List.subset_cons_self t l', fun q hq hqd => ?_, .inr ⟨rfl, hP⟩⟩
    · rw [newTable_phys, setW_of_ne_index hi, Function.update_of_ne hdt]
    · rw [newTable_phys, setW_of_ne hqd, Function.update_of_ne]
      rintro rfl
      exact hq List.mem_cons_self

/-- Frame `p`, the first one of the free list `p :: l`, has been mapped at `va`, through table
`t`. -/
structure Adds (d : ℕ) (va : Word) (p t : ℕ) (m : Mem) (l : List ℕ) (m' : Mem)
    (l' : List ℕ) : Prop where
  paging : Paging m' d (· < NUPDX) l'
  sub : l' ⊆ l
  entries : ∀ v < NUPAGES, dirPte m'.phys d v = if v = PGNUM va then mkPte p (PTE_W ||| PTE_U)
    else dirPte m.phys d v
  pdes : ∀ i, i ≠ PDX va → m'.phys d i = m.phys d i
  names : Names (m'.phys d (PDX va)) t
  flags : m'.phys d (PDX va) &&& (PTE_W ||| PTE_U) = PTE_W ||| PTE_U
  /-- The table was there, or is the next page of the list. -/
  table : l' = l ∧ Names (m.phys d (PDX va)) t ∨ l = t :: l' ∧ test (m.phys d (PDX va)) PTE_P ≠ true
  words : ∀ q, q ∉ l → q ≠ d → q ≠ t → m'.phys q = m.phys q

theorem Adds.tables (h : Adds d va p t m l m' l') (hn : Names (m'.phys d i) q) :
    Names (m.phys d i) q ∨ q ∈ l := by
  by_cases hi : i = PDX va
  · subst hi
    rw [← names_unique h.names hn]
    rcases h.table with ⟨-, hold⟩ | ⟨rfl, -⟩
    · exact .inl hold
    · exact .inr List.mem_cons_self
  · rw [h.pdes i hi] at hn
    exact .inl hn

theorem isFlags_WU : IsFlags (PTE_W ||| PTE_U) := by decide

theorem card_sdiff_insert (hA : v ∈ A) (hT : v ∉ T) : (A \ T).card = (A \ insert v T).card + 1 := by
  rw [Finset.sdiff_insert, Finset.card_erase_add_one (Finset.mem_sdiff.mpr ⟨hA, hT⟩)]

theorem PDX_mem_image (hA : PGNUM va ∈ A) : PDX va ∈ A.image (· / 1024) := by
  rw [PDX_eq]
  exact Finset.mem_image_of_mem _ hA

/-- A page that is not mapped gets a frame. -/
theorem Image.adds (h : Image l₀ d m l T) (hroom : EnoughFree A d m l T) (hA : PGNUM va ∈ A)
    (hT : PGNUM va ∉ T)
    (hlt : PGNUM va < NUPAGES) : ∃ p l₁ m₁ m' l' t, l = p :: l₁ ∧
    pageAlloc m false = .ok (some p, m₁) ∧
      pageInsert (m₁.markUser p true) d p va (PTE_W ||| PTE_U) = .ok (0, m') ∧
      Adds d va p t m l₁ m' l' := by
  have hcard := card_sdiff_insert hA hT
  have hva : PDX va < NUPDX := by
    rw [PDX_eq]
    exact div_lt_NUPDX hlt
  -- the frame
  cases l with
  | nil =>
    rw [EnoughFree, List.length_nil] at hroom
    omega
  | cons p l₁ =>
  have hfl : m.pageFreeList = some p := h.paging.chain.head_eq
  have hpop : Paging ((m.popFree p).markUser p true) d (· < NUPDX) l₁ :=
    (h.paging.popFree hfl).markUser p true
  have hpl₁ : p ∉ l₁ := (List.nodup_cons.mp h.paging.chain.nodup).1
  have halloc : pageAlloc m false = .ok (some p, m.popFree p) := by
    rw [pageAlloc_of_some hfl]
    rfl
  -- the entry
  rcases hpop.pageInsert_absent hva (h.rest _ hlt hT) hpl₁ isFlags_WU with ⟨-, rfl, hP⟩ |
    ⟨t, m₂, m', l', hrun, hg, hpaging, hphys⟩
  · -- there is room for the table
    have hlack : 0 < (lacking m d (A.image (· / 1024))).card :=
      Finset.card_pos.mpr ⟨_, Finset.mem_filter.mpr ⟨PDX_mem_image hA, hP⟩⟩
    rw [EnoughFree, hcard, List.length_singleton] at hroom
    omega
  obtain ⟨hdir, hsub, hwords, htable⟩ := hg.words hpop.dir
  obtain ⟨hpte, hnames, hpde, hdir', -⟩ :=
    insertWords_spec hg.paging.own hva hg.names isFlags_WU (mkPte p (PTE_W ||| PTE_U))
  refine ⟨p, l₁, _, m', l', t, rfl, halloc, hrun, hpaging, hsub, fun v hv => ?_, fun i hi => ?_, ?_,
    ?_, htable, fun q hq hqd hqt => ?_⟩
  · rw [hphys, hpte v (div_lt_NUPDX hv), hg.pte v (div_lt_NUPDX hv)]
    rfl
  · rw [hphys, hdir' i hi]
    exact hdir i hi
  · rw [hphys]
    exact hnames
  · rw [hphys, hpde, or_and_flags]
  · rw [hphys, insertWords, setW_of_ne hqd, setW_of_ne hqt]
    exact hwords q hq hqd

/-- The new entry, and the others. -/
theorem Adds.entry_self (h : Adds d va p t m l m' l') (hlt : PGNUM va < NUPAGES) :
    dirPte m'.phys d (PGNUM va) = mkPte p (PTE_W ||| PTE_U) := by rw [h.entries _ hlt, if_pos rfl]

theorem Adds.entry_of_ne (h : Adds d va p t m l m' l') (hv : v < NUPAGES) (hne : v ≠ PGNUM va) :
    dirPte m'.phys d v = dirPte m.phys d v := by rw [h.entries v hv, if_neg hne]

/-- The frame is none that was mapped. -/
theorem Image.names_ne (h : Image l₀ d m (p :: l) T) (hv : v ∈ T)
    (hn : Names (dirPte m.phys d v) q) : q ≠ p := by
  rintro rfl
  obtain ⟨q', hq', hq20, -, hql, -⟩ := h.frame v hv
  rw [hq'] at hn
  rw [← names_unique hn (names_mkPte hq20 isFlags_WU)] at hql
  exact hql List.mem_cons_self

/-- The image has the page. -/
theorem Image.add (h : Image l₀ d m (p :: l) T) (ha : Adds d va p t m l m' l') (hT : PGNUM va ∉ T)
    (hlt : PGNUM va < NUPAGES) :
    Image l₀ d m' l' (insert (PGNUM va) T) := by
  have hpl : p ∉ l := (List.nodup_cons.mp h.paging.chain.nodup).1
  have hp20 : p < 2 ^ 20 := h.paging.lt List.mem_cons_self
  have hne : ∀ v ∈ T, v ≠ PGNUM va := fun v hv hvv => hT (hvv ▸ hv)
  have hold : ∀ v ∈ T, ∀ q, Names (dirPte m'.phys d v) q → Names (dirPte m.phys d v) q ∧ q ≠ p := by
    intro v hv q hn
    rw [ha.entry_of_ne (h.user v hv) (hne v hv)] at hn
    exact ⟨hn, h.names_ne hv hn⟩
  have hnew : ∀ q, Names (dirPte m'.phys d (PGNUM va)) q → q = p := by
    intro q hn
    rw [ha.entry_self hlt] at hn
    exact names_unique hn (names_mkPte hp20 isFlags_WU)
  refine ⟨ha.paging, h.dir, fun q hq => h.sub (List.mem_cons_of_mem p (ha.sub hq)), fun v hv => ?_,
    fun v hv => ?_,
    fun v hv => ?_, fun v hv v' hv' q hn hn' => ?_, fun v hv hvT => ?_⟩
  · rcases Finset.mem_insert.mp hv with rfl | hv
    · exact hlt
    · exact h.user v hv
  · rcases Finset.mem_insert.mp hv with rfl | hv
    · -- the new frame is no table
      refine ⟨p, ha.entry_self hlt, hp20, h.sub List.mem_cons_self, fun hp => hpl (ha.sub hp),
        fun i hi hn => ?_⟩
      rcases ha.tables hn with hn | hp
      · exact (h.paging.table i hi p hn).2 List.mem_cons_self
      · exact hpl hp
    · obtain ⟨q, hq, hq20, hq₀, hql, hqt⟩ := h.frame v hv
      refine ⟨q, ?_, hq20, hq₀, fun hq' => hql (List.mem_cons_of_mem p (ha.sub hq')),
        fun i hi hn => ?_⟩
      · rw [ha.entry_of_ne (h.user v hv) (hne v hv), hq]
      · rcases ha.tables hn with hn | hq'
        · exact hqt i hi hn
        · exact hql (List.mem_cons_of_mem p hq')
  · by_cases hvv : v / 1024 = PDX va
    · rw [hvv, ha.flags]
    · have hvT : v ∈ T := (Finset.mem_insert.mp hv).resolve_left fun hv => hvv (by rw [hv, PDX_eq])
      rw [ha.pdes _ hvv]
      exact h.pde v hvT
  · rcases Finset.mem_insert.mp hv with rfl | hv
    · rcases Finset.mem_insert.mp hv' with rfl | hv'
      · rfl
      · exact absurd (hnew q hn) (hold v' hv' q hn').2
    · rcases Finset.mem_insert.mp hv' with rfl | hv'
      · exact absurd (hnew q hn') (hold v hv q hn).2
      · exact h.inj v hv v' hv' q (hold v hv q hn).1 (hold v' hv' q hn').1
  · rw [Finset.mem_insert, not_or] at hvT
    rw [ha.entry_of_ne hv hvT.1]
    exact h.rest v hv hvT.2

/-- There is room for the other pages still. -/
theorem EnoughFree.add (hroom : EnoughFree A d m (p :: l) T) (ha : Adds d va p t m l m' l')
    (hA : PGNUM va ∈ A) (hT : PGNUM va ∉ T) :
    EnoughFree A d m' l' (insert (PGNUM va) T) := by
  have hstep : (lacking m' d (A.image (· / 1024))).card +
      (if test (m.phys d (PDX va)) PTE_P = true then 0 else 1) =
      (lacking m d (A.image (· / 1024))).card :=
    lacking_step (PDX_mem_image hA) ha.names.1 fun j hj => by rw [ha.pdes j hj]
  rw [EnoughFree, card_sdiff_insert hA hT, List.length_cons] at hroom
  rw [EnoughFree]
  rcases ha.table with ⟨rfl, hold⟩ | ⟨rfl, hold⟩
  · rw [if_pos hold.1] at hstep
    omega
  · rw [if_neg hold] at hstep
    rw [List.length_cons] at hroom
    omega

/-- The bytes of the other pages stay. -/
theorem Image.kept_add (h : Image l₀ d m (p :: l) T) (ha : Adds d va p t m l m' l')
    (hT : PGNUM va ∉ T) (hlt : PGNUM va < NUPAGES) :
    Kept d T m m' := by
  intro a haT
  have hva : PDX va < NUPDX := by
    rw [PDX_eq]
    exact div_lt_NUPDX hlt
  have hne : PGNUM a ≠ PGNUM va := fun hav => hT (hav ▸ haT)
  refine loadByte_congr (ha.entry_of_ne (h.user _ haT) hne) fun q hn => ?_
  obtain ⟨q', hq', hq20, hq₀, hql, hqt⟩ := h.frame _ haT
  rw [hq'] at hn
  rw [names_unique hn (names_mkPte hq20 isFlags_WU)]
  have hqt' : q' ≠ t := by
    rintro rfl
    rcases ha.tables ha.names with hn | hq'
    · exact hqt _ hva hn
    · exact hql (List.mem_cons_of_mem p hq')
  exact ha.words q' (fun hq' => hql (List.mem_cons_of_mem p hq'))
    (fun hqd => h.dir (hqd ▸ hq₀)) hqt'

/-- One pass of the loop of `region_alloc`: a page that is not mapped gets a frame. -/
theorem Image.page (h : Image l₀ d m l T) (hroom : EnoughFree A d m l T) (hA : PGNUM va ∈ A)
    (hT : PGNUM va ∉ T)
    (hlt : PGNUM va < NUPAGES) : ∃ p m₁ m' l', pageAlloc m false = .ok (some p, m₁) ∧
      pageInsert (m₁.markUser p true) d p va (PTE_W ||| PTE_U) = .ok (0, m') ∧
      Image l₀ d m' l' (insert (PGNUM va) T) ∧
      EnoughFree A d m' l' (insert (PGNUM va) T) ∧ Kept d T m m' := by
  obtain ⟨p, l₁, m₁, m', l', t, rfl, halloc, hinsert, ha⟩ := h.adds hroom hA hT hlt
  exact ⟨p, m₁, m', l', halloc, hinsert, h.add ha hT hlt, hroom.add ha hA hT, h.kept_add ha hT hlt⟩

/-! ### A region -/

/-- The loop of `region_alloc`, for `n` pages from address `i` on. -/
theorem Image.regionAllocLoop : ∀ {n k : ℕ} {i : Word} {m : Mem} {l : List ℕ} {T : Finset ℕ},
    Image l₀ d m l T →
    EnoughFree A d m l T → i.toNat % 4096 = 0 → i.toNat + n * 4096 = fin.toNat → n ≤ k →
    fin ≤ UTOP →
    (∀ v ∈ Finset.Ico (PGNUM i) (PGNUM i + n), v ∈ A ∧ v ∉ T) →
    ∃ m' l', regionAllocLoop d fin k i m = .ok m' ∧
      Image l₀ d m' l' (T ∪ Finset.Ico (PGNUM i) (PGNUM i + n)) ∧
      EnoughFree A d m' l' (T ∪ Finset.Ico (PGNUM i) (PGNUM i + n)) ∧ Kept d T m m' := by
  intro n
  induction n with
  | zero =>
    intro k i m l T h hroom _ hfin _ _ _
    have hdone : JOS.regionAllocLoop d fin k i m = .ok m := by
      cases k with
      | zero => rfl
      | succ k =>
        rw [JOS.regionAllocLoop, if_neg]
        rw [BitVec.lt_def]
        omega
    rw [Nat.add_zero, Finset.Ico_self, Finset.union_empty]
    exact ⟨m, l, hdone, h, hroom, Kept.refl d T m⟩
  | succ n ih =>
    intro k i m l T h hroom hal hfin hk hU hA
    cases k with
    | zero => omega
    | succ k =>
    have hU' : fin.toNat ≤ 0xeec00000 := BitVec.le_def.mp hU
    have hnext : (i + PGSIZE).toNat = i.toNat + 4096 := by
      rw [BitVec.toNat_add, PGSIZE_toNat]
      omega
    have hnum : PGNUM (i + PGSIZE) = PGNUM i + 1 := by
      rw [PGNUM_eq, PGNUM_eq, hnext]
      omega
    have hlt : PGNUM i < NUPAGES := by
      rw [PGNUM_eq, NUPAGES]
      omega
    obtain ⟨hiA, hiT⟩ := hA (PGNUM i) (Finset.mem_Ico.mpr ⟨le_rfl, by omega⟩)
    obtain ⟨p, m₁, m₂, l₂, halloc, hins, h₂, hroom₂, hkept₂⟩ := h.page hroom hiA hiT hlt
    have hpages : insert (PGNUM i) T ∪ Finset.Ico (PGNUM (i + PGSIZE)) (PGNUM (i + PGSIZE) + n) =
        T ∪ Finset.Ico (PGNUM i) (PGNUM i + (n + 1)) := by
      ext v
      simp only [hnum, Finset.mem_union, Finset.mem_insert, Finset.mem_Ico]
      by_cases hvT : v ∈ T
      · simp [hvT]
      · simp only [hvT, or_false, false_or]
        omega
    obtain ⟨m', l', hrun, h', hroom', hkept'⟩ :=
      ih (k := k) (i := i + PGSIZE) h₂ hroom₂ (by omega) (by omega)
        (by omega) hU fun v hv => by
      have hv := Finset.mem_Ico.mp hv
      rw [hnum] at hv
      obtain ⟨hvA, hvT⟩ := hA v (Finset.mem_Ico.mpr (by omega))
      refine ⟨hvA, fun hvm => ?_⟩
      rcases Finset.mem_insert.mp hvm with rfl | hvm
      · omega
      · exact hvT hvm
    rw [hpages] at h' hroom'
    refine ⟨m', l', ?_, h', hroom', hkept₂.trans (hkept'.mono (Finset.subset_insert _ _))⟩
    have hi : i < fin := by
      rw [BitVec.lt_def]
      omega
    rw [JOS.regionAllocLoop, if_pos hi, halloc, ok_bind]
    dsimp only
    rw [hins, ok_bind]
    exact (if_neg (by simp)).trans hrun

/-- The pages that `region_alloc` maps for `len` bytes at `va`: from `va` rounded down to the end
rounded up. -/
def regionPages (va len : Word) : Finset ℕ :=
  Finset.Ico (va.toNat / 4096) ((va.toNat + len.toNat + 4095) / 4096)

/-- These are the pages with one of the bytes, when there is one. -/
theorem mem_regionPages {len : Word} (hlen : len ≠ 0) (hend : va.toNat + len.toNat < 2 ^ 32) :
    v ∈ regionPages va len ↔ ∃ k < len.toNat, PGNUM (va + BitVec.ofNat 32 k) = v := by
  have hpos : 0 < len.toNat := Nat.pos_of_ne_zero fun h0 => hlen (BitVec.eq_of_toNat_eq h0)
  have hpage : ∀ k < len.toNat, PGNUM (va + BitVec.ofNat 32 k) = (va.toNat + k) / 4096 := by
    intro k hk
    rw [PGNUM_eq, BitVec.toNat_add, BitVec.toNat_ofNat]
    omega
  rw [regionPages, Finset.mem_Ico]
  constructor
  · rintro ⟨hlo, hhi⟩
    -- the first byte of the region in page `v`
    refine ⟨max va.toNat (v * 4096) - va.toNat, by omega, ?_⟩
    rw [hpage _ (by omega)]
    omega
  · rintro ⟨k, hk, rfl⟩
    rw [hpage k hk]
    omega

/-- `region_alloc`. -/
theorem Image.regionAlloc {len : Word} (h : Image l₀ d m l T) (hroom : EnoughFree A d m l T)
    (hend : va.toNat + len.toNat ≤ UTOP.toNat) (hA : regionPages va len ⊆ A)
    (hT : Disjoint T (regionPages va len)) :
    ∃ m' l', JOS.regionAllocLoop d (ROUNDUP (va + len) PGSIZE) (2 ^ 20)
      (ROUNDDOWN va PGSIZE) m = .ok m' ∧
      Image l₀ d m' l' (T ∪ regionPages va len) ∧ EnoughFree A d m' l' (T ∪ regionPages va len) ∧
      Kept d T m m' := by
  have hU : UTOP.toNat = 0xeec00000 := rfl
  have hfin := ROUNDUP_add_toNat va len
  have hbegin := ROUNDDOWN_toNat va
  have hpage : PGNUM (ROUNDDOWN va PGSIZE) = va.toNat / 4096 := by
    rw [PGNUM_eq]
    omega
  have hpages : regionPages va len = Finset.Ico (PGNUM (ROUNDDOWN va PGSIZE))
      (PGNUM (ROUNDDOWN va PGSIZE) + ((va.toNat + len.toNat + 4095) / 4096 - va.toNat / 4096)) := by
    rw [hpage]
    exact congrArg (Finset.Ico _) (by omega)
  rw [hpages] at hA hT ⊢
  refine h.regionAllocLoop hroom (by omega) (by omega) (by omega) ?_ fun v hv => ⟨hA hv, ?_⟩
  · rw [BitVec.le_def]
    omega
  · exact fun hvT => Finset.disjoint_left.mp hT hvT hv

/-! ### Bytes -/

/-- The frame of a page. -/
theorem Image.names (h : Image l₀ d m l T) (hv : v ∈ T) (hn : Names (dirPte m.phys d v) p) :
    p ∈ l₀ ∧ ∀ i < NUPDX, ¬ Names (m.phys d i) p := by
  obtain ⟨q, hq, hq20, hq₀, -, hqt⟩ := h.frame v hv
  have hflags : IsFlags (PTE_W ||| PTE_U) := by decide
  rw [hq] at hn
  rw [← names_unique (names_mkPte hq20 hflags) hn]
  exact ⟨hq₀, hqt⟩

/-- The frames hold data. -/
theorem Image.dataPages (h : Image l₀ d m l T) : DataPages m d fun p => ∃ v ∈ T,
    Names (dirPte m.phys d v) p := by
  refine ⟨?_, ?_, fun v hv p hn => ⟨v, ?_, hn⟩⟩
  · rintro ⟨v, hv, hn⟩
    exact h.dir (h.names hv hn).1
  · rintro i hi t ht ⟨v, hv, hn⟩
    exact (h.names hv hn).2 i hi ht
  · by_contra hvT
    exact h.rest v hv hvT hn.1

/-- Different addresses have different bytes. -/
theorem Image.slot_inj (h : Image l₀ d m l T) {a b : Word} {p o : ℕ} (ha : a < UTOP) (hb : b < UTOP)
    (hsa : Slot m d a p o) (hsb : Slot m d b p o) : a = b := by
  have hmapped : ∀ a < UTOP, Slot m d a p o → PGNUM a ∈ T ∧ Names (dirPte m.phys d (PGNUM a)) p ∧
      o = a.toNat % 4096 := by
    rintro a ha ⟨pte, ht, rfl, rfl⟩
    rw [translate_eq_dirPte] at ht
    split_ifs at ht with hP
    cases ht
    refine ⟨?_, ⟨hP, rfl⟩, rfl⟩
    by_contra haT
    exact h.rest _ ((PGNUM_lt_iff a).mpr ha) haT hP
  obtain ⟨haT, hna, hoa⟩ := hmapped a ha hsa
  obtain ⟨hbT, hnb, hob⟩ := hmapped b hb hsb
  have hpage := h.inj _ haT _ hbT p hna hnb
  rw [PGNUM_eq, PGNUM_eq] at hpage
  refine BitVec.eq_of_toNat_eq ?_
  omega

/-- The pages may be written. -/
theorem Image.writable (h : Image l₀ d m l T) (ha : PGNUM a ∈ T) : Writable m d a := by
  obtain ⟨p, hp, -⟩ := h.frame _ ha
  refine ⟨_, translate_of_dirPte hp (test_mkPte_P _ _), ?_⟩
  rw [test_mkPte p _ (by decide) (by decide)]
  decide

/-- What is written to the frames leaves the image. -/
theorem Image.copied (h : Image l₀ d m l T)
    (hc : Copied m d (fun p => ∃ v ∈ T, Names (dirPte m.phys d v) p) va f n m') :
    Image l₀ d m' l T := by
  have hdir : m'.phys d = m.phys d := hc.words d h.dataPages.dir
  have hpte := h.dataPages.dirPte_congr hc.words
  refine ⟨?_, h.dir, h.sub, h.user, fun v hv => ?_, fun v hv => ?_, fun v hv v' hv' p hn hn' => ?_,
    fun v hv hvT => ?_⟩
  · have hp := h.paging
    rw [hc.mem]
    refine ⟨hp.npages_le, hp.chain, hp.free_lt, hp.zero, hp.dir, ⟨?_, ?_⟩, ?_⟩
    · rw [hdir]
      exact hp.own.inj
    · rw [hdir]
      exact hp.own.ne
    · rw [hdir]
      exact hp.table
  · obtain ⟨p, hp, hp20, hp₀, hpl, hpt⟩ := h.frame v hv
    refine ⟨p, by rw [hpte v (h.user v hv), hp], hp20, hp₀, hpl, fun i hi hn => hpt i hi ?_⟩
    rwa [hdir] at hn
  · rw [hdir]
    exact h.pde v hv
  · rw [hpte v (h.user v hv)] at hn
    rw [hpte v' (h.user v' hv')] at hn'
    exact h.inj v hv v' hv' p hn hn'
  · rw [hpte v hv]
    exact h.rest v hv hvT

/-- `memmove` and `memset` to pages of the image. -/
theorem Image.storeBytes (h : Image l₀ d m l T) (hroom : EnoughFree A d m l T)
    (hva : va.toNat + n ≤ UTOP.toNat)
    (hT : ∀ k < n, PGNUM (va + BitVec.ofNat 32 k) ∈ T) : ∃ m', JOS.storeBytes d va f n m = .ok m' ∧
    Image l₀ d m' l T ∧
      EnoughFree A d m' l T ∧ (∀ k < n, loadByte m' d (va + BitVec.ofNat 32 k) = some (f k)) ∧
      ∀ a < UTOP, (∀ k < n, a ≠ va + BitVec.ofNat 32 k) → loadByte m' d a = loadByte m d a := by
  obtain ⟨m', hrun, hc⟩ : ∃ m', JOS.storeBytes d va f n m = .ok m' ∧
      Copied m d (fun p => ∃ v ∈ T, Names (dirPte m.phys d v) p) va f n m' :=
    h.dataPages.storeBytes hva fun k hk => h.writable (hT k hk)
  have hdir : m'.phys d = m.phys d := hc.words d h.dataPages.dir
  have hU : UTOP.toNat < 2 ^ 32 := UTOP.isLt
  have hnat : ∀ k < n, (va + BitVec.ofNat 32 k).toNat = va.toNat + k := by
    intro k hk
    rw [BitVec.toNat_add, BitVec.toNat_ofNat]
    omega
  have hlt : ∀ k < n, va + BitVec.ofNat 32 k < UTOP := by
    intro k hk
    rw [BitVec.lt_def, hnat k hk]
    omega
  refine ⟨m', hrun, h.copied hc, ?_, fun k hk => ?_, fun a ha hout => ?_⟩
  · rw [EnoughFree, lacking, hdir]
    exact hroom
  · obtain ⟨pte, ht, -⟩ := h.writable (hT k hk)
    rw [loadByte_eq, h.dataPages.translate_congr hc.words (hlt k hk), ht, Option.map_some]
    refine congrArg some (hc.bytes (fun i hi j hj p o hs hs' => ?_) k hk _ _ ⟨pte, ht, rfl, rfl⟩)
    have hij := congrArg BitVec.toNat (h.slot_inj (hlt i hi) (hlt j hj) hs hs')
    rw [hnat i hi, hnat j hj] at hij
    omega
  · rw [loadByte_eq, loadByte_eq, h.dataPages.translate_congr hc.words ha]
    cases ht : translate m d a with
    | none => rfl
    | some pte =>
      refine congrArg some (hc.others _ _ fun k hk hs => ?_)
      exact hout k hk (h.slot_inj ha (hlt k hk) ⟨pte, ht, rfl, rfl⟩ hs)

end JOS
