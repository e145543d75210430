import JOS.Memory.Allocator

/-!
# What gets on the free list

Two questions about `page_free_list` that the allocator's own functions decide.

`page_init` is to free the base memory and the extended memory that the kernel does not
use. Its branches leave the pages between the end of base memory and the I/O hole to the
last one, which frees them; so it is right exactly when there is no such page
(`pageInit_exact_iff`).

`page_free` is to notice when a page is free already. It asserts that `pp_link` is null,
and that is so for one page of the list, the last (`doubleFree_caught`); freeing that
page again makes the list a circle.
-/

namespace JOS

open JOS.General

open Function (update)

variable {m m' s : Mem} {i p q : ℕ}

/-! ### `page_init` -/

/-- The memory that is free when the kernel has booted up to `page_init`: base memory but for page 0
and the page at `MPENTRY_PADDR`, and extended memory from `boot_alloc`'s frontier on. -/
def FreeMemory (npagesBasemem : ℕ) (nextfree : Word) (i : ℕ) : Prop :=
  1 ≤ i ∧ i < npagesBasemem ∧ i ≠ PGNUM MPENTRY_PADDR ∨ PGNUM EXTPHYSMEM ≤ i ∧
    PGNUM (nextfree - KERNBASE) ≤ i

/-- `page_init` frees exactly the free memory, each page once, and nothing from the end of base
memory to `EXTPHYSMEM`. -/
structure InitExact (m : Mem) : Prop where
  list : ∃ l, Chain (pageInit m).link (pageInit m).pageFreeList l ∧ l.Nodup ∧
    ∀ i, i ∈ l ↔ i < m.npages ∧ FreeMemory m.npagesBasemem m.nextfree i
  hole : ∀ i, m.npagesBasemem ≤ i → i < PGNUM EXTPHYSMEM → ¬ (pageInit m).OnFreeList i

/-- Base memory reaches up to the I/O hole, but for pages that do not exist or that `page_init`
reserves anyway. -/
def NoGap (m : Mem) : Prop :=
  ∀ i < m.npages, m.npagesBasemem ≤ i → i < PGNUM IOPHYSMEM → i = 0 ∨ i = PGNUM MPENTRY_PADDR

theorem PGNUM_physmem : PGNUM IOPHYSMEM = 160 ∧ PGNUM EXTPHYSMEM = 256 ∧
    PGNUM MPENTRY_PADDR = 7 := by decide

/-- The branches of `page_init`: the free memory, and the gap between base memory and the I/O
hole. -/
theorem pageInitFree_iff {b : ℕ} {f : Word} (hb : b ≤ PGNUM IOPHYSMEM)
    (hf : EXTPHYSMEM ≤ f - KERNBASE) :
    pageInitFree b f i = true ↔
      FreeMemory b f i ∨ b ≤ i ∧ i < PGNUM IOPHYSMEM ∧ i ≠ 0 ∧ i ≠ PGNUM MPENTRY_PADDR := by
  obtain ⟨hio, hext, hmp⟩ := PGNUM_physmem
  have hf' : 256 ≤ PGNUM (f - KERNBASE) := by
    rw [BitVec.le_def, show EXTPHYSMEM.toNat = 0x100000 from rfl] at hf
    rw [PGNUM_eq]
    omega
  rw [hio] at hb
  simp only [pageInitFree, FreeMemory, hio, hext, hmp]
  split_ifs <;> simp <;> omega

/-- **`page_init` frees exactly the free memory** if and only if base memory leaves no gap below the
I/O hole. -/
theorem pageInit_exact_iff (hm : m.pageFreeList = none) (hb : m.npagesBasemem ≤ PGNUM IOPHYSMEM)
    (hf : EXTPHYSMEM ≤ m.nextfree - KERNBASE) : InitExact m ↔ NoGap m := by
  obtain ⟨hio, hext, hmp⟩ := PGNUM_physmem
  constructor
  · intro h i hi hbi hii
    by_contra hno
    rw [not_or] at hno
    refine h.hole i hbi (by omega) ((onFreeList_pageInit hm).mpr ⟨hi, ?_⟩)
    exact (pageInitFree_iff hb hf).mpr (.inr ⟨hbi, hii, hno⟩)
  · intro h
    have hfree : ∀ i < m.npages, pageInitFree m.npagesBasemem m.nextfree i = true ↔
        FreeMemory m.npagesBasemem m.nextfree i := by
      intro i hi
      rw [pageInitFree_iff hb hf, or_iff_left]
      rintro ⟨hbi, hii, h0, h7⟩
      exact (h i hi hbi hii).elim h0 h7
    obtain ⟨-, hchain⟩ := pageInit_passes hm m.npages
    refine ⟨⟨_, hchain, hchain.nodup, fun i => ?_⟩, fun i hbi hie hfl => ?_⟩
    · rw [List.mem_reverse, List.mem_filter, List.mem_range]
      exact and_congr_right (hfree i)
    · -- free memory is below the gap or above it
      obtain ⟨hi, hpi⟩ := (onFreeList_pageInit hm).mp hfl
      have hfm := (hfree i hi).mp hpi
      rw [FreeMemory] at hfm
      omega

/-- A machine with 640 KB of base memory and 63 MB above. -/
def fullMem : Mem := { bootMem with pageFreeList := none }

theorem pageInit_exact_fullMem : InitExact fullMem := by
  refine (pageInit_exact_iff rfl (by decide) (by decide)).mpr fun i _ hbi hii => ?_
  rw [show fullMem.npagesBasemem = 160 from rfl] at hbi
  rw [PGNUM_physmem.1] at hii
  omega

/-- A machine whose BIOS keeps the last kilobyte of base memory. -/
def shortMem : Mem := { fullMem with npagesBasemem := 159 }

/-- The page of that kilobyte is free for `page_init`. -/
theorem pageInit_shortMem : ¬ InitExact shortMem := fun h =>
  h.hole 159 (le_refl _) (by decide) ((onFreeList_pageInit rfl).mpr (by decide))

/-! ### Double frees -/

/-- What any code can do to the allocator: on any page, and whether it holds it or not. -/
inductive ListCall where
  /-- `page_alloc`. -/
  | alloc (zero : Bool)
  /-- `page_free`. -/
  | free (p : ℕ)
  /-- `pp_ref` of a page is set. -/
  | ref (p : ℕ) (r : BitVec 16)

/-- One call; `none` when the kernel stops. -/
def listStep (m : Mem) : ListCall → Option Mem
  | .alloc z => (pageAlloc m z).toOption.map Prod.snd
  | .free p => (pageFree m p).toOption
  | .ref p r => some (m.setRef p r)

/-- `p` is the last page of the free list, and has no references. -/
def Mem.LastFree (m : Mem) (p : ℕ) : Prop := (∃ l, Chain m.link m.pageFreeList (l ++ [p])) ∧
    (m.pages p).ppRef = 0

/-- `page_free` is not called for the last page of the list. -/
def SparesLast (m : Mem) : ListCall → Prop
  | .free p => ¬ m.LastFree p
  | _ => True

/-- `page_free` of a page that is free already goes through for the last page of the list only. -/
theorem pageFree_again {l : List ℕ} (hl : Chain m.link m.pageFreeList l) (hp : p ∈ l) :
    pageFree m p = .error .panic ↔ ¬ m.LastFree p := by
  have hlast : m.LastFree p ↔ m.link p = none ∧ (m.pages p).ppRef = 0 := by
    rw [hl.next_eq_none_iff hp, Mem.LastFree]
    refine and_congr_left fun _ => ⟨?_, ?_⟩
    · rintro ⟨t, ht⟩
      exact ⟨t, hl.unique ht⟩
    · rintro ⟨t, rfl⟩
      exact ⟨t, hl⟩
  rw [hlast, pageFree, Mem.link]
  split_ifs with href hlink
  · exact iff_of_true rfl fun h => href h.2
  · exact iff_of_true rfl fun h => hlink h.1
  · rw [not_not] at href hlink
    exact iff_of_false (by simp) (not_not.mpr ⟨hlink, href⟩)

/-- What `page_free` does to the links. -/
theorem pageFree_link (h : pageFree m p = .ok m') : m'.pageFreeList = some p ∧
    m'.link p = m.pageFreeList ∧
    m.link p = none ∧ (m.pages p).ppRef = 0 ∧ ∀ q, q ≠ p → m'.link q = m.link q := by
  rw [pageFree] at h
  split_ifs at h with href hlink
  rw [not_not] at href hlink
  cases h
  refine ⟨rfl, ?_, hlink, href, fun q hq => ?_⟩
  · simp [Mem.link, Mem.setInfo, Mem.markUser]
  · simp [Mem.link, Mem.setInfo, Mem.markUser, Function.update_of_ne hq]

/-- Freeing the last page again makes the list a circle. -/
theorem pageFree_last (h : m.LastFree p) : ∃ m', pageFree m p = .ok m' ∧ ¬ ∃ l,
    Chain m'.link m'.pageFreeList l := by
  obtain ⟨⟨l, hl⟩, href⟩ := h
  have hlink : (m.pages p).ppLink = none :=
    (hl.next_eq_none_iff (List.mem_append_right l List.mem_cons_self)).mpr ⟨l, rfl⟩
  have hfree : ∃ m', pageFree m p = .ok m' := by
    rw [pageFree, if_neg (not_not.mpr href), if_neg (not_not.mpr hlink)]
    exact ⟨_, rfl⟩
  obtain ⟨m', hm'⟩ := hfree
  obtain ⟨hhead, hself, -, -, hothers⟩ := pageFree_link hm'
  refine ⟨m', hm', ?_⟩
  rw [hhead]
  exact hl.push_last hself hothers

/-- A call that spares the last page leaves a list. -/
theorem listStep_chain {c : ListCall} {l : List ℕ} (hl : Chain m.link m.pageFreeList l)
    (hc : SparesLast m c)
    (h : listStep m c = some m') : ∃ l', Chain m'.link m'.pageFreeList l' := by
  cases c with
  | alloc z =>
    rw [listStep, Option.map_eq_some_iff] at h
    obtain ⟨⟨o, m₁⟩, hm₁, rfl⟩ := h
    have halloc : pageAlloc m z = .ok (o, m₁) := by
      cases hr : pageAlloc m z with
      | error => rw [hr] at hm₁; cases hm₁
      | ok x => rw [hr] at hm₁; cases hm₁; rfl
    cases hfl : m.pageFreeList with
    | none =>
      simp only [pageAlloc, hfl] at halloc
      cases halloc
      exact ⟨l, hl⟩
    | some p =>
      rw [hfl] at hl
      obtain ⟨t, rfl, ht⟩ := hl.of_some
      have hpt : p ∉ t := (List.nodup_cons.mp hl.nodup).1
      have hpop : Chain (m.popFree p).link (m.popFree p).pageFreeList t :=
        ht.congr fun q hq => popFree_link fun hqp => hpt (hqp ▸ hq)
      rw [pageAlloc_of_some hfl] at halloc
      split_ifs at halloc
      · obtain ⟨kva, -, halloc⟩ := bind_eq_ok.mp halloc
        cases halloc
        exact ⟨t, hpop⟩
      · cases halloc
        exact ⟨t, hpop⟩
  | free p =>
    have hfree : pageFree m p = .ok m' := by
      rw [listStep] at h
      cases hr : pageFree m p with
      | error => rw [hr] at h; cases h
      | ok x => rw [hr] at h; cases h; rfl
    obtain ⟨hhead, hself, -, -, hothers⟩ := pageFree_link hfree
    have hp : p ∉ l := by
      intro hp
      rw [(pageFree_again hl hp).mpr hc] at hfree
      cases hfree
    refine ⟨p :: l, ?_⟩
    rw [hhead]
    exact hl.push hself fun q hq => hothers q fun hqp => hp (hqp ▸ hq)
  | ref p r =>
    cases h
    exact ⟨l, by rw [setRef_link]; exact hl⟩

/-- **Which double frees are caught**: while no call frees the last page of the list again, the free
list stays a list without repetition, and `page_free` of a page on it fails an assertion unless the
page is the last; that one it puts in front of the others once more, and the list has no end. -/
theorem doubleFree_caught (hm : m.pageFreeList = none)
    (h : Reach listStep SparesLast (pageInit m) s) :
    (∃ l, Chain s.link s.pageFreeList l ∧ l.Nodup) ∧
      (∀ p, s.OnFreeList p → (pageFree s p = .error .panic ↔ ¬ s.LastFree p)) ∧
      ∀ p, s.LastFree p → ∃ s', pageFree s p = .ok s' ∧ ¬ ∃ l, Chain s'.link s'.pageFreeList l := by
  have hstart : ∃ l, Chain (pageInit m).link (pageInit m).pageFreeList l :=
    ⟨_, (pageInit_passes hm m.npages).2⟩
  obtain ⟨l, hl⟩ : ∃ l, Chain s.link s.pageFreeList l :=
    h.invariant (I := fun t => ∃ l, Chain t.link t.pageFreeList l) hstart
      fun t t' c ⟨l, hl⟩ hc ht => listStep_chain hl hc ht
  refine ⟨⟨l, hl, hl.nodup⟩, fun p hp => ?_, fun p hp => pageFree_last hp⟩
  exact pageFree_again hl (hl.onChain_iff.mp hp)

/-- Of six pages the free ones are 5 to 1; page 3 is not freed twice. -/
theorem doubleFree_caught_tiny : pageFree (pageInit tinyMem) 3 = .error .panic := by
  have hl : Chain (pageInit tinyMem).link (pageInit tinyMem).pageFreeList [5, 4, 3, 2, 1] :=
    .cons (.cons (.cons (.cons (.cons .nil))))
  have hcaught := (doubleFree_caught (m := tinyMem) rfl (Reach.refl _)).2.1 3 ⟨_, hl, by decide⟩
  refine hcaught.mpr ?_
  rintro ⟨⟨l, hlast⟩, -⟩
  have := hl.unique hlast
  have := congrArg List.getLast? this
  simp at this

/-- Page 1 is: it is the last, and the list is a circle afterwards. -/
theorem doubleFree_tail : (pageInit tinyMem).OnFreeList 1 ∧
    ∃ m', pageFree (pageInit tinyMem) 1 = .ok m' ∧ ¬ ∃ l, Chain m'.link m'.pageFreeList l := by
  have hl : Chain (pageInit tinyMem).link (pageInit tinyMem).pageFreeList ([5, 4, 3, 2] ++ [1]) :=
    .cons (.cons (.cons (.cons (.cons .nil))))
  exact ⟨⟨_, hl, by decide⟩, pageFree_last ⟨⟨_, hl⟩, rfl⟩⟩

end JOS
