import JOS.Memory.Pool
import JOS.Kern.Boot
import JOS.General.Run
import Mathlib.Data.Finset.Basic

/-!
# The page allocator and its clients

The allocator by itself, from `page_init` on, with clients that take pages, keep count
of their references to the pages they hold, and give pages back when there are no
references any more. At any time the free list is a list, and the pages on it and the
pages held are together those that `page_init` made free (`Balanced`); so `page_alloc`
hands out no page twice and fails only when all are handed out.
-/

namespace JOS

open JOS.General

open Function (update)

/-- Page `p` is on the free list. -/
def Mem.OnFreeList (m : Mem) (p : ℕ) : Prop := OnChain m.link m.pageFreeList p

/-! ### `page_init` -/

variable {m m' : Mem} {p q n : ℕ} {l : List ℕ} {z : Bool} {o : Option ℕ} {r : BitVec 16}

/-- What the loop of `page_init` does not change. -/
theorem pageInitPage_base (m : Mem) (i : ℕ) : SameBase m (pageInitPage m i) := by
  unfold pageInitPage
  split_ifs <;> exact ⟨rfl, rfl, rfl, rfl⟩

theorem setInfo_link_of_ne {i : PageInfo} (h : q ≠ p) : (m.setInfo p i).link q = m.link q := by
  simp [Mem.link, Mem.setInfo, Function.update_of_ne h]

/-- One pass pushes the page when it is free, and leaves the other links alone. -/
theorem pageInitPage_chain (hl : Chain m.link m.pageFreeList l) (hn : n ∉ l) :
    Chain (pageInitPage m n).link (pageInitPage m n).pageFreeList
      (if pageInitFree m.npagesBasemem m.nextfree n then n :: l else l) := by
  have hne : ∀ q ∈ l, q ≠ n := by
    rintro q hq rfl
    exact hn hq
  -- a pass that does not push, and one that does
  have hkeep : ∀ i : PageInfo, Chain (m.setInfo n i).link (m.setInfo n i).pageFreeList l :=
    fun i => hl.congr fun q hq => setInfo_link_of_ne (hne q hq)
  have hpush : Chain (m.setInfo n ⟨m.pageFreeList, 0⟩).link (some n) (n :: l) :=
    hl.push (by simp [Mem.link, Mem.setInfo]) fun q hq => setInfo_link_of_ne (hne q hq)
  unfold pageInitPage pageInitFree
  by_cases h₁ : n = 0
  · simp only [h₁, if_true, Bool.false_eq_true, if_false]
    exact h₁ ▸ hkeep _
  by_cases h₂ : n = PGNUM MPENTRY_PADDR
  · simp only [h₁, if_pos h₂, Bool.false_eq_true, if_false]
    exact hl
  by_cases h₃ : n < m.npagesBasemem
  · simp only [h₁, h₂, if_pos h₃, if_true, if_false]
    exact hpush
  by_cases h₄ : n ≥ PGNUM IOPHYSMEM ∧ n < PGNUM EXTPHYSMEM
  · simp only [h₁, h₂, h₃, if_pos h₄, Bool.false_eq_true, if_false]
    exact hkeep _
  by_cases h₅ : n ≥ PGNUM IOPHYSMEM ∧ n < PGNUM (m.nextfree - KERNBASE)
  · simp only [h₁, h₂, h₃, if_neg h₄, if_pos h₅, Bool.false_eq_true, if_false]
    exact hkeep _
  · simp only [h₁, h₂, h₃, if_neg h₄, if_neg h₅, if_true, if_false]
    exact hpush

/-- The free list after the first `n` passes. -/
theorem pageInit_passes (hm : m.pageFreeList = none) (n : ℕ) :
    SameBase m ((List.range n).foldl pageInitPage m) ∧
      Chain ((List.range n).foldl pageInitPage m).link
        ((List.range n).foldl pageInitPage m).pageFreeList
        ((List.range n).filter (pageInitFree m.npagesBasemem m.nextfree)).reverse := by
  induction n with
  | zero =>
    refine ⟨SameBase.refl m, ?_⟩
    rw [List.range_zero, List.foldl_nil, hm]
    exact .nil
  | succ n ih =>
    obtain ⟨hbase, hchain⟩ := ih
    rw [List.range_succ, List.foldl_append, List.foldl_cons, List.foldl_nil, List.filter_append,
      List.reverse_append]
    generalize (List.range n).foldl pageInitPage m = m₁ at hbase hchain
    refine ⟨hbase.trans (pageInitPage_base _ _), ?_⟩
    have hnot : n ∉ ((List.range n).filter (pageInitFree m.npagesBasemem m.nextfree)).reverse := by
      intro h
      rw [List.mem_reverse, List.mem_filter, List.mem_range] at h
      exact lt_irrefl n h.1
    have hpass := pageInitPage_chain hchain hnot
    rw [hbase.npagesBasemem, hbase.nextfree] at hpass
    by_cases hfree : pageInitFree m.npagesBasemem m.nextfree n = true
    · rw [if_pos hfree] at hpass
      rw [List.filter_cons_of_pos hfree]
      exact hpass
    · rw [if_neg hfree] at hpass
      rw [List.filter_cons_of_neg hfree]
      exact hpass

/-- `page_init` makes free the pages that none of its branches reserves. -/
theorem onFreeList_pageInit (hm : m.pageFreeList = none) : (pageInit m).OnFreeList p ↔
    m.Managed p := by
  obtain ⟨-, hchain⟩ := pageInit_passes hm m.npages
  rw [Mem.OnFreeList, pageInit, hchain.onChain_iff, List.mem_reverse, List.mem_filter,
    List.mem_range]
  rfl

/-! ### Clients -/

/-- The allocator, and the pages that are handed out. -/
structure Pages where
  /-- The allocator. -/
  mem : Mem
  /-- The pages its clients hold. -/
  out : Finset ℕ

/-- What clients do. -/
inductive PageCall where
  /-- `page_alloc`, with or without `ALLOC_ZERO`. -/
  | alloc (zero : Bool)
  /-- The holder of a page sets its `pp_ref`. -/
  | ref (p : ℕ) (r : BitVec 16)
  /-- `page_free` of a page that is held and has no references. -/
  | free (p : ℕ)

/-- One call; `none` when it is not allowed, or the kernel stops. -/
def pageStep (s : Pages) : PageCall → Option Pages
  | .alloc z =>
    match pageAlloc s.mem z with
    | .ok (some p, m) => some ⟨m, insert p s.out⟩
    | .ok (none, m) => some ⟨m, s.out⟩
    | .error _ => none
  | .ref p r => if p ∈ s.out then some { s with mem := s.mem.setRef p r } else none
  | .free p =>
    if p ∈ s.out ∧ (s.mem.pages p).ppRef = 0 then
      match pageFree s.mem p with
      | .ok m => some ⟨m, s.out.erase p⟩
      | .error _ => none
    else none

/-- The pages `F` that were free at first are on the free list or held, never both. -/
structure Balanced (F : ℕ → Prop) (s : Pages) : Prop where
  /-- The free list is a list without repetition inside `pages`, of the pages not held. -/
  list : ∃ l, Chain s.mem.link s.mem.pageFreeList l ∧ l.Nodup ∧ (∀ p ∈ l, p < s.mem.npages) ∧
    ∀ p, p ∈ l ↔ F p ∧ p ∉ s.out
  /-- `pages` has room for all of them. -/
  bound : ∀ p, F p → p < s.mem.npages
  /-- The pages held were free at first. -/
  out : ∀ p ∈ s.out, F p
  /-- They are not linked. -/
  link : ∀ p ∈ s.out, s.mem.link p = none

variable {F : ℕ → Prop} {s s' : Pages}

/-- The page number of the address of a page that exists. -/
theorem PGNUM_page2pa_le (p : ℕ) : PGNUM (page2pa p) ≤ p := by
  have h : (page2pa p).toNat = p % 2 ^ 32 * 2 ^ 12 % 2 ^ 32 := by
    rw [page2pa, BitVec.toNat_shiftLeft, BitVec.toNat_ofNat, Nat.shiftLeft_eq]
  rw [PGNUM_eq, h]
  omega

/-- `page_alloc` takes the first page, when there is one. -/
theorem pageAlloc_pop (hfl : m.pageFreeList = some p) (hp : p < m.npages) : ∃ m',
    pageAlloc m z = .ok (some p, m') ∧
    m'.link = (m.popFree p).link ∧ m'.pageFreeList = m.link p ∧ m'.npages = m.npages := by
  rw [pageAlloc_of_some hfl]
  by_cases hz : z = true
  · have hlt : ¬ PGNUM (page2pa p) ≥ (m.popFree p).npages :=
      not_le.mpr (lt_of_le_of_lt (PGNUM_page2pa_le p) hp)
    have hkaddr : kaddr (m.popFree p) (page2pa p) = .ok (PGNUM (page2pa p)) := by
      rw [kaddr, if_neg hlt]
    rw [if_pos hz, hkaddr]
    exact ⟨_, rfl, rfl, rfl, rfl⟩
  · rw [if_neg hz]
    exact ⟨_, rfl, rfl, rfl, rfl⟩

namespace Balanced

/-- The first page of the free list, if there is one, is not held; if there is none, all are. -/
theorem pageAlloc (h : Balanced F s) (z : Bool) :
    ∃ o m', pageAlloc s.mem z = .ok (o, m') ∧ (o = none ↔ ∀ p, F p → p ∈ s.out) ∧
      (∀ p, o = some p → F p ∧ p ∉ s.out) ∧ (o = none → m' = s.mem) ∧
      ∀ p, o = some p → Balanced F ⟨m', insert p s.out⟩ := by
  obtain ⟨l, hl, hnodup, hlt, hmem⟩ := h.list
  cases hfl : s.mem.pageFreeList with
  | none =>
    refine ⟨none, s.mem, ?_, ⟨fun _ p hp => ?_, fun _ => rfl⟩, by simp, fun _ => rfl, by simp⟩
    · rw [JOS.pageAlloc, hfl]
    · rw [hfl] at hl
      by_contra hout
      have := (hmem p).mpr ⟨hp, hout⟩
      rw [hl.nil_of_none] at this
      exact List.not_mem_nil this
  | some p =>
    rw [hfl] at hl
    obtain ⟨t, rfl, ht⟩ := hl.of_some
    obtain ⟨hF, hout⟩ := (hmem p).mp List.mem_cons_self
    have hpt : p ∉ t := (List.nodup_cons.mp hnodup).1
    obtain ⟨m', hm', hlink, hfl', hnp⟩ := pageAlloc_pop (z := z) hfl (hlt p List.mem_cons_self)
    refine ⟨some p, m', hm', ⟨by simp, fun hall => absurd (hall p hF) hout⟩, ?_, by simp, ?_⟩
    · rintro q hq
      cases hq
      exact ⟨hF, hout⟩
    · rintro q hq
      cases hq
      refine ⟨⟨t, ?_, (List.nodup_cons.mp hnodup).2, fun q hq => ?_, fun q => ?_⟩, fun q hq => ?_,
        fun q hq => ?_,
        fun q hq => ?_⟩
      · dsimp only
        rw [hfl', hlink]
        exact ht.congr fun q hq => popFree_link fun hqp => hpt (hqp ▸ hq)
      · dsimp only
        rw [hnp]
        exact hlt q (List.mem_cons_of_mem _ hq)
      · rw [Finset.mem_insert, not_or]
        constructor
        · intro hq
          obtain ⟨hFq, houtq⟩ := (hmem q).mp (List.mem_cons_of_mem _ hq)
          exact ⟨hFq, fun hqp => hpt (hqp ▸ hq), houtq⟩
        · rintro ⟨hFq, hqp, houtq⟩
          exact List.mem_of_ne_of_mem hqp ((hmem q).mpr ⟨hFq, houtq⟩)
      · dsimp only
        rw [hnp]
        exact h.bound q hq
      · rcases Finset.mem_insert.mp hq with rfl | hq
        · exact hF
        · exact h.out q hq
      · dsimp only
        rw [hlink]
        rcases Finset.mem_insert.mp hq with rfl | hq'
        · exact popFree_link_self _ _
        · have hqp : q ≠ p := by
            rintro rfl
            exact hout hq'
          rw [popFree_link hqp]
          exact h.link q hq'

/-- `page_free` of a page that is held does not stop the kernel. -/
theorem pageFree (h : Balanced F s) (hp : p ∈ s.out) (hr : (s.mem.pages p).ppRef = 0) :
    ∃ m', pageFree s.mem p = .ok m' ∧ Balanced F ⟨m', s.out.erase p⟩ := by
  obtain ⟨l, hl, hnodup, hltl, hmem⟩ := h.list
  have hlink : (s.mem.pages p).ppLink = none := h.link p hp
  have hpl : p ∉ l := fun hpl => ((hmem p).mp hpl).2 hp
  have hne : ∀ q, q ≠ p → Mem.link
      { (s.mem.setInfo p { s.mem.pages p with ppLink := s.mem.pageFreeList }).markUser p false with
      pageFreeList := some p } q = s.mem.link q := fun q hq => setInfo_link_of_ne hq
  refine ⟨_, ?_, ⟨p :: l, hl.push ?_ fun q hq => hne q fun hqp => hpl (hqp ▸ hq), ?_, fun q hq =>
    ?_, fun q => ?_⟩,
    h.bound, fun q hq => ?_, fun q hq => ?_⟩
  · rw [JOS.pageFree, if_neg (not_not.mpr hr), if_neg (not_not.mpr hlink)]
  · simp [Mem.link, Mem.setInfo, Mem.markUser]
  · exact List.nodup_cons.mpr ⟨hpl, hnodup⟩
  · rcases List.mem_cons.mp hq with rfl | hq
    · exact h.bound q (h.out q hp)
    · exact hltl q hq
  · rw [List.mem_cons, hmem, Finset.mem_erase]
    by_cases hqp : q = p
    · subst hqp
      exact ⟨fun _ => ⟨h.out q hp, fun hq => hq.1 rfl⟩, fun _ => .inl rfl⟩
    · simp [hqp]
  · exact h.out q (Finset.mem_of_mem_erase hq)
  · obtain ⟨hqp, hq⟩ := Finset.mem_erase.mp hq
    exact (hne q hqp).trans (h.link q hq)

end Balanced

/-! ### Runs -/

theorem Balanced.step {c : PageCall} (h : Balanced F s) (hs : pageStep s c = some s') :
    Balanced F s' := by
  cases c with
  | alloc z =>
    obtain ⟨o, m', hm', -, -, hnone, hsome⟩ := h.pageAlloc z
    rw [pageStep, hm'] at hs
    cases o with
    | none =>
      cases hs
      rw [hnone rfl]
      exact h
    | some p =>
      cases hs
      exact hsome p rfl
  | ref p r =>
    rw [pageStep] at hs
    split_ifs at hs
    cases hs
    refine ⟨?_, h.bound, h.out, ?_⟩
    · simp only [setRef_link]
      exact h.list
    · simp only [setRef_link]
      exact h.link
  | free p =>
    rw [pageStep] at hs
    split_ifs at hs with hp
    obtain ⟨m', hm', hbal⟩ := h.pageFree hp.1 hp.2
    rw [hm'] at hs
    cases hs
    exact hbal

/-- What `page_init` leaves, when nobody holds a page yet. -/
theorem balanced_pageInit (hm : m.pageFreeList = none) :
    Balanced (pageInit m).OnFreeList ⟨pageInit m, ∅⟩ := by
  obtain ⟨hbase, hchain⟩ := pageInit_passes hm m.npages
  have hlt : ∀ p, (pageInit m).OnFreeList p → p < (pageInit m).npages := by
    intro p hp
    rw [pageInit, hbase.npages]
    exact ((onFreeList_pageInit hm).mp hp).1
  refine ⟨⟨_, hchain, hchain.nodup, fun p hp => hlt p ⟨_, hchain, hp⟩, fun p => ?_⟩, hlt, ?_, ?_⟩
  · rw [Mem.OnFreeList, pageInit, hchain.onChain_iff]
    simp
  · exact fun p hp => absurd hp (Finset.notMem_empty p)
  · exact fun p hp => absurd hp (Finset.notMem_empty p)

/-- **The page allocator neither loses nor duplicates pages**: in every state of every run from what
`page_init` leaves, the pages that were free at first are on the free list or held, `page_alloc`
returns a page that nobody holds, or null exactly when all of them are held, and `page_free` does
not stop. -/
theorem pages_balanced (hm : m.pageFreeList = none)
    (h : Reach pageStep (fun _ _ => True) ⟨pageInit m, ∅⟩ s) :
    Balanced (pageInit m).OnFreeList s ∧
      (∀ z, ∃ o m', pageAlloc s.mem z = .ok (o, m') ∧
        (o = none ↔ ∀ p, (pageInit m).OnFreeList p → p ∈ s.out) ∧
        ∀ p, o = some p → (pageInit m).OnFreeList p ∧ p ∉ s.out) ∧
      ∀ p ∈ s.out, (s.mem.pages p).ppRef = 0 → ∃ m', pageFree s.mem p = .ok m' := by
  have hbal : Balanced (pageInit m).OnFreeList s :=
    h.invariant (balanced_pageInit hm) fun _ _ _ ht _ hs => ht.step hs
  refine ⟨hbal, fun z => ?_, fun p hp hr => ?_⟩
  · obtain ⟨o, m', hm', hnone, hpop, -, -⟩ := hbal.pageAlloc z
    exact ⟨o, m', hm', hnone, hpop⟩
  · obtain ⟨m', hm', -⟩ := hbal.pageFree hp hr
    exact ⟨m', hm'⟩

/-- A machine of six pages, of which the allocator has five. -/
def tinyMem : Mem where
  npages := 6
  npagesBasemem := 5
  nextfree := 0xf0400000
  kernPgdir := 0x300
  pages _ := ⟨none, 0⟩
  pageFreeList := none
  phys _ _ := 0
  userData _ := false

/-- Two pages are taken and the first is given back; the next call hands it out again. -/
theorem pages_balanced_tiny : ∃ s, Reach pageStep (fun _ _ => True) ⟨pageInit tinyMem, ∅⟩ s ∧
    s.out = {4} ∧
    Balanced (pageInit tinyMem).OnFreeList s := by
  have hrun : ([PageCall.alloc true, .alloc false, .free 5].foldlM pageStep ⟨pageInit tinyMem,
      ∅⟩).map Pages.out =
      some {4} := by decide +kernel
  obtain ⟨s, hs, hout⟩ := Option.map_eq_some_iff.mp hrun
  have hreach : Reach pageStep (fun _ _ => True) _ s := Reach.of_foldlM hs fun _ _ _ => trivial
  exact ⟨s, hreach, hout, (pages_balanced rfl hreach).1⟩

end JOS
