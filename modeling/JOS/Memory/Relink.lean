import JOS.General.Except
import JOS.General.TailPointer
import JOS.Kern.MemInit

/-!
# The free list in a new order

When only the first 4 MB are mapped, `check_page_free_list` moves the pages below that
limit to the front of `page_free_list`, through two tail pointers. Each of the two groups
is a list that is being built (`Group`); a pass adds a page to one of them and leaves the
other and the pages that are still to come alone (`Relinked.pass`). At the end the low
pages lead to the high ones (`checkPageFreeList_partition`).
-/

namespace JOS

open JOS.General

variable {m m' : Mem} {s : Relink} {t t' : Bool} {l l' d rest : List ℕ} {o : Option ℕ} {p q f : ℕ}

/-! ### The two groups -/

/-- A page of the first 4 MB. -/
def lowPage (p : ℕ) : Bool := page2pa p < 0x400000

/-- `pagetype`. -/
def pageType (p : ℕ) : Bool := !lowPage p

/-- The directory index tells the two apart. -/
theorem pagetype_eq (p : ℕ) : decide (PDX (page2pa p) ≥ 1) = pageType p := by
  have h : PDX (page2pa p) ≥ 1 ↔ ¬ page2pa p < 0x400000 := by
    rw [PDX_eq, PGNUM_eq, BitVec.lt_def, show (0x400000 : Word).toNat = 0x400000 from rfl]
    omega
  rw [pageType, lowPage, decide_eq_decide.mpr h, decide_not]

/-- The variable that a group begins at. -/
def Relink.head (s : Relink) (t : Bool) : Option ℕ := if t then s.pp2 else s.pp1

/-- Where the next page of a group is stored, when its last page is `tail`. -/
def tailPtr (t : Bool) : Option ℕ → LinkPtr
  | none => if t then .pp2 else .pp1
  | some p => .ppLink p

/-- The pages of type `t` so far are `l`. -/
def Group (s : Relink) (t : Bool) (l : List ℕ) : Prop := ∃ tail, s.tp t = tailPtr t tail ∧
    Built s.m.link (s.head t) tail l

theorem setInfo_ppLink (m : Mem) (p : ℕ) (o : Option ℕ) :
    (m.setInfo p { m.pages p with ppLink := o }).link = Function.update m.link p o := by
  funext q
  by_cases hq : q = p
  · subst hq
    simp [Mem.link, Mem.setInfo]
  · simp [Mem.link, Mem.setInfo, Function.update_of_ne hq]

/-- What a store changes. -/
theorem store_link (s : Relink) (t : Bool) (tail o : Option ℕ) :
    (s.store (tailPtr t tail) o).m.link =
    match tail with
    | none => s.m.link
    | some p => Function.update s.m.link p o := by
  cases tail with
  | none => cases t <;> rfl
  | some p => exact setInfo_ppLink s.m p o

theorem store_tp (s : Relink) (r : LinkPtr) (o : Option ℕ) : (s.store r o).tp = s.tp := by
  cases r <;> rfl

theorem store_head (s : Relink) (t t' : Bool) (tail o : Option ℕ) :
    (s.store (tailPtr t tail) o).head t' =
    if tail = none ∧ t' = t then o else s.head t' := by
  cases tail <;> cases t <;> cases t' <;> rfl

/-- After a store through its tail pointer, a group leads to what has been stored. -/
theorem Group.seg (h : Group s t l) (hnodup : l.Nodup) (o : Option ℕ) :
    Seg (s.store (s.tp t) o).m.link ((s.store (s.tp t) o).head t) l o := by
  obtain ⟨tail, htp, h⟩ := h
  rw [htp, store_link, store_head]
  cases tail with
  | none =>
    cases h
    rw [if_pos ⟨rfl, rfl⟩]
    exact .nil
  | some p =>
    rw [if_neg fun hnone => nomatch hnone.1]
    exact h.seg_of_store hnodup

/-- A store through the tail pointer of a group changes no link of another page. -/
theorem Group.link_of_not_mem (h : Group s t l) (hp : p ∉ l) :
    (s.store (s.tp t) o).m.link p = s.m.link p := by
  obtain ⟨tail, htp, h⟩ := h
  rw [htp, store_link]
  cases tail with
  | none => rfl
  | some q =>
    refine Function.update_of_ne (fun heq => hp ?_) _ _
    rw [heq]
    exact h.tail_mem

/-- The other group stays as it is. -/
theorem Group.other (h : Group s t l) (h' : Group s t' l') (ht : t' ≠ t) (hnodup : l'.Nodup)
    (hapart : ∀ p ∈ l', p ∉ l) :
    Group (s.store (s.tp t) o) t' l' := by
  obtain ⟨tail', htp', h'⟩ := h'
  refine ⟨tail', by rw [store_tp, htp'], ?_⟩
  have hhead : (s.store (s.tp t) o).head t' = s.head t' := by
    obtain ⟨tail, htp, -⟩ := h
    rw [htp, store_head, if_neg fun hsame => ht hsame.2]
  rw [hhead]
  exact h'.congr hnodup fun p hp _ => h.link_of_not_mem (hapart p hp)

/-! ### The loop -/

/-- After the pages of `d`: the two groups, and nothing else has changed. -/
structure Relinked (m : Mem) (s : Relink) (d : List ℕ) : Prop where
  group : ∀ t, Group s t (d.filter (pageType · = t))
  link : ∀ p ∉ d, s.m.link p = m.link p
  ref : ∀ p, (s.m.pages p).ppRef = (m.pages p).ppRef
  rest : s.m = { m with pages := s.m.pages }

theorem store_ref (s : Relink) (r : LinkPtr) (o : Option ℕ) (p : ℕ) :
    ((s.store r o).m.pages p).ppRef = (s.m.pages p).ppRef := by
  cases r with
  | pp1 => rfl
  | pp2 => rfl
  | ppLink q =>
    by_cases hp : p = q
    · subst hp
      simp [Relink.store, Mem.setInfo]
    · simp [Relink.store, Mem.setInfo, Function.update_of_ne hp]

theorem store_rest (s : Relink) (r : LinkPtr) (o : Option ℕ) :
    (s.store r o).m = { s.m with pages := (s.store r o).m.pages } := by
  cases r <;> rfl

/-- What a store through a tail pointer keeps. -/
theorem Relinked.store_keeps (h : Relinked m s d) (t : Bool) (o : Option ℕ) :
    (∀ p ∉ d, (s.store (s.tp t) o).m.link p = m.link p) ∧
      (∀ p, ((s.store (s.tp t) o).m.pages p).ppRef = (m.pages p).ppRef) ∧
      (s.store (s.tp t) o).m = { m with pages := (s.store (s.tp t) o).m.pages } := by
  refine ⟨fun p hp => ?_, fun p => (store_ref s _ o p).trans (h.ref p), ?_⟩
  · rw [(h.group t).link_of_not_mem fun hmem => hp (List.mem_of_mem_filter hmem)]
    exact h.link p hp
  · rw [store_rest, h.rest]

/-- **A pass** adds a page to its group. -/
theorem Relinked.pass (h : Relinked m s d) (hnodup : (d ++ [p]).Nodup) :
    Relinked m (relinkPass 1 s p) (d ++ [p]) := by
  obtain ⟨hd, -, hp⟩ := List.nodup_append.mp hnodup
  obtain ⟨hlink, href, hrest⟩ := h.store_keeps (pageType p) (some p)
  rw [relinkPass, pagetype_eq]
  refine ⟨fun t => ?_, fun q hq => hlink q fun hmem => hq (List.mem_append_left _ hmem),
    href, hrest⟩
  rw [List.filter_append]
  by_cases ht : t = pageType p
  · subst ht
    have hone : [p].filter (pageType · = pageType p) = [p] := by simp
    rw [hone]
    exact ⟨some p, Function.update_self .., .upTo ((h.group _).seg (hd.filter _) (some p))⟩
  · have hnone : [p].filter (pageType · = t) = [] := by simp [Ne.symm ht]
    rw [hnone, List.append_nil]
    have hother := (h.group (pageType p)).other (o := some p) (h.group t) ht (hd.filter _)
        fun q hq hq' => by
      have hqt : pageType q = t := by simpa using List.of_mem_filter hq
      have hqp : pageType q = pageType p := by simpa using List.of_mem_filter hq'
      exact ht (hqt.symm.trans hqp)
    obtain ⟨tail, htp, hbuilt⟩ := hother
    refine ⟨tail, ?_, hbuilt⟩
    rw [← htp, store_tp]
    exact Function.update_of_ne ht _ _

theorem Relinked.start (m : Mem) (pp1 pp2 : Option ℕ) :
    Relinked m ⟨m, pp1, pp2, fun pagetype => if pagetype then .pp2 else .pp1⟩ [] :=
  ⟨fun _ => ⟨none, rfl, .empty⟩, fun _ _ => rfl, fun _ => rfl, rfl⟩

/-- **The loop** goes through the list as it was. -/
theorem Relinked.loop (hrest : Chain m.link o rest) : ∀ {d : List ℕ} {s : Relink} {f : ℕ},
    Relinked m s d → (d ++ rest).Nodup →
    rest.length ≤ f → ∃ s', relinkLoop 1 f o s = .ok s' ∧ Relinked m s' (d ++ rest) := by
  induction hrest with
  | nil =>
    intro d s f h _ _
    refine ⟨s, by rw [relinkLoop], ?_⟩
    rwa [List.append_nil]
  | @cons p rest _ ih =>
    intro d s f h hnodup hf
    obtain ⟨f, rfl⟩ := Nat.exists_eq_succ_of_ne_zero
      (Nat.ne_of_gt (Nat.lt_of_lt_of_le (Nat.succ_pos _) hf))
    rw [List.append_cons] at hnodup ⊢
    have hpass := h.pass (p := p) (List.nodup_append.mp hnodup).1
    obtain ⟨s', hs', h'⟩ := ih hpass hnodup (Nat.le_of_succ_le_succ hf)
    refine ⟨s', ?_, h'⟩
    -- the link of the page is still the old one
    have hnext : (relinkPass 1 s p).m.link p = m.link p := by
      have hp : p ∉ d := fun hmem =>
        (List.nodup_append.mp (List.nodup_append.mp hnodup).1).2.2 p hmem p List.mem_cons_self rfl
      rw [relinkPass, pagetype_eq]
      exact (h.store_keeps (pageType p) (some p)).1 p hp
    rw [relinkLoop, hnext]
    exact hs'

/-! ### The new list -/

/-- `l'` is `l` in another order: first the pages of the first 4 MB, then the others, each group in
its old order. -/
structure StablePartition (l l' : List ℕ) : Prop where
  perm : l'.Perm l
  lowFirst : l'.Pairwise fun p q => lowPage q = true → lowPage p = true
  low : l'.filter lowPage = l.filter lowPage
  high : l'.filter (!lowPage ·) = l.filter (!lowPage ·)

theorem stablePartition_append (l : List ℕ) :
    StablePartition l (l.filter lowPage ++ l.filter (!lowPage ·)) where
  perm := List.filter_append_perm lowPage l
  lowFirst := by
    refine List.pairwise_append.mpr ⟨?_, ?_, ?_⟩
    · exact List.pairwise_of_forall_mem_list fun p hp _ _ _ => List.of_mem_filter hp
    · refine List.pairwise_of_forall_mem_list fun p _ q hq hlow => ?_
      have := List.of_mem_filter hq
      rw [hlow] at this
      cases this
    · exact fun p hp _ _ _ => List.of_mem_filter hp
  low := by simp [List.filter_append, List.filter_filter]
  high := by simp [List.filter_append, List.filter_filter]

/-- What the branch leaves: the free list in its new order, and everything else as it was. -/
structure Reordered (m m' : Mem) (l : List ℕ) : Prop where
  list : ∃ l', Chain m'.link m'.pageFreeList l' ∧ l'.Nodup ∧ StablePartition l l'
  link : ∀ p ∉ l, m'.link p = m.link p
  ref : ∀ p, (m'.pages p).ppRef = (m.pages p).ppRef
  rest : m' = { m with pages := m'.pages, pageFreeList := m'.pageFreeList }

/-- The two closing assignments. -/
theorem Relinked.close (h : Relinked m s l) (hnodup : l.Nodup) :
    ∃ s', s' = (s.store (s.tp true) none).store ((s.store (s.tp true) none).tp false)
      (s.store (s.tp true) none).pp2 ∧
      Chain s'.m.link s'.pp1 (l.filter lowPage ++ l.filter (!lowPage ·)) ∧
      (∀ p ∉ l, s'.m.link p = m.link p) ∧
      (∀ p, (s'.m.pages p).ppRef = (m.pages p).ppRef) ∧ s'.m = { m with pages := s'.m.pages } := by
  have hlow : l.filter (pageType · = false) = l.filter lowPage := by
    refine List.filter_congr fun p _ => ?_
    simp [pageType]
  have hhigh : l.filter (pageType · = true) = l.filter (!lowPage ·) := by
    refine List.filter_congr fun p _ => ?_
    simp [pageType]
  obtain ⟨hlink, href, hrest⟩ := h.store_keeps true none
  have hseg := (h.group true).seg (hnodup.filter _) none
  have hapart : ∀ p ∈ l.filter lowPage, p ∉ l.filter (!lowPage ·) := by
    intro p hp hp'
    have := List.of_mem_filter hp'
    rw [List.of_mem_filter hp] at this
    cases this
  have hgroup := (h.group true).other (o := none) (h.group false) Bool.false_ne_true
    (hnodup.filter _) (by rwa [hlow, hhigh])
  rw [hhigh] at hseg
  rw [hlow] at hgroup
  generalize s.store (s.tp true) none = s₁ at *
  have hseg' := hgroup.seg (hnodup.filter _) s₁.pp2
  refine ⟨_, rfl, hseg'.chain_append ?_, fun p hp => ?_, fun p => (store_ref ..).trans (href p), ?_⟩
  · -- the high pages, up to null, are not touched by the second assignment
    have hchain : Chain s₁.m.link s₁.pp2 (l.filter (!lowPage ·)) := by
      have := hseg.chain_append .nil
      rwa [List.append_nil] at this
    exact hchain.congr fun p hp => hgroup.link_of_not_mem fun hp' => hapart p hp' hp
  · rw [hgroup.link_of_not_mem fun hmem => hp (List.mem_of_mem_filter hmem)]
    exact hlink p hp
  · rw [store_rest, hrest]

/-- The loop and the assignments together. -/
theorem relinkFreeList_reordered (hl : Chain m.link m.pageFreeList l) (hf : l.length ≤ f)
    (pp1 pp2 : Option ℕ) :
    ∃ m', relinkFreeList 1 f m pp1 pp2 = .ok m' ∧ Reordered m m' l := by
  obtain ⟨s, hs, h⟩ := (Relinked.start m pp1 pp2).loop hl hl.nodup hf
  rw [List.nil_append] at h
  obtain ⟨s', hs', hchain, hlink, href, hrest⟩ := h.close hl.nodup
  refine ⟨{ s'.m with pageFreeList := s'.pp1 }, ?_,
    ⟨_, hchain, hchain.nodup, stablePartition_append l⟩, hlink, href, ?_⟩
  · rw [relinkFreeList, hs, hs']
    rfl
  · rw [hrest]

/-! ### The whole check -/

/-- The loops that leave the links alone go through the list. -/
theorem freeListPages_eq (hl : Chain m.link o l) : l.length ≤ f → freeListPages m f o = .ok l := by
  induction hl generalizing f with
  | nil => intro _; rw [freeListPages]
  | cons _ ih =>
    intro hf
    obtain ⟨f, rfl⟩ := Nat.exists_eq_succ_of_ne_zero
      (Nat.ne_of_gt (Nat.lt_of_lt_of_le (Nat.succ_pos _) hf))
    rw [freeListPages, ih (Nat.le_of_succ_le_succ hf)]
    rfl

theorem markFreePage_pages (h : markFreePage q m p = .ok m') : m'.pages = m.pages ∧
    m'.pageFreeList = m.pageFreeList := by
  rw [markFreePage] at h
  split_ifs at h with hlow
  · obtain ⟨kva, -, h⟩ := bind_eq_ok.mp h
    cases h
    exact ⟨rfl, rfl⟩
  · cases h
    exact ⟨rfl, rfl⟩

theorem bootAlloc_zero_pages {fin r : Word} (h : bootAlloc fin m 0 = .ok (r, m')) :
    m'.pages = m.pages ∧ m'.pageFreeList = m.pageFreeList := by
  rw [bootAlloc, if_neg (by decide)] at h
  cases h
  split_ifs <;> exact ⟨rfl, rfl⟩

/-- After the reordering `check_page_free_list(1)` leaves the list alone, and comes back when its
assertions hold. -/
theorem checkPageFreeList_keeps {m₁ : Mem} {fin : Word} {pp1 pp2 : Option ℕ}
    (hm₁ : relinkFreeList 1 f m pp1 pp2 = .ok m₁)
    (hchain : Chain m₁.link m₁.pageFreeList l) (hf : l.length ≤ f)
    (h : checkPageFreeList f fin m true pp1 pp2 = .ok m') :
    m'.pages = m₁.pages ∧ m'.pageFreeList = m₁.pageFreeList := by
  rw [checkPageFreeList] at h
  dsimp only at h
  by_cases hnull : m.pageFreeList = none
  · rw [if_pos hnull] at h
    cases h
  rw [if_neg hnull, if_pos rfl, if_pos rfl, hm₁, ok_bind, freeListPages_eq hchain hf, ok_bind] at h
  obtain ⟨m₂, hm₂, h⟩ := bind_eq_ok.mp h
  obtain ⟨⟨r, m₃⟩, hm₃, h⟩ := bind_eq_ok.mp h
  obtain ⟨l₃, -, h⟩ := bind_eq_ok.mp h
  have hsame : m₃ = m' := by
    split_ifs at h with hok
    cases h
    rfl
  subst hsame
  have hmark : m₂.pages = m₁.pages ∧ m₂.pageFreeList = m₁.pageFreeList :=
    foldlM_invariant (I := fun m => m.pages = m₁.pages ∧ m.pageFreeList = m₁.pageFreeList)
      hm₂ ⟨rfl, rfl⟩
      fun m m' p _ hm hstep =>
        ⟨(markFreePage_pages hstep).1.trans hm.1, (markFreePage_pages hstep).2.trans hm.2⟩
  obtain ⟨hpages, hlist⟩ := bootAlloc_zero_pages hm₃
  exact ⟨hpages.trans hmark.1, hlist.trans hmark.2⟩

/-- **The reordering is a stable partition** of any free list that comes to an end, and the rest of
`check_page_free_list(1)` leaves it so. -/
theorem checkPageFreeList_partition (hl : Chain m.link m.pageFreeList l) (hf : l.length ≤ f)
    (fin : Word) (pp1 pp2 : Option ℕ) :
    ∃ m₁, relinkFreeList 1 f m pp1 pp2 = .ok m₁ ∧ Reordered m m₁ l ∧
      ∀ m', checkPageFreeList f fin m true pp1 pp2 = .ok m' → m'.pages = m₁.pages ∧
      m'.pageFreeList = m₁.pageFreeList := by
  obtain ⟨m₁, hm₁, hre⟩ := relinkFreeList_reordered hl hf pp1 pp2
  refine ⟨m₁, hm₁, hre, fun m' h => ?_⟩
  obtain ⟨l', hchain, -, hpart⟩ := hre.list
  exact checkPageFreeList_keeps hm₁ hchain (by rwa [hpart.perm.length_eq]) h

/-- Three pages, threaded 2048, 5, 1025. -/
def threePages : Mem :=
  { bootMem with
    pages := fun p => ⟨if p = 2048 then some 5 else if p = 5 then some 1025 else none, 0⟩
    pageFreeList := some 2048 }

theorem threePages_chain : Chain threePages.link threePages.pageFreeList [2048, 5, 1025] :=
  .cons (.cons (.cons .nil))

theorem checkPageFreeList_partition_threePages :
    ∃ m₁, relinkFreeList 1 3 threePages none none = .ok m₁ ∧
      Reordered threePages m₁ [2048, 5, 1025] ∧
      ∀ m', checkPageFreeList 3 0xf0112000 threePages true none none = .ok m' →
        m'.pages = m₁.pages ∧ m'.pageFreeList = m₁.pageFreeList :=
  checkPageFreeList_partition threePages_chain (Nat.le_refl 3) 0xf0112000 none none

end JOS
