import JOS.Memory.Tables
import JOS.General.Except

/-!
# The page allocator

`Pool` is what the page allocator keeps: the free list holds exactly the free pages, a
page of any use but `reserved` is one that `page_init` has not reserved, and the pages
that are referred to once by construction (directories and tables) have a reference
count of one. The counts of user data are in `JOS.Memory.Vm`.
-/

namespace JOS

open JOS.General

open Function (update)

/-- Directories and tables, to which there is one reference each. -/
def Kind.Single : Kind → Prop
  | .kern => True
  | .dir _ => True
  | .table _ _ => True
  | _ => False

/-- The number of references that a page's `pp_ref` counts. -/
def Mem.ref (m : Mem) (p : ℕ) : BitVec 16 := (m.pages p).ppRef

/-- The state of the page allocator. -/
structure Pool (m : Mem) (k : ℕ → Kind) : Prop where
  /-- Physical addresses have 32 bits. -/
  npages_le : m.npages ≤ 2 ^ 20
  /-- Reserved pages are not used. -/
  managed : ∀ p, k p ≠ .reserved → m.Managed p
  /-- The free list holds the free pages. -/
  free : ∃ l, Chain m.link m.pageFreeList l ∧ ∀ p, p ∈ l ↔ k p = .free
  /-- User data is on record. -/
  user : ∀ p, m.userData p = true ↔ k p = .data
  /-- Free pages have no references. -/
  zero : ∀ p, k p = .free → m.ref p = 0
  /-- Directories and tables have one. -/
  one : ∀ p, (k p).Single → m.ref p = 1
  /-- Pages in use are not linked. -/
  unlinked : ∀ p, k p ≠ .reserved → k p ≠ .free → m.link p = none

/-- What the page allocator never changes. -/
structure SameBase (m m' : Mem) : Prop where
  npages : m'.npages = m.npages
  npagesBasemem : m'.npagesBasemem = m.npagesBasemem
  nextfree : m'.nextfree = m.nextfree
  kernPgdir : m'.kernPgdir = m.kernPgdir

theorem SameBase.refl (m : Mem) : SameBase m m := ⟨rfl, rfl, rfl, rfl⟩

theorem SameBase.trans {m m' m'' : Mem} (h : SameBase m m') (h' : SameBase m' m'') :
    SameBase m m'' :=
  ⟨h'.1.trans h.1, h'.2.trans h.2, h'.3.trans h.3, h'.4.trans h.4⟩

theorem SameBase.managed {m m' : Mem} (h : SameBase m m') {p : ℕ} (hp : m.Managed p) :
    m'.Managed p := by
  rw [Mem.Managed, h.npages, h.npagesBasemem, h.nextfree]
  exact hp

variable {m m' : Mem} {k : ℕ → Kind} {p q : ℕ} {x : Kind} {z : Bool} {o : Option ℕ} {r : BitVec 16}

@[simp] theorem setWord_phys (m : Mem) (p i : ℕ) (w : Word) :
    (m.setWord p i w).phys = setW m.phys p i w := rfl

@[simp] theorem setWord_ref (m : Mem) (p i : ℕ) (w : Word) (q : ℕ) :
    (m.setWord p i w).ref q = m.ref q := rfl

@[simp] theorem setRef_phys (m : Mem) (p : ℕ) (r : BitVec 16) : (m.setRef p r).phys = m.phys := rfl

@[simp] theorem setRef_self (m : Mem) (p : ℕ) (r : BitVec 16) : (m.setRef p r).ref p = r := by
  simp [Mem.ref, Mem.setRef, Mem.setInfo]

theorem setRef_of_ne (h : q ≠ p) : (m.setRef p r).ref q = m.ref q := by
  simp [Mem.ref, Mem.setRef, Mem.setInfo, Function.update_of_ne h]

theorem setRef_link (m : Mem) (p : ℕ) (r : BitVec 16) : (m.setRef p r).link = m.link := by
  funext q
  by_cases h : q = p <;> simp [Mem.link, Mem.setRef, Mem.setInfo, h]

namespace Pool

theorem lt (h : Pool m k) (hp : k p ≠ .reserved) : p < 2 ^ 20 :=
  lt_of_lt_of_le (h.managed p hp).1 h.npages_le

/-- Nothing the allocator looks at has changed. -/
theorem congr (h : Pool m k) (hb : SameBase m m') (hpages : m'.pages = m.pages)
    (hl : m'.pageFreeList = m.pageFreeList)
    (hu : m'.userData = m.userData) : Pool m' k := by
  have hlink : m'.link = m.link := by
    funext q
    rw [Mem.link, Mem.link, hpages]
  refine ⟨by rw [hb.npages]; exact h.npages_le, fun p hp => hb.managed (h.managed p
    hp), ?_, ?_, ?_, ?_, ?_⟩
  · rw [hlink, hl]; exact h.free
  · rw [hu]; exact h.user
  · simp only [Mem.ref, hpages]; exact h.zero
  · simp only [Mem.ref, hpages]; exact h.one
  · rw [hlink]; exact h.unlinked

theorem setWord (h : Pool m k) (p i : ℕ) (w : Word) : Pool (m.setWord p i w) k :=
  h.congr ⟨rfl, rfl, rfl, rfl⟩ rfl rfl rfl

/-- A page in use changes its use; `r` is its count then. -/
theorem retag (h : Pool m k) (hp : k p ≠ .reserved) (hpf : k p ≠ .free) (hpd : k p ≠ .data)
    (hxf : x ≠ .free)
    (hxd : x ≠ .data) (hone : x.Single → r = 1) : Pool (m.setRef p r) (update k p x) := by
  obtain ⟨l, hl, hmem⟩ := h.free
  refine ⟨h.npages_le, fun q hq => h.managed q ?_, ⟨l, by rw [setRef_link]; exact hl, fun q => ?_⟩,
    fun q => ?_,
    fun q hq => ?_, fun q hq => ?_, fun q hq hqf => ?_⟩
  · by_cases hqp : q = p
    · rw [hqp]; exact hp
    · rwa [Function.update_of_ne hqp] at hq
  · rw [hmem]
    by_cases hqp : q = p
    · rw [hqp, Function.update_self]; exact ⟨fun h => absurd h hpf, fun h => absurd h hxf⟩
    · rw [Function.update_of_ne hqp]
  · rw [show (m.setRef p r).userData = m.userData from rfl, h.user]
    by_cases hqp : q = p
    · rw [hqp, Function.update_self]; exact ⟨fun h => absurd h hpd, fun h => absurd h hxd⟩
    · rw [Function.update_of_ne hqp]
  · by_cases hqp : q = p
    · rw [hqp, Function.update_self] at hq
      exact absurd hq hxf
    · rw [Function.update_of_ne hqp] at hq
      rw [setRef_of_ne hqp]
      exact h.zero q hq
  · by_cases hqp : q = p
    · rw [hqp, Function.update_self] at hq
      rw [hqp, setRef_self]
      exact hone hq
    · rw [Function.update_of_ne hqp] at hq
      rw [setRef_of_ne hqp]
      exact h.one q hq
  · rw [setRef_link]
    by_cases hqp : q = p
    · rw [hqp]
      exact h.unlinked p hp hpf
    · rw [Function.update_of_ne hqp] at hq hqf
      exact h.unlinked q hq hqf

/-- The count of a page of user data is not looked at here. -/
theorem setRef (h : Pool m k) (hp : k p = .data) : Pool (m.setRef p r) k := by
  refine ⟨h.npages_le, h.managed, by rw [setRef_link]; exact h.free, h.user,
    fun q hq => ?_, fun q hq => ?_,
    by rw [setRef_link]; exact h.unlinked⟩
  · rw [setRef_of_ne]
    · exact h.zero q hq
    · rintro rfl
      rw [hp] at hq
      cases hq
  · rw [setRef_of_ne]
    · exact h.one q hq
    · rintro rfl
      rw [hp] at hq
      exact hq.elim

/-- A page that is held becomes user data. -/
theorem markUser (h : Pool m k) (hp : k p = .held) :
    Pool (m.markUser p true) (update k p .data) := by
  obtain ⟨l, hl, hmem⟩ := h.free
  refine ⟨h.npages_le, fun q hq => h.managed q ?_, ⟨l, hl, fun q => ?_⟩, fun q => ?_, fun q hq =>
    ?_, fun q hq => ?_,
    fun q hq hqf => ?_⟩
  · by_cases hqp : q = p
    · rw [hqp, hp]; exact nofun
    · rwa [Function.update_of_ne hqp] at hq
  · rw [hmem]
    by_cases hqp : q = p
    · simp [hqp, hp]
    · rw [Function.update_of_ne hqp]
  · rw [Mem.markUser]
    by_cases hqp : q = p
    · simp [hqp]
    · simp only [Function.update_of_ne hqp]
      exact h.user q
  · by_cases hqp : q = p
    · rw [hqp, Function.update_self] at hq
      cases hq
    · rw [Function.update_of_ne hqp] at hq
      exact h.zero q hq
  · by_cases hqp : q = p
    · rw [hqp, Function.update_self] at hq
      exact hq.elim
    · rw [Function.update_of_ne hqp] at hq
      exact h.one q hq
  · rw [show (m.markUser p true).link q = m.link q from rfl]
    by_cases hqp : q = p
    · rw [hqp]
      exact h.unlinked p (by rw [hp]; exact nofun) (by rw [hp]; exact nofun)
    · rw [Function.update_of_ne hqp] at hq hqf
      exact h.unlinked q hq hqf

end Pool

/-! ### `page_alloc` and `page_free` -/

/-- What `page_alloc` does: the first page of the free list is taken from it, and perhaps
cleared. -/
structure Allocated (m : Mem) (k : ℕ → Kind) (z : Bool) (p : ℕ) (m' : Mem) : Prop where
  free : k p = .free
  base : SameBase m m'
  phys : m'.phys = if z then update m.phys p fun _ => 0 else m.phys
  ref : m'.ref = m.ref
  userData : m'.userData = m.userData
  pool : Pool m' (update k p .held)

/-- The free list without its first page `p`. -/
def Mem.popFree (m : Mem) (p : ℕ) : Mem :=
  { m with pageFreeList := m.link p }.setInfo p { m.pages p with ppLink := none }

theorem popFree_ref (m : Mem) (p : ℕ) : (m.popFree p).ref = m.ref := by
  funext q
  by_cases hq : q = p <;> simp [Mem.popFree, Mem.ref, Mem.setInfo, hq]

theorem popFree_link (h : q ≠ p) : (m.popFree p).link q = m.link q := by
  simp [Mem.popFree, Mem.link, Mem.setInfo, Function.update_of_ne h]

theorem popFree_link_self (m : Mem) (p : ℕ) : (m.popFree p).link p = none := by
  simp [Mem.popFree, Mem.link, Mem.setInfo]

theorem Pool.popFree (h : Pool m k) (hfl : m.pageFreeList = some p) :
    k p = .free ∧ Pool (m.popFree p) (update k p .held) := by
  obtain ⟨l, hl, hmem⟩ := h.free
  rw [hfl] at hl
  obtain ⟨t, rfl, ht⟩ := hl.of_some
  have hp : k p = .free := (hmem p).mp List.mem_cons_self
  have hpt : p ∉ t := (List.nodup_cons.mp hl.nodup).1
  refine ⟨hp, h.npages_le, fun q hq => h.managed q ?_, ⟨t, ?_, fun q => ?_⟩, fun q => ?_,
    fun q hq => ?_, fun q hq => ?_,
    fun q hq hqf => ?_⟩
  · by_cases hqp : q = p
    · rw [hqp, hp]; exact nofun
    · rwa [Function.update_of_ne hqp] at hq
  · exact ht.congr fun q hq => popFree_link fun hqp => hpt (hqp ▸ hq)
  · by_cases hqp : q = p
    · rw [hqp, Function.update_self]
      exact ⟨fun hq => absurd hq hpt, nofun⟩
    · rw [Function.update_of_ne hqp, ← hmem, List.mem_cons]
      exact ⟨.inr, fun h => h.resolve_left hqp⟩
  · rw [show (m.popFree p).userData = m.userData from rfl, h.user]
    by_cases hqp : q = p
    · simp [hqp, hp]
    · rw [Function.update_of_ne hqp]
  · rw [popFree_ref]
    by_cases hqp : q = p
    · rw [hqp, Function.update_self] at hq
      cases hq
    · rw [Function.update_of_ne hqp] at hq
      exact h.zero q hq
  · rw [popFree_ref]
    by_cases hqp : q = p
    · rw [hqp, Function.update_self] at hq
      exact hq.elim
    · rw [Function.update_of_ne hqp] at hq
      exact h.one q hq
  · by_cases hqp : q = p
    · rw [hqp]
      exact popFree_link_self m p
    · rw [Function.update_of_ne hqp] at hq hqf
      rw [popFree_link hqp]
      exact h.unlinked q hq hqf

theorem pageAlloc_of_some (hfl : m.pageFreeList = some p) : pageAlloc m z =
    if z then do
      let kva ← kaddr (m.popFree p) (page2pa p)
      return (some p, (m.popFree p).setPage kva fun _ => 0)
    else .ok (some p, m.popFree p) := by
  unfold pageAlloc
  rw [hfl]
  rfl

/-- A page that can be handed out is on the list. -/
theorem Pool.freeList_ne_none (h : Pool m k) (hp : k p = .free) : m.pageFreeList ≠ none := by
  obtain ⟨l, hl, hmem⟩ := h.free
  exact hl.ne_none_of_mem ((hmem p).mpr hp)

/-- `page_alloc` fails only when the free list is empty. -/
theorem pageAlloc_spec (h : Pool m k) (hr : pageAlloc m z = .ok (o, m')) :
    o = none ∧ m' = m ∧ m.pageFreeList = none ∨ ∃ p, o = some p ∧ Allocated m k z p m' := by
  cases hfl : m.pageFreeList with
  | none =>
    simp only [pageAlloc, hfl] at hr
    cases hr
    exact .inl ⟨rfl, rfl, rfl⟩
  | some p =>
    obtain ⟨hp, hpool⟩ := h.popFree hfl
    rw [pageAlloc_of_some hfl] at hr
    refine .inr ⟨p, ?_⟩
    by_cases hz : z = true
    · rw [if_pos hz, kaddr] at hr
      split_ifs at hr
      · cases hr
      · have hp20 : p < 2 ^ 20 := h.lt (by rw [hp]; exact nofun)
        simp only [ok_bind, pure_eq_ok, Except.ok.injEq, Prod.mk.injEq, PGNUM_page2pa hp20] at hr
        obtain ⟨rfl, rfl⟩ := hr
        refine ⟨rfl, hp, ⟨rfl, rfl, rfl, rfl⟩, by rw [if_pos hz]; rfl, popFree_ref m p, rfl,
          hpool.congr ⟨rfl, rfl, rfl, rfl⟩ rfl rfl rfl⟩
    · rw [if_neg hz] at hr
      cases hr
      exact ⟨rfl, hp, ⟨rfl, rfl, rfl, rfl⟩, by rw [if_neg hz]; rfl, popFree_ref m p, rfl, hpool⟩

/-- What `page_free` does. -/
structure Freed (m : Mem) (k : ℕ → Kind) (p : ℕ) (m' : Mem) : Prop where
  base : SameBase m m'
  phys : m'.phys = m.phys
  ref : m'.ref = m.ref
  pool : Pool m' (update k p .free)

theorem pageFree_spec (h : Pool m k) (hp : k p = .held ∨ k p = .data) (hr : pageFree m p = .ok m') :
    Freed m k p m' := by
  obtain ⟨l, hl, hmem⟩ := h.free
  have hp₁ : k p ≠ .reserved := by rcases hp with hp | hp <;> rw [hp] <;> exact nofun
  have hp₂ : k p ≠ .free := by rcases hp with hp | hp <;> rw [hp] <;> exact nofun
  rw [pageFree] at hr
  split_ifs at hr with href hlinkp
  rw [not_not] at href
  cases hr
  have hpl : p ∉ l := fun hpl => hp₂ ((hmem p).mp hpl)
  have hrefs : ({ (m.setInfo p { m.pages p with ppLink := m.pageFreeList }).markUser p false with
      pageFreeList := some p } : Mem).ref = m.ref := by
    funext q
    by_cases hq : q = p <;> simp [Mem.ref, Mem.setInfo, Mem.markUser, hq]
  refine ⟨⟨rfl, rfl, rfl, rfl⟩, rfl, hrefs, h.npages_le, fun q hq => h.managed q ?_,
    ⟨p :: l, hl.push ?_ fun q hq => ?_, fun q => ?_⟩, fun q => ?_, fun q hq => ?_, fun q hq => ?_,
    fun q hq hqf => ?_⟩
  · by_cases hqp : q = p
    · rw [hqp]; exact hp₁
    · rwa [Function.update_of_ne hqp] at hq
  · simp [Mem.link, Mem.setInfo, Mem.markUser]
  · have hqp : q ≠ p := fun h => hpl (h ▸ hq)
    simp [Mem.link, Mem.setInfo, Mem.markUser, Function.update_of_ne hqp]
  · by_cases hqp : q = p
    · simp [hqp]
    · rw [Function.update_of_ne hqp, ← hmem, List.mem_cons]
      exact ⟨fun h => h.resolve_left hqp, .inr⟩
  · by_cases hqp : q = p
    · simp [hqp, Mem.setInfo, Mem.markUser]
    · rw [Function.update_of_ne hqp, ← h.user]
      simp [Mem.setInfo, Mem.markUser, Function.update_of_ne hqp]
  · rw [hrefs]
    by_cases hqp : q = p
    · rw [hqp]; exact href
    · rw [Function.update_of_ne hqp] at hq
      exact h.zero q hq
  · rw [hrefs]
    by_cases hqp : q = p
    · rw [hqp, Function.update_self] at hq
      exact hq.elim
    · rw [Function.update_of_ne hqp] at hq
      exact h.one q hq
  · by_cases hqp : q = p
    · rw [hqp, Function.update_self] at hqf
      exact absurd rfl hqf
    · rw [Function.update_of_ne hqp] at hq hqf
      simpa [Mem.link, Mem.setInfo, Mem.markUser,
        Function.update_of_ne hqp] using h.unlinked q hq hqf

end JOS
