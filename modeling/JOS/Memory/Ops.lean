import JOS.Memory.Space

/-!
# What can happen to the address spaces

`VmState` is what the memory code works on: physical memory, the page directory of each
environment, and the use of each page. `VmState.Sound` is the invariant `Vm` together
with counts that fit their sixteen bits. The kernel changes the address spaces in six
ways (`VmOp`), and `Does` says of each what it does to the entries that user programs
see and what it leaves alone. Every one of them keeps a sound state sound
(`Does.sound`), and the state `mem_init` leaves is sound (`Mem.Booted.sound`).
-/

namespace JOS

open JOS.General

open Function (update)

/-- Memory, page directories and the uses of pages. -/
structure VmState where
  /-- Physical memory and its bookkeeping. -/
  mem : Mem
  /-- The page directory of each environment. -/
  dirs : ℕ → Option ℕ
  /-- The use of each page. -/
  kind : ℕ → Kind

namespace VmState

/-- The entry for user page `v` of environment `e`. -/
def upte (x : VmState) (e v : ℕ) : Word := JOS.upte x.mem.phys x.dirs e v

/-- The memory code's invariant holds, and no count has wrapped. -/
structure Sound (x : VmState) : Prop where
  vm : Vm x.mem x.dirs x.kind
  small : Small x.upte

end VmState

/-- One thing the kernel does to the address spaces. -/
inductive VmOp where
  /-- `e` gets an empty address space. -/
  | create (e : ℕ)
  /-- A page is obtained, and mapped at `va` of `e`. -/
  | alloc (e : ℕ) (va perm : Word)
  /-- The page that is mapped at `va` of `e` is mapped at `va'` of `e'`. -/
  | share (e : ℕ) (va : Word) (e' : ℕ) (va' perm : Word)
  /-- The page at `va` of `e` is unmapped. -/
  | unmap (e : ℕ) (va : Word)
  /-- Nothing is mapped or unmapped. -/
  | keep
  /-- `e` loses its address space. -/
  | destroy (e : ℕ)

variable {x x' : VmState} {m : Mem} {D : ℕ → Option ℕ} {k k' : ℕ → Kind} {op : VmOp}
  {d e e' p v : ℕ}
  {va va' perm w : Word}

/-- What each of them does. -/
inductive Does (x : VmState) : VmOp → VmState → Prop where
  | create {e p : ℕ} {m : Mem} {k : ℕ → Kind} : x.dirs e = none →
      Vm m (update x.dirs e (some p)) k →
      upte m.phys (update x.dirs e (some p)) = x.upte → Frame x.mem x.kind m k →
      Does x (.create e) ⟨m, update x.dirs e (some p), k⟩
  | alloc {e d p : ℕ} {va perm : Word} {m : Mem} {k : ℕ → Kind} : x.dirs e = some d → va < UTOP →
      IsFlags perm →
      AllocMapped x.mem x.dirs x.kind e va perm p m k → Does x (.alloc e va perm) ⟨m, x.dirs, k⟩
  | share {e e' d p : ℕ} {va va' perm : Word} {m : Mem} {k : ℕ → Kind} : x.dirs e' = some d →
      va' < UTOP → IsFlags perm →
      Names (x.upte e (PGNUM va)) p →
      (mapCount x.upte p < 65535 ∨ Names (x.upte e' (PGNUM va')) p) →
      Mapped x.mem x.dirs x.kind e' va' (mkPte p perm) m k →
      Does x (.share e va e' va' perm) ⟨m, x.dirs, k⟩
  | unmap {e d : ℕ} {va : Word} {m : Mem} {k : ℕ → Kind} : x.dirs e = some d → va < UTOP →
      Mapped x.mem x.dirs x.kind e va 0 m k → Does x (.unmap e va) ⟨m, x.dirs, k⟩
  | keep {m : Mem} : Stored x.mem x.dirs x.kind m → Does x .keep ⟨m, x.dirs, x.kind⟩
  | destroy {e d : ℕ} {m : Mem} {k : ℕ → Kind} : x.dirs e = some d →
      Emptied x.mem x.dirs x.kind e m k →
      Does x (.destroy e) ⟨m, update x.dirs e none, k⟩

/-- Nothing happens. -/
theorem Does.refl (hx : x.Sound) : Does x .keep x := .keep hx.vm.stored

/-- The environments that have an address space are in the table, and its pages are below `UTOP`. -/
theorem Vm.inRange (h : Vm m D k) (hd : D e = some d) (hva : va < UTOP) : e < NENV ∧
    PGNUM va < NUPAGES :=
  ⟨h.tables.bound e (by rw [hd]; exact Option.some_ne_none d), (PGNUM_lt_iff va).mpr hva⟩

/-- A page handed out by the allocator is mapped by nobody. -/
theorem Vm.not_names_free (h : Vm m D k) (hp : k p = .free) (e v : ℕ) :
    ¬ Names (upte m.phys D e v) p := by
  intro hn
  have hdata := h.tables.data_of_names hn
  rw [hp] at hdata
  cases hdata

/-- **Each operation keeps a sound state sound.** -/
theorem Does.sound (h : Does x op x') (hx : x.Sound) : x'.Sound := by
  cases h with
  | create _ hvm hupte _ =>
    exact ⟨hvm, fun q => (congrArg (fun u => mapCount u q) hupte).trans_lt (hx.small q)⟩
  | alloc hd hva hf ha =>
    obtain ⟨he, hv⟩ := hx.vm.inRange hd hva
    have hp20 := hx.vm.pool.lt (show x.kind _ ≠ .reserved by rw [ha.free]; simp)
    refine ⟨ha.vm, ?_⟩
    have hzero := mapCount_eq_zero (hx.vm.not_names_free ha.free)
    have hroom : Small (setAt x.upte _ (PGNUM _) (mkPte _ _)) :=
      hx.small.set he hv (names_mkPte hp20 hf)
        (.inl (by rw [show mapCount x.upte _ = 0 from hzero]; decide))
    exact fun q => (congrArg (fun u => mapCount u q) ha.entries).trans_lt (hroom q)
  | share hd hva hf hn hroom hm =>
    obtain ⟨he, hv⟩ := hx.vm.inRange hd hva
    have hp20 := hx.vm.lt_of_data (hx.vm.tables.data_of_names hn)
    refine ⟨hm.vm, fun q => ?_⟩
    exact (congrArg (fun u => mapCount u q) hm.entries).trans_lt
      (hx.small.set he hv (names_mkPte hp20 hf) hroom q)
  | unmap hd hva hm =>
    refine ⟨hm.vm, fun q => ?_⟩
    exact (congrArg (fun u => mapCount u q) hm.entries).trans_lt (hx.small.clear hx.vm.bound _ _ q)
  | keep hs => exact ⟨hs.vm, fun q => (congrArg (fun u => mapCount u q) hs.entries).trans_lt
    (hx.small q)⟩
  | destroy _ h => exact ⟨h.vm, h.small⟩

/-- What the allocator never changes. -/
theorem Does.base (h : Does x op x') : SameBase x.mem x'.mem := by
  cases h with
  | create _ _ _ hframe => exact hframe.base
  | alloc _ _ _ ha => exact ha.base
  | share _ _ _ _ _ hm => exact hm.frame.base
  | unmap _ _ hm => exact hm.frame.base
  | keep hs => exact hs.base
  | destroy _ h => exact h.base

/-- No page is put aside. -/
theorem Does.aside (h : Does x op x') (hp : (x'.kind p).Aside) : (x.kind p).Aside := by
  cases h with
  | create _ _ _ hframe => exact hframe.aside p hp
  | alloc _ _ _ ha => exact ha.aside p hp
  | share _ _ _ _ _ hm => exact hm.frame.aside p hp
  | unmap _ _ hm => exact hm.frame.aside p hp
  | keep _ => exact hp
  | destroy _ h => exact h.aside p hp

/-- A page of user data was one, or has been obtained now. -/
theorem Does.data (h : Does x op x') (hx : x.Sound) (hp : x'.kind p = .data) :
    x.kind p = .data ∨ ∃ e va perm, op = .alloc e va perm ∧ Names (x'.upte e (PGNUM va)) p := by
  cases h with
  | create _ _ _ hframe => exact .inl (hframe.data p hp)
  | @alloc e d p' va perm m k hd hva hf ha =>
    rcases ha.data p hp with rfl | hold
    · have hp20 : p < 2 ^ 20 := hx.vm.pool.lt (by rw [ha.free]; simp)
      refine .inr ⟨e, va, perm, rfl, ?_⟩
      have hentry : JOS.upte m.phys x.dirs e (PGNUM va) = mkPte p perm := by
        rw [ha.entries, setAt_self]
      have hnames := names_mkPte hp20 hf
      rwa [← hentry] at hnames
    · exact .inl hold
  | share _ _ _ _ _ hm => exact .inl (hm.frame.data p hp)
  | unmap _ _ hm => exact .inl (hm.frame.data p hp)
  | keep _ => exact .inl hp
  | destroy _ h => exact .inl (h.data p hp)

/-- The environment whose directory an operation makes or takes away. -/
def VmOp.dirOf : VmOp → Option ℕ
  | .create e => some e
  | .destroy e => some e
  | _ => none

/-- Other environments keep their directories. -/
theorem Does.dirs_of_ne (h : Does x op x') (he : op.dirOf ≠ some e) : x'.dirs e = x.dirs e := by
  have hne : ∀ e', op.dirOf = some e' → e ≠ e' := by
    rintro e' he' rfl
    exact he he'
  cases h with
  | create => exact Function.update_of_ne (hne _ rfl) _ _
  | destroy => exact Function.update_of_ne (hne _ rfl) _ _
  | _ => rfl

/-- **What changes an entry** of an environment is an operation on that very page of it, or takes
its whole address space. -/
theorem Does.changes (h : Does x op x') (hne : x'.upte e v ≠ x.upte e v) :
    (∃ va perm p, op = .alloc e va perm ∧ v = PGNUM va ∧ x.kind p = .free) ∨
    (∃ e₀ va₀ va perm p, op = .share e₀ va₀ e va perm ∧ v = PGNUM va ∧
      Names (x.upte e₀ (PGNUM va₀)) p ∧
      mkPte p perm ≠ x.upte e v) ∨
    (∃ va, op = .unmap e va ∧ v = PGNUM va) ∨ op = .destroy e := by
  have hset : ∀ {e₁ v₁ w} {y : VmState}, JOS.upte y.mem.phys y.dirs = setAt x.upte e₁ v₁ w →
      y.upte e v ≠ x.upte e v →
      e = e₁ ∧ v = v₁ ∧ w ≠ x.upte e v := by
    intro e₁ v₁ w y hy hne
    have hy : y.upte e v = setAt x.upte e₁ v₁ w e v := congrFun (congrFun hy e) v
    by_cases hev : e = e₁ ∧ v = v₁
    · obtain ⟨rfl, rfl⟩ := hev
      rw [hy, setAt_self] at hne
      exact ⟨rfl, rfl, hne⟩
    · rw [hy, setAt_of_ne hev] at hne
      exact absurd rfl hne
  cases h with
  | create _ _ hupte _ => exact absurd (congrFun (congrFun hupte e) v) hne
  | alloc _ _ _ ha =>
    obtain ⟨rfl, rfl, -⟩ := hset ha.entries hne
    exact .inl ⟨_, _, _, rfl, rfl, ha.free⟩
  | share _ _ _ hn _ hm =>
    obtain ⟨rfl, rfl, hw⟩ := hset hm.entries hne
    exact .inr (.inl ⟨_, _, _, _, _, rfl, rfl, hn, hw⟩)
  | unmap _ _ hm =>
    obtain ⟨rfl, rfl, -⟩ := hset hm.entries hne
    exact .inr (.inr (.inl ⟨_, rfl, rfl⟩))
  | keep hs => exact absurd (congrFun (congrFun hs.entries e) v) hne
  | destroy _ h =>
    refine .inr (.inr (.inr ?_))
    by_contra hee
    exact hne ((h.entries e v).trans (if_neg fun he => hee (by rw [he])))

/-! ### After boot -/

open Classical in
/-- The uses of pages after boot. -/
noncomputable def bootKind (m : Mem) (p : ℕ) : Kind :=
  if ¬ m.Managed p then .reserved else if ∃ i, m.KernTable i ∧
    m.kernTable i = p then .kern else .free

section Boot

theorem bootKind_reserved (hp : ¬ m.Managed p) : bootKind m p = .reserved := if_pos hp

theorem bootKind_kern (hp : m.Managed p) {i : ℕ} (hi : m.KernTable i) (hip : m.kernTable i = p) :
    bootKind m p = .kern := by
  rw [bootKind, if_neg (not_not.mpr hp), if_pos ⟨i, hi, hip⟩]

/-- The cases. -/
theorem bootKind_cases (m : Mem) (p : ℕ) : ¬ m.Managed p ∧ bootKind m p = .reserved ∨
    m.Managed p ∧ (∃ i, m.KernTable i ∧ m.kernTable i = p) ∧ bootKind m p = .kern ∨
    m.Managed p ∧ (∀ i, m.KernTable i → m.kernTable i ≠ p) ∧ bootKind m p = .free := by
  by_cases hp : m.Managed p
  · by_cases hi : ∃ i, m.KernTable i ∧ m.kernTable i = p
    · obtain ⟨i, hi, hip⟩ := hi
      exact .inr (.inl ⟨hp, ⟨i, hi, hip⟩, bootKind_kern hp hi hip⟩)
    · refine .inr (.inr ⟨hp, fun i hk hip => hi ⟨i, hk, hip⟩, ?_⟩)
      rw [bootKind, if_neg (not_not.mpr hp), if_neg hi]
  · exact .inl ⟨hp, bootKind_reserved hp⟩

/-- An entry of the kernel's half, in the two ways of saying it. -/
theorem kernEntry_iff {i : ℕ} : KernEntry m.phys m.kernPgdir i p ↔ m.KernTable i ∧
    m.kernTable i = p := by
  rw [KernEntry, Mem.KernTable, Mem.kernTable, Names]
  tauto

/-- **The state `mem_init` leaves is sound**, when no environment has an address space. -/
theorem Mem.Booted.sound (h : m.Booted) : (VmState.mk m (fun _ => none) (bootKind m)).Sound := by
  have hne : ∀ p, bootKind m p = .reserved ∨ bootKind m p = .kern ∨ bootKind m p = .free := by
    intro p
    rcases bootKind_cases m p with ⟨-, hk⟩ | ⟨-, -, hk⟩ | ⟨-, -, hk⟩
    · exact .inl hk
    · exact .inr (.inl hk)
    · exact .inr (.inr hk)
  have hno : ∀ {p y}, y ≠ .reserved → y ≠ .kern → y ≠ .free → bootKind m p ≠ y := by
    rintro p y h₁ h₂ h₃ rfl
    rcases hne p with hk | hk | hk
    · exact h₁ hk
    · exact h₂ hk
    · exact h₃ hk
  have hupte : ∀ e v, upte m.phys (fun _ => none) e v = 0 := fun e v => upte_of_none rfl
  have htables : Tables m.kernPgdir m.phys (fun _ => none) (bootKind m) := {
    kernPgdir := bootKind_reserved h.kernPgdir.2
    kernUser := h.user
    kern := fun p => by
      constructor
      · intro hk
        rcases bootKind_cases m p with ⟨-, hk'⟩ | ⟨-, ⟨i, hi⟩, -⟩ | ⟨-, -, hk'⟩
        · rw [hk'] at hk
          cases hk
        · exact ⟨i, kernEntry_iff.mpr hi⟩
        · rw [hk'] at hk
          cases hk
      · rintro ⟨i, hentry⟩
        obtain ⟨hi, rfl⟩ := kernEntry_iff.mp hentry
        exact bootKind_kern (h.table i hi).1 hi rfl
    kern_inj := fun i j p hi hj => by
      obtain ⟨hi, hip⟩ := kernEntry_iff.mp hi
      obtain ⟨hj, hjp⟩ := kernEntry_iff.mp hj
      exact h.table_inj i j hi hj (hip.trans hjp.symm)
    bound := fun e he => absurd rfl he
    dir := fun e d => ⟨fun hd => absurd hd (by simp), fun hk =>
      absurd hk (hno (by simp) (by simp) (by simp))⟩
    pde := fun e d i hd => by cases hd
    table := fun p e i hk => absurd hk (hno (by simp) (by simp) (by simp))
    pte := fun p e i j hk => absurd hk (hno (by simp) (by simp) (by simp)) }
  have hpool : Pool m (bootKind m) := {
    npages_le := h.npages_le
    managed := fun p hk => by
      rcases bootKind_cases m p with ⟨-, hk'⟩ | ⟨hp, -⟩ | ⟨hp, -⟩
      · exact absurd hk' hk
      · exact hp
      · exact hp
    free := by
      obtain ⟨l, hl, hmem⟩ := h.free
      refine ⟨l, hl, fun p => ?_⟩
      rw [hmem]
      rcases bootKind_cases m p with ⟨hp, hk⟩ | ⟨hp, ⟨i, hi, hip⟩, hk⟩ | ⟨hp, hno, hk⟩ <;> rw [hk]
      · exact ⟨fun h => absurd h.1 hp, fun h => by cases h⟩
      · exact ⟨fun h => absurd hip (h.2 i hi), fun h => by cases h⟩
      · exact ⟨fun _ => rfl, fun _ => ⟨hp, hno⟩⟩
    user := fun p => by
      rw [h.userData]
      exact ⟨fun h => absurd h (by simp), fun hk => absurd hk (hno (by simp) (by simp) (by simp))⟩
    zero := fun p hk => by
      rcases bootKind_cases m p with ⟨-, hk'⟩ | ⟨-, -, hk'⟩ | ⟨hp, hno, -⟩
      · rw [hk'] at hk
        cases hk
      · rw [hk'] at hk
        cases hk
      · exact h.free_ref p hp hno
    one := fun p hk => by
      rcases bootKind_cases m p with ⟨-, hk'⟩ | ⟨-, ⟨i, hi, rfl⟩, -⟩ | ⟨-, -, hk'⟩
      · rw [hk'] at hk
        exact hk.elim
      · rw [Mem.ref, (h.table i hi).2]
      · rw [hk'] at hk
        exact hk.elim
    unlinked := fun p hk hk₂ => by
      rcases bootKind_cases m p with ⟨-, hk'⟩ | ⟨-, ⟨i, hi, rfl⟩, -⟩ | ⟨-, -, hk'⟩
      · exact absurd hk' hk
      · rw [Mem.link, (h.table i hi).2]
      · exact absurd hk' hk₂ }
  refine ⟨⟨htables, hpool, fun p hk => absurd hk (hno (by simp) (by simp) (by simp))⟩, fun p => ?_⟩
  rw [mapCount_eq_zero fun e v => by rw [VmState.upte, hupte]; exact not_names_zero p]
  decide

end Boot

end JOS
