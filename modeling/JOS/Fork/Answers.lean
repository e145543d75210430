import JOS.Fork.Maps

/-!
# Answers

For each system call of the library: the invariant holds when it has returned, and its program has
gone on with the result (`Cow.answered`).
-/

namespace JOS

open JOS.General

open Function (update)

variable {s s' : KState} {lib : ℕ → Lib} {l l' : Lib} {pc pc' : ForkPc} {k : Call} {y : Symbols}
  {t : TrapIn} {c e x v p : ℕ}
  {perm envid addr r : Word} {wakes : Prop} {j : ℕ × ℕ}

/-! ### Programs in `fork` -/

/-- Nothing is excused, but between the two `sys_page_map` of `duppage`. -/
theorem not_excuses (hpc : pc ≠ .panicked)
    (hdup : ∀ envid addr, pc = .dupSelf envid addr → v ≠ PGNUM addr) :
    ¬ (⟨pc, .none⟩ : Lib).Excuses e v j := by
  rintro (hp | ⟨envid, addr, hp, hv, -⟩ | ⟨addr, hp, -⟩)
  · exact hpc hp
  · exact hdup envid addr hp hv
  · cases hp

theorem libOk_fork (hok : ForkOk s e pc) (h : ¬ Present s e (PGNUM PFTEMP)) :
    LibOk s e ⟨pc, .none⟩ := ⟨fun _ => rfl, fun _ => hok, fun _ => h⟩

/-- `PFTEMP` is not mapped outside the handler. -/
theorem Cow.not_present (h : Cow s lib) (hl : lib e = ⟨pc, .none⟩) (hpc : pc ≠ .panicked) :
    ¬ Present s e (PGNUM PFTEMP) := by
  have hfault := (h.libOk e).fault (by rw [hl]; exact hpc)
  rwa [hl] at hfault

theorem Cow.forkOk (h : Cow s lib) (hl : lib e = ⟨pc, .none⟩) (hpc : pc ≠ .panicked) :
    ForkOk s e pc := by
  have hfork := (h.libOk e).fork (by rw [hl]; exact hpc)
  rwa [hl] at hfork

/-- **`panic`** -/
theorem Cow.panics (h : Cow s lib) (ht : Turn s s' lib e wakes) (hsame : SameContents s s')
    (hu : s'.upte = s.upte)
    (hd : s'.dirs = s.dirs) : Cow s' (update lib e .panicked) :=
  h.quiet ht hu hd (fun e' _ => .inr fun v p _ hn => hsame e' v p hn) libOk_panicked
    (fun _ _ _ => .inl rfl) fun _ hb => by cases hb

/-- `fork` goes on, and maps nothing. -/
theorem Cow.goes (h : Cow s lib) (ht : Turn s s' lib e wakes) (hsame : SameContents s s')
    (hu : s'.upte = s.upte)
    (hd : s'.dirs = s.dirs) (hl : lib e = ⟨pc, .none⟩) (hpc : pc ≠ .panicked)
    (hdup : ∀ envid addr, pc ≠ .dupSelf envid addr)
    (hb : ∀ envid, pc'.builds = some envid → pc.builds = some envid ∧ ¬ wakes)
    (hok : ForkOk s' e pc') :
    Cow s' (update lib e ⟨pc', .none⟩) := by
  refine h.quiet ht hu hd (fun e' _ => .inr fun v p _ hn => hsame e' v p hn) (libOk_fork hok ?_)
    (fun v j hex => ?_) fun envid hbe => ?_
  · rw [Present, hu]
    exact h.not_present hl hpc
  · rw [hl] at hex
    exact absurd hex (not_excuses hpc fun envid addr hp => absurd hp (hdup envid addr))
  · rw [hl]
    exact hb envid hbe

/-! ### Mapping pages -/

/-- **A new page** for `e` or its child. -/
theorem Cow.allocs (h : Cow s lib) (ht : Turn s s' lib e wakes) (hc : SameContents s s')
    (hd : s'.dirs = s.dirs)
    (hfresh : ∀ e v, ¬ Names (s.upte e v) p) (hp : p < 2 ^ 20) (hf : IsFlags perm)
    (hu : s'.upte = setAt s.upte x v (mkPte p perm))
    (hcow : test perm PTE_COW = false) (hx : x = e ∨ lib x = .child ∧ v ≠ PGNUM PFTEMP)
    (hb : GoesOnBuilding (lib e) l' wakes)
    (hl : LibOk s' e l') (hex : ∀ v' j, (lib e).Excuses e v' j → l'.Excuses e v' j) :
    Cow s' (update lib e l') := by
  refine h.maps ht hc hd hu hp hf hx hb hl (fun v' j _ _ => hex v' j) (fun a _ _ hpa => ?_)
    (fun _ b _ hpb => ?_)
    (fun _ e' v' _ _ hn => absurd hn (hfresh e' v')) fun hcow' => ?_
  · exact absurd (page_eq_some.mp hpa) (hfresh a.1 a.2)
  · exact absurd (page_eq_some.mp hpb) (hfresh b.1 b.2)
  · rw [hcow] at hcow'
    cases hcow'

/-- Who can write a page that `e` maps, when it is outside its handler. -/
theorem Cow.writer (h : Cow s lib) (hchild : ∀ e' envid, (lib e').fork.builds = some envid →
    ENVX envid ≠ e)
    (hl : (lib e).fork ≠ .panicked) (hfault : ∀ addr, (lib e).fault ≠ .unmap addr)
    (hn : Names (s.upte e v) p) {a : ℕ × ℕ}
    (hw : s.sharing.writable a) (hp : s.sharing.page a = some p) : a = (e, v) ∨ a.1 ≠ e ∧
    (lib a.1).fork = .panicked := by
  rcases h.alone a (e, v) p hw hp (page_eq_some.mpr hn) with heq | hpan |
    ⟨envid, addr, hdup, -, heq⟩ | ⟨addr, hunmap, heq, -⟩
  · exact .inl heq.symm
  · refine .inr ⟨?_, hpan⟩
    rintro rfl
    exact hl hpan
  · have hbe : (lib a.1).fork.builds = some envid := by rw [hdup]; rfl
    exact absurd (congrArg Prod.fst heq).symm (hchild a.1 envid hbe)
  · rw [← heq] at hunmap
    exact absurd hunmap (hfault addr)

/-- **`duppage`** maps page `v` of `e`, which is there, at the same address of `x`. -/
theorem Cow.dups (h : Cow s lib) (ht : Turn s s' lib e wakes) (hc : SameContents s s')
    (hd : s'.dirs = s.dirs)
    (hu : s'.upte = setAt s.upte x v (mkPte p perm)) (hp : p < 2 ^ 20) (hf : IsFlags perm)
    (hread : test perm PTE_W = false)
    (hl : lib e = ⟨pc, .none⟩) (hpc : pc ≠ .panicked)
    (hdup : ∀ envid addr, pc = .dupSelf envid addr → x = e ∧ v = PGNUM addr)
    (hn : Names (s.upte e v) p) (hv : UserPageNo v) (hx : x = e ∨ lib x = .child)
    (hb : ∀ envid, pc'.builds = some envid → pc.builds = some envid ∧ ¬ wakes)
    (hok : ForkOk s' e pc')
    (hself : x ≠ e → test (s.upte e v) PTE_W = true → (⟨pc', .none⟩ : Lib).Excuses e v (x, v)) :
    Cow s' (update lib e ⟨pc', .none⟩) := by
  have hpresent : ¬ Present s' e (PGNUM PFTEMP) := by
    rw [Present, hu, setAt_of_ne fun heq => hv.2 heq.2.symm]
    exact h.not_present hl hpc
  refine h.maps ht hc hd hu hp hf (hx.imp_right fun hx => ⟨hx, hv.2⟩) (fun envid hbe => ?_)
    (libOk_fork hok hpresent)
    (fun v' j hne _ hex => ?_) (fun a ha hw hpa => ?_) (fun hw => ?_) (fun _ e' v' _ hv' hn' => ?_)
      fun _ => hv.1
  · rw [hl]
    exact hb envid hbe
  · rw [hl] at hex
    refine absurd hex (not_excuses hpc fun envid addr hp' hv' => hne ?_)
    obtain ⟨rfl, rfl⟩ := hdup envid addr hp'
    rw [hv']
  · have hfault : ∀ addr, (lib e).fault ≠ .unmap addr := fun addr heq => by
      rw [hl] at heq
      cases heq
    rcases h.writer ht.notChild (by rw [hl]; exact hpc) hfault hn hw hpa with rfl | ⟨hne, hpan⟩
    · exact excused_update_self (hself (fun hxe => ha (by rw [hxe])) hw)
    · exact Excused.update_of_ne (.inl hpan) hne
  · rw [hread] at hw
    cases hw
  · exact h.oneAddress e' v' e v p hn' hn hv' hv.2

/-! ### System calls that return -/

/-- A system call of `e` returns `r`, between `s` and `s'`. -/
structure Resumed (s s' : KState) (lib : ℕ → Lib) (y : Symbols) (c e : ℕ) (t : TrapIn)
    (r : Word) : Prop where
  cow : Cow s lib
  turn : Turn s s' lib e ((lib e).Wakes t)
  contents : SameContents s s'
  answer : Answer s c e t r s'
  curenv : s.curenv c = some e

namespace Resumed

/-- Only `sys_env_set_status` wakes anybody. -/
theorem not_wakes (hl : lib e = ⟨pc, .none⟩) (hpc : ∀ envid, pc ≠ .statusSet envid) :
    ¬ (lib e).Wakes t := by
  rintro ⟨-, envid, heq⟩
  rw [hl] at heq
  cases heq
  exact hpc envid rfl

/-- The calls that map nothing. -/
theorem same_spaces {no : SysNo} {args : List Word} (h : Resumed s s' lib y c e t r)
    (hmakes : t.makes ⟨no, args⟩ = true)
    (hno : no ∉ [SysNo.pageAlloc, .pageMap, .pageUnmap, .exofork, .ipcTrySend, .envDestroy]) :
    SameSpaces s s' := by
  have hno' := TrapIn.makes_no hmakes
  refine h.answer.plain h.curenv (fun hmem => hno ?_) fun hd => absurd ?_ hno
  · rw [hno'] at hmem
    simp only [List.mem_cons, Option.some.injEq, List.not_mem_nil, or_false] at hmem ⊢
    tauto
  · rw [hno'] at hd
    cases hd
    simp

/-- The calls of a program's own code. -/
theorem own_spaces (h : Resumed s s' lib y c e t r) (hharmless : t.harmless = true) :
    SameSpaces s s' := by
  have hnone : SysNo.ofWord t.args.no ∉ [some SysNo.pageAlloc, some .pageMap, some .pageUnmap,
      some .exofork, some .ipcTrySend] := by
    intro hmem
    simp only [List.mem_cons, List.not_mem_nil, or_false] at hmem
    rcases hmem with hno | hno | hno | hno | hno <;> simp [TrapIn.harmless, hno] at hharmless
  exact h.answer.plain h.curenv hnone fun hno => by simpa [TrapIn.harmless, hno] using hharmless

/-- `fork` goes on after a call that maps nothing. -/
theorem plain {no : SysNo} {args : List Word} (h : Resumed s s' lib y c e t r)
    (hl : lib e = ⟨pc, .none⟩) (hpc : pc ≠ .panicked)
    (hdup : ∀ envid addr, pc ≠ .dupSelf envid addr) (hmakes : t.makes ⟨no, args⟩ = true)
    (hno : no ∉ [SysNo.pageAlloc, .pageMap, .pageUnmap, .exofork, .ipcTrySend, .envDestroy])
    (hb : ∀ envid, (Lib.forkAnswered r pc).builds = some envid → pc.builds = some envid ∧
    ¬ (lib e).Wakes t)
    (hok : ForkOk s' e (Lib.forkAnswered r pc)) :
    Cow s' (update lib e ⟨Lib.forkAnswered r pc, .none⟩) := by
  have hsame := h.same_spaces hmakes hno
  exact h.cow.goes h.turn h.contents hsame.upte hsame.2 hl hpc hdup hb hok

/-- `sys_page_alloc(.., UXSTACKTOP-PGSIZE, ..)` -/
theorem pageAlloc {a₁ : Word} (h : Resumed s s' lib y c e t r) (hl : lib e = ⟨pc, .none⟩)
    (hpc : pc ≠ .panicked)
    (hdup : ∀ envid addr, pc ≠ .dupSelf envid addr)
    (hmakes : t.makes ⟨.pageAlloc, [a₁, UXSTACKTOP - PGSIZE, PTE_U ||| PTE_W ||| PTE_P, 0, 0]⟩ =
    true)
    (hx : named e a₁ = e ∨ lib (named e a₁) = .child)
    (hb : ∀ envid, (Lib.forkAnswered r pc).builds = some envid → pc.builds = some envid ∧
    ¬ (lib e).Wakes t)
    (hok : ForkOk s' e (Lib.forkAnswered r pc)) :
    Cow s' (update lib e ⟨Lib.forkAnswered r pc, .none⟩) := by
  obtain ⟨hno, h₁, h₂, h₃, -, -⟩ := TrapIn.makes_args hmakes
  obtain ⟨k, hk⟩ := h.cow.kern.sound.sound
  obtain ⟨hd, ⟨-, hu⟩ | ⟨-, p, hfresh, hp, hf, hu⟩⟩ := h.answer.pageAlloc hk hno
  · exact h.cow.goes h.turn h.contents hu hd hl hpc hdup hb hok
  rw [h₁, h₂, h₃] at hu
  have hv : PGNUM (UXSTACKTOP - PGSIZE) ≠ PGNUM PFTEMP := by decide
  refine h.cow.allocs h.turn h.contents hd hfresh hp (by decide) hu (by decide)
    (hx.imp_right fun hx => ⟨hx, hv⟩) (fun envid hbe => ?_)
    (libOk_fork hok ?_) fun v' j hex => ?_
  · exact ⟨by rw [hl]; exact (hb envid hbe).1, (hb envid hbe).2⟩
  · rw [Present, hu, setAt_of_ne fun heq => hv heq.2.symm]
    exact h.cow.not_present hl hpc
  · rw [hl] at hex
    exact absurd hex (not_excuses hpc fun envid addr hp' => absurd hp' (hdup envid addr))

/-- `sys_page_map(0, .., dst, .., perm)` of `duppage` -/
theorem pageMap {dst : Word} (h : Resumed s s' lib y c e t r) (hl : lib e = ⟨pc, .none⟩)
    (hpc : pc ≠ .panicked)
    (hmakes : t.makes ⟨.pageMap, [0, pageAddr (PGNUM addr), dst, pageAddr (PGNUM addr), perm]⟩ =
    true)
    (hdup : Duplicating s e addr)
    (hself : ∀ envid addr', pc = .dupSelf envid addr' → named e dst = e ∧ addr = addr')
    (hx : named e dst = e ∨ lib (named e dst) = .child) (hread : test perm PTE_W = false)
    (hfail : r ≠ 0 → Lib.forkAnswered r pc = .panicked)
    (hb : ∀ envid, (Lib.forkAnswered 0 pc).builds = some envid → pc.builds = some envid ∧
    ¬ (lib e).Wakes t)
    (hok : (∀ v, v = PGNUM addr → Present s' e v) → ForkOk s' e (Lib.forkAnswered 0 pc))
    (hshared : named e dst ≠ e → test (s.upte e (PGNUM addr)) PTE_W = true →
      (⟨Lib.forkAnswered 0 pc, .none⟩ : Lib).Excuses e (PGNUM addr) (named e dst, PGNUM addr)) :
    Cow s' (update lib e ⟨Lib.forkAnswered r pc, .none⟩) := by
  obtain ⟨hno, h₁, h₂, h₃, h₄, h₅⟩ := TrapIn.makes_args hmakes
  obtain ⟨k, hk⟩ := h.cow.kern.sound.sound
  have hn : Names (s.upte e (PGNUM addr)) (PGNUM (s.upte e (PGNUM addr))) := ⟨hdup.present, rfl⟩
  have hn' : Names (s.upte e (PGNUM t.args.a2)) (PGNUM (s.upte e (PGNUM addr))) := by
    rw [h₂, PGNUM_pageAddr]
    exact hn
  obtain ⟨hd, ⟨hr, hu⟩ | ⟨rfl, -, hp, hf, hu⟩⟩ :=
    h.answer.pageMap hk hno h₁ hn' h.cow.oneAddress.roomy
  · rw [hfail hr]
    exact h.cow.panics h.turn h.contents hu hd
  rw [h₃, h₄, h₅, PGNUM_pageAddr] at hu
  rw [h₅] at hf
  refine h.cow.dups h.turn h.contents hd hu hp hf hread hl hpc
    (fun envid addr' hp' => ?_) hn hdup.user hx hb (hok ?_) hshared
  · obtain ⟨hx, rfl⟩ := hself envid addr' hp'
    exact ⟨hx, rfl⟩
  · rintro v rfl
    by_cases hxe : named e dst = e
    · rw [Present, hu, hxe, setAt_self]
      exact test_mkPte_P _ _
    · rw [Present, hu, setAt_of_ne fun heq => hxe heq.1.symm]
      exact hdup.present

end Resumed

/-! ### The page fault handler -/

/-- Where a program is in `fork` does not depend on the pages that its handler exchanges. -/
theorem ForkOk.of_entries (h : ForkOk s e pc)
    (hpresent : ∀ v, UserPageNo v → Present s e v → Present s' e v)
    (hread : ∀ v, UserPageNo v → test (s.upte e v) PTE_COW = false → s'.upte e v = s.upte e v) :
    ForkOk s' e pc := by
  have hdup : ∀ {addr}, Duplicating s e addr → Duplicating s' e addr :=
    fun h => ⟨h.user, hpresent _ h.user h.present⟩
  cases pc with
  | dup _ _ => exact hdup h
  | dupChild _ _ => exact hdup h
  | dupSelf _ _ => exact hdup h
  | dupRead _ addr =>
    obtain ⟨hd, hw, hc⟩ := h
    refine ⟨hdup hd, ?_⟩
    rw [hread _ hd.user hc]
    exact ⟨hw, hc⟩
  | _ => trivial

theorem Lib.answered_alloc (hl : l.fault = .alloc addr) :
    l.answered r = if r = 0 then { l with fault := .copy addr 0 } else panicked := by
  rw [Lib.answered, hl]

theorem Lib.answered_map (hl : l.fault = .map addr) :
    l.answered r = if r = 0 then { l with fault := .unmap addr } else panicked := by
  rw [Lib.answered, hl]

theorem Lib.answered_unmap (hl : l.fault = .unmap addr) :
    l.answered r = if r = 0 then { l with fault := .none } else panicked := by
  rw [Lib.answered, hl]

namespace Resumed

/-- A program in its handler has not stopped. -/
theorem not_panicked (h : Cow s lib) (hfault : (lib e).fault ≠ .none) : (lib e).fork ≠ .panicked :=
  fun hp => hfault ((h.libOk e).stopped hp)

theorem goesOnBuilding (hl : (lib e).fault ≠ .none) (hfork : l'.fork = (lib e).fork) :
    GoesOnBuilding (lib e) l' ((lib e).Wakes t) := by
  intro envid hbe
  refine ⟨by rwa [← hfork], ?_⟩
  rintro ⟨-, envid, heq⟩
  rw [heq] at hl
  exact hl rfl

/-- `sys_page_alloc(0, PFTEMP, ..)` -/
theorem faultAlloc (h : Resumed s s' lib y c e t r) (hl : (lib e).fault = .alloc addr)
    (hmakes : t.makes ⟨.pageAlloc, [0, PFTEMP, PTE_W ||| PTE_U ||| PTE_P, 0, 0]⟩ = true) :
    Cow s' (update lib e ((lib e).answered r)) := by
  obtain ⟨hno, h₁, h₂, h₃, -, -⟩ := TrapIn.makes_args hmakes
  obtain ⟨k, hk⟩ := h.cow.kern.sound.sound
  have hpc := not_panicked h.cow (e := e) (by rw [hl]; nofun)
  have hfault := (h.cow.libOk e).fault hpc
  have hfork := (h.cow.libOk e).fork hpc
  rw [hl] at hfault
  obtain ⟨-, hpage⟩ := hfault
  rw [Lib.answered_alloc hl]
  obtain ⟨hd, ⟨hr, hu⟩ | ⟨hr, p, hfresh, hp, hf, hu⟩⟩ := h.answer.pageAlloc hk hno
  · rw [if_neg hr]
    exact h.cow.panics h.turn h.contents hu hd
  rw [if_pos hr]
  rw [h₁, h₂, h₃, named, if_pos rfl] at hu
  have hother : ∀ v, v ≠ PGNUM PFTEMP → s'.upte e v = s.upte e v := fun v hv => by
    rw [hu, setAt_of_ne fun heq => hv heq.2]
  refine h.cow.allocs h.turn h.contents hd hfresh hp (by decide) hu (by decide) (.inl rfl)
    (goesOnBuilding (by rw [hl]; nofun) rfl) ⟨fun hp => absurd hp hpc, fun _ => ?_, fun _ =>
      ⟨by decide, ?_, ?_, fun hlt => ⟨?_, ?_⟩⟩⟩
    fun v' j hex => ?_
  · exact hfork.of_entries (fun v hv hpresent => by rwa [Present, hother v hv.2]) fun v hv _ =>
      hother v hv.2
  · rw [Present, hu, setAt_self]
    exact test_mkPte_P _ _
  · rw [hu, setAt_self, test_mkPte _ _ isFlags_W (by decide)]
    decide
  · have hcow := hpage hlt
    exact ⟨hcow.user, hcow.aligned, by rw [Present, hother _ hcow.user.2]; exact hcow.present,
      by rw [hother _ hcow.user.2]; exact hcow.cow⟩
  · exact fun o ho => absurd ho (Nat.not_lt_zero _)
  · rcases hex with hp | hdup | ⟨addr', hunmap, -⟩
    · exact absurd hp hpc
    · exact .inr (.inl hdup)
    · rw [hl] at hunmap
      cases hunmap

/-- Nobody else has the page at `PFTEMP`. -/
theorem alone_PFTEMP (h : Cow s lib) (hpc : (lib e).fork ≠ .panicked)
    (hl : ∀ addr, (lib e).fault ≠ .unmap addr)
    (hw : test (s.upte e (PGNUM PFTEMP)) PTE_W = true) (hn : Names (s.upte e (PGNUM PFTEMP)) p)
    (hj : s.sharing.page j = some p) : j = (e, PGNUM PFTEMP) := by
  rcases h.alone (e, PGNUM PFTEMP) j p hw (page_eq_some.mpr hn) hj with heq | hpan |
    ⟨envid, addr', hdup, hv, -⟩ | ⟨addr', hunmap, -⟩
  · exact heq
  · exact absurd hpan hpc
  · have hfork := (h.libOk e).fork hpc
    rw [hdup] at hfork
    exact absurd hv.symm hfork.user.2
  · exact absurd hunmap (hl addr')

/-- `sys_page_map(0, PFTEMP, 0, addr, ..)` -/
theorem faultMap (h : Resumed s s' lib y c e t r) (hl : (lib e).fault = .map addr)
    (hmakes : t.makes ⟨.pageMap, [0, PFTEMP, 0, addr, PTE_W ||| PTE_U ||| PTE_P]⟩ = true) :
    Cow s' (update lib e ((lib e).answered r)) := by
  obtain ⟨hno, h₁, h₂, h₃, h₄, h₅⟩ := TrapIn.makes_args hmakes
  obtain ⟨k, hk⟩ := h.cow.kern.sound.sound
  have hpc := not_panicked h.cow (e := e) (by rw [hl]; nofun)
  have hfault := (h.cow.libOk e).fault hpc
  have hfork := (h.cow.libOk e).fork hpc
  rw [hl] at hfault
  obtain ⟨hpresent, hwritable, hpage⟩ := hfault
  have hn : Names (s.upte e (PGNUM PFTEMP)) (PGNUM (s.upte e (PGNUM PFTEMP))) := ⟨hpresent, rfl⟩
  have hunmap : ∀ addr, (lib e).fault ≠ .unmap addr := fun addr => by rw [hl]; nofun
  have halone := fun {j} => alone_PFTEMP (j := j) h.cow hpc hunmap hwritable hn
  rw [Lib.answered_map hl]
  obtain ⟨hd, ⟨hr, hu⟩ | ⟨hr, hlt, hp, hf, hu⟩⟩ :=
    h.answer.pageMap hk hno h₁ (by rw [h₂]; exact hn) h.cow.oneAddress.roomy
  · rw [if_neg hr]
    exact h.cow.panics h.turn h.contents hu hd
  rw [if_pos hr]
  rw [h₄] at hlt
  rw [h₃, h₄, h₅, named, if_pos rfl] at hu
  obtain ⟨hcow, -⟩ := hpage hlt
  have hother : ∀ v, v ≠ PGNUM addr → s'.upte e v = s.upte e v := fun v hv => by
    rw [hu, setAt_of_ne fun heq => hv heq.2]
  refine h.cow.maps h.turn h.contents hd hu hp (by decide) (.inl rfl)
    (goesOnBuilding (by rw [hl]; nofun) rfl)
    ⟨fun hp => absurd hp hpc, fun _ => ?_, fun _ => ⟨hcow.user, ?_⟩⟩ (fun v' j _ _ hex => ?_)
      (fun a ha hw hpa => ?_) (fun _ b _ hpb => ?_)
    (fun _ e' v' _ hv' hn' => ?_) fun hc => ?_
  · refine hfork.of_entries (fun v hv hpv => ?_) fun v hv hread => hother v ?_
    · by_cases hvc : v = PGNUM addr
      · rw [hvc, Present, hu, setAt_self]
        exact test_mkPte_P _ _
      · rwa [Present, hother v hvc]
    · -- a page that `duppage` maps read-only is not copy-on-write
      rintro rfl
      rw [hcow.cow] at hread
      cases hread
  · rw [Present, hother _ hcow.user.2.symm]
    exact hpresent
  · rcases hex with hp | hdup | ⟨addr', hfault, -⟩
    · exact absurd hp hpc
    · exact .inr (.inl hdup)
    · exact absurd hfault (hunmap addr')
  · rcases h.cow.writer h.turn.notChild hpc hunmap hn hw hpa with rfl | ⟨hne, hpan⟩
    · exact excused_update_self (.inr (.inr ⟨addr, rfl, rfl, .inl ⟨rfl, rfl⟩⟩))
    · exact Excused.update_of_ne (.inl hpan) hne
  · rw [halone hpb]
    exact excused_update_self (.inr (.inr ⟨addr, rfl, rfl, .inr ⟨rfl, rfl⟩⟩))
  · exact absurd (congrArg Prod.snd (halone (j := (e', v')) (page_eq_some.mpr hn'))) hv'
  · exact absurd hc (by decide)

/-- `sys_page_unmap(0, PFTEMP)` -/
theorem faultUnmap (h : Resumed s s' lib y c e t r) (hl : (lib e).fault = .unmap addr)
    (hmakes : t.makes ⟨.pageUnmap, [0, PFTEMP, 0, 0, 0]⟩ = true) :
    Cow s' (update lib e ((lib e).answered r)) := by
  obtain ⟨hno, h₁, h₂, -⟩ := TrapIn.makes_args hmakes
  obtain ⟨k, hk⟩ := h.cow.kern.sound.sound
  have hpc := not_panicked h.cow (e := e) (by rw [hl]; nofun)
  have hfault := (h.cow.libOk e).fault hpc
  have hfork := (h.cow.libOk e).fork hpc
  rw [hl] at hfault
  have hn : Names (s.upte e (PGNUM PFTEMP)) (PGNUM (s.upte e (PGNUM PFTEMP))) :=
    ⟨hfault.present, rfl⟩
  rw [Lib.answered_unmap hl]
  obtain ⟨hd, hr, hu⟩ := h.answer.pageUnmap hk hno h₁ (by rw [h₂]; decide) (by rw [h₂]; exact hn)
  rw [if_pos hr]
  rw [h₂] at hu
  have hother : ∀ v, v ≠ PGNUM PFTEMP → s'.upte e v = s.upte e v := fun v hv => by
    rw [hu, setAt_of_ne fun heq => hv heq.2]
  refine h.cow.unmaps h.turn h.contents hd hu (goesOnBuilding (by rw [hl]; nofun) rfl)
    ⟨fun hp => absurd hp hpc, fun _ => ?_, fun _ => ?_⟩ fun v j hv hj hex => ?_
  · exact hfork.of_entries (fun v hv hpresent => by rwa [Present, hother v hv.2]) fun v hv _ =>
      hother v hv.2
  · intro hpresent
    rw [Present, hu, setAt_self, test_zero] at hpresent
    cases hpresent
  · rcases hex with hp | hdup | ⟨addr', -, hje, ⟨hv', -⟩ | ⟨-, hj'⟩⟩
    · exact absurd hp hpc
    · exact .inr (.inl hdup)
    · exact absurd hv' hv
    · exact absurd (Prod.ext hje hj') hj

/-! ### All system calls -/

/-- The environment that a program in `fork` calls its child. -/
theorem named_child (h : Cow s lib) (envid : Word) (hbe : (lib e).fork.builds = some envid) :
    named e envid = ENVX envid ∧ lib (ENVX envid) = .child := by
  obtain ⟨hbuilding, hchild⟩ := h.builds e envid hbe
  have hpos : 0 < (s.envs (ENVX envid)).envId.toInt := (h.kern.ids (ENVX envid) hbuilding.live).1
  rw [hbuilding.slot] at hpos
  refine ⟨if_neg ?_, hchild⟩
  rintro rfl
  exact absurd hpos (by decide)

theorem builds_of_zero (pc : Word → ForkPc)
    (h : (if r = 0 then pc r else ForkPc.panicked).builds = some envid) :
    (pc 0).builds = some envid := by
  split_ifs at h with hr
  · rwa [hr] at h
  · cases h

/-- `fork`, but for `sys_exofork` -/
theorem fork (h : Resumed s s' lib y c e t r) (hl : lib e = ⟨pc, .none⟩)
    (hcall : Lib.call y ⟨pc, .none⟩ = some k)
    (hmakes : t.makes k = true) (hno : k.no ≠ .exofork) :
    Cow s' (update lib e ((lib e).answered r)) := by
  have hwakes := fun hpc => not_wakes (t := t) hl hpc
  have hself : named e 0 = e := if_pos rfl
  have hchild := fun envid (hbe : pc.builds = some envid) =>
    named_child (e := e) h.cow envid (by rw [hl]; exact hbe)
  rw [hl, show (⟨pc, .none⟩ : Lib).answered r = ⟨Lib.forkAnswered r pc, .none⟩ from rfl]
  cases pc with
  | handlerAlloc =>
    cases hcall
    refine h.pageAlloc hl nofun nofun hmakes (.inl hself) (fun envid hbe => ?_) ?_
    · exact absurd (builds_of_zero (fun _ => .handlerUpcall) hbe) nofun
    · rw [Lib.forkAnswered]
      split_ifs <;> trivial
  | handlerUpcall =>
    cases hcall
    refine h.plain hl nofun nofun hmakes (by decide) (fun envid hbe => ?_) ?_
    · exact absurd (builds_of_zero (fun _ => .handlerStore 0) hbe) nofun
    · rw [Lib.forkAnswered]
      split_ifs <;> trivial
  | exofork =>
    cases hcall
    exact absurd rfl hno
  | getenvid =>
    cases hcall
    exact h.plain hl nofun nofun hmakes (by decide) nofun trivial
  | dupChild envid addr =>
    cases hcall
    obtain ⟨hx, hlib⟩ := hchild envid rfl
    refine h.pageMap hl nofun hmakes (h.cow.forkOk hl nofun) nofun (.inr (by rw [hx]; exact hlib))
      (by decide) (fun hr => if_neg hr)
      (fun envid' hbe => ⟨hbe, hwakes nofun⟩)
        (fun hpresent => ⟨(h.cow.forkOk hl nofun).user, hpresent _ rfl⟩) fun _ _ => ?_
    exact .inr (.inl ⟨envid, addr, rfl, rfl, by rw [hx]⟩)
  | dupSelf envid addr =>
    cases hcall
    refine h.pageMap hl nofun hmakes (h.cow.forkOk hl nofun) (fun envid' addr' heq => ?_)
      (.inl hself) (by decide) (fun hr => if_neg hr)
      (fun envid' hbe => ⟨hbe, hwakes nofun⟩) (fun _ => trivial) fun hne => absurd hself hne
    cases heq
    exact ⟨hself, rfl⟩
  | dupRead envid addr =>
    cases hcall
    obtain ⟨hx, hlib⟩ := hchild envid rfl
    obtain ⟨hdup, hread, -⟩ : ForkOk s e (.dupRead envid addr) := h.cow.forkOk hl nofun
    refine h.pageMap hl nofun hmakes hdup nofun (.inr (by rw [hx]; exact hlib)) (by decide)
      (fun hr => if_neg hr)
      (fun envid' hbe => ⟨hbe, hwakes nofun⟩) (fun _ => trivial) fun _ hw => ?_
    rw [hread] at hw
    cases hw
  | stackAlloc envid =>
    cases hcall
    obtain ⟨hx, hlib⟩ := hchild envid rfl
    refine h.pageAlloc hl nofun nofun hmakes (.inr (by rw [hx]; exact hlib))
      (fun envid' hbe => ?_) ?_
    · exact ⟨builds_of_zero (fun _ => .upcallSet envid) hbe, hwakes nofun⟩
    · rw [Lib.forkAnswered]
      split_ifs <;> trivial
  | upcallSet envid =>
    cases hcall
    refine h.plain hl nofun nofun hmakes (by decide) (fun envid' hbe => ⟨?_, hwakes nofun⟩) ?_
    · rw [Lib.forkAnswered] at hbe
      split_ifs at hbe
      · cases hbe
      · exact hbe
    · rw [Lib.forkAnswered]
      split_ifs <;> trivial
  | statusSet envid =>
    cases hcall
    refine h.plain hl nofun nofun hmakes (by decide) (fun envid' hbe => ?_) ?_
    · exact absurd (builds_of_zero (fun _ => .idle) hbe) nofun
    · rw [Lib.forkAnswered]
      split_ifs <;> trivial
  | _ => cases hcall

/-- `sys_exofork` -/
theorem exofork (h : Resumed s s' lib y c e t r) (hl : lib e = ⟨.exofork, .none⟩)
    (hcall : Lib.call y ⟨.exofork, .none⟩ = some k) (hmakes : t.makes k = true) : Cow s'
      (if 0 < r.toInt then update (update lib e ((lib e).answered r)) (ENVX r) .child
          else update lib e ((lib e).answered r)) := by
  cases hcall
  have hno := TrapIn.makes_no hmakes
  obtain ⟨k, hk⟩ := h.cow.kern.sound.sound
  obtain ⟨hu, hr⟩ := h.answer.exofork hk h.cow.kern.sound.freeHead h.cow.kern.sound.loaded
    h.curenv hno
  rw [hl, show (⟨.exofork, .none⟩ : Lib).answered r = ⟨Lib.forkAnswered r .exofork, .none⟩ from rfl,
    Lib.forkAnswered]
  rcases hr with ⟨hneg, hd⟩ | ⟨x, hborn⟩
  · rw [if_neg (by omega), if_pos hneg]
    exact h.cow.panics h.turn h.contents hu hd
  · have hpos := hborn.pos
    have hne : r ≠ 0 := by
      rintro rfl
      exact absurd hpos (by decide)
    rw [if_pos hpos, if_neg (by omega), if_neg hne]
    exact h.cow.born h.turn (not_wakes hl nofun) h.contents hu hborn hl

/-- A program in its own code -/
theorem own (h : Resumed s s' lib y c e t r) (hl : lib e = .start) (hharmless : t.harmless = true) :
    Cow s' lib := by
  refine h.cow.stay h.turn.kern (h.own_spaces hharmless) fun e' envid hbe =>
    h.turn.builds e' envid hbe fun _ => ?_
  exact not_wakes hl nofun

end Resumed

theorem afterTrap_answered (hlive : s'.dirs e ≠ none) (hsys : t.tf.tfTrapno = T_SYSCALL)
    (hcall : (lib e).call y = some k)
    (heax : (s'.envs e).envTf.tfRegs.regEax = r) : World.afterTrap y lib e t s' =
      if k.no = .exofork ∧ 0 < r.toInt then update (update lib e ((lib e).answered r))
        (ENVX r) .child
      else update lib e ((lib e).answered r) := by
  have hpf : ¬ T_SYSCALL = T_PGFLT := by decide
  rw [World.afterTrap, if_neg hlive, hsys, if_neg hpf, if_pos rfl, hcall]
  dsimp only
  rw [heax]

theorem afterTrap_own (hlive : s'.dirs e ≠ none) (hsys : t.tf.tfTrapno = T_SYSCALL)
    (hcall : (lib e).call y = none) :
    World.afterTrap y lib e t s' = lib := by
  have hpf : ¬ T_SYSCALL = T_PGFLT := by decide
  rw [World.afterTrap, if_neg hlive, hsys, if_neg hpf, if_pos rfl, hcall]

/-- **Every system call that returns.** -/
theorem Resumed.after (h : Resumed s s' lib y c e t r) (ht : (lib e).traps y t = true)
    (hsys : t.tf.tfTrapno = T_SYSCALL)
    (hlive : s'.dirs e ≠ none) : Cow s' (World.afterTrap y lib e t s') := by
  rcases Lib.traps_cases ht hsys with ⟨k, hcall, hmakes⟩ | ⟨hcall, hl, hharmless⟩
  · rw [afterTrap_answered hlive hsys hcall h.answer.eax]
    rcases hl : lib e with ⟨pc, fault⟩
    have hfault : (lib e).fault = fault := by rw [hl]
    cases fault with
    | none =>
      rw [hl] at hcall
      by_cases hno : k.no = .exofork
      · have hpc : pc = .exofork := by
          cases pc <;> cases hcall <;> first | rfl | cases hno
        subst hpc
        rw [← hl]
        simp only [hno, true_and]
        exact h.exofork hl hcall hmakes
      · rw [if_neg fun hex => hno hex.1, ← hl]
        exact h.fork hl hcall hmakes hno
    | entered va err =>
      rw [hl] at hcall
      cases hcall
    | alloc addr =>
      rw [hl] at hcall
      cases hcall
      rw [if_neg (by simp), ← hl]
      exact h.faultAlloc hfault hmakes
    | copy addr n =>
      rw [hl] at hcall
      cases hcall
    | map addr =>
      rw [hl] at hcall
      cases hcall
      rw [if_neg (by simp), ← hl]
      exact h.faultMap hfault hmakes
    | unmap addr =>
      rw [hl] at hcall
      cases hcall
      rw [if_neg (by simp), ← hl]
      exact h.faultUnmap hfault hmakes
  · rw [afterTrap_own hlive hsys hcall]
    exact h.own hl hharmless

end JOS
