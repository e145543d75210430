import JOS.Fork.Moves

/-!
# Programs that fork have memories of their own

The abstract view of a world of programs that fork: each page of each environment is a memory, which
nobody else writes. A store writes it, `fork` copies it to the child page by page, and nothing else
changes it (`World.effect`). The kernel and the library show just that, though parents and children
share pages until one of them writes (`Cow.shows`).

One thing is seen of the sharing: between the two `sys_page_map` of `duppage`, the child's page is
already there, and the parent can still write it (`World.Follows`).
-/

namespace JOS

open JOS.General

open Function (update)

variable {s s' : KState} {lib : ℕ → Lib} {l : Lib} {pc pc' : ForkPc} {y : Symbols} {t : TrapIn}
  {c e n p v : ℕ} {i j : ℕ × ℕ}
  {va addr r : Word} {b : BitVec 8} {w w' : World} {m : Move} {M : ℕ × ℕ → Option PageBytes}

/-! ### What moves do -/

/-- The byte at `o` becomes `b`. -/
def withByte (o : ℕ) (b : BitVec 8) (x : PageBytes) : PageBytes :=
  fun k => if k.val = o then b else x k

/-- The place `i` is the child's page `v`, which `e` has mapped there, and which it has not marked
copy-on-write for itself. -/
def Follows (s : KState) (lib : ℕ → Lib) (e v : ℕ) (i : ℕ × ℕ) : Prop :=
  ∃ envid addr, (lib e).fork = .dupSelf envid addr ∧
  v = PGNUM addr ∧ i = (ENVX envid, v) ∧ s.sharing.page i = s.sharing.page (e, v)

/-- What a store of `e` to its page `v` writes. -/
def Reached (s : KState) (lib : ℕ → Lib) (e v : ℕ) (i : ℕ × ℕ) : Prop :=
  i = (e, v) ∨ Follows s lib e v i

/-- A store of `e`. -/
def storeEffect (s : KState) (lib : ℕ → Lib) (e : ℕ) (va : Word) (b : BitVec 8) :
    Effect (ℕ × ℕ) PageBytes :=
  .write (Reached s lib e (PGNUM va)) (withByte (va.toNat % 4096) b)

/-- What `fork` stores to variables. -/
def Lib.writes (y : Symbols) (l : Lib) : Option (Word × BitVec 8) :=
  match l.fault, l.fork with
  | .none, .handlerStore k => some (y.pgfaultHandler + BitVec.ofNat 32 k, byteOf y.pgfault k)
  | .none, .thisenvStore p k => some (y.thisenv + BitVec.ofNat 32 k, byteOf p k)
  | _, _ => none

/-- A `sys_page_map` of `duppage` for the child has returned `r`. -/
def Lib.maps (l : Lib) (e : ℕ) (r : Word) : Effect (ℕ × ℕ) PageBytes :=
  if l.fault = .none ∧ r = 0 then
    match l.fork with
    | .dupChild envid addr => .copy (e, PGNUM addr) (ENVX envid, PGNUM addr)
    | .dupRead envid addr => .copy (e, PGNUM addr) (ENVX envid, PGNUM addr)
    | _ => .none
  else .none

/-- The places of `e`. -/
def PlacesOf (e : ℕ) (i : ℕ × ℕ) : Prop := i.1 = e

/-- What a trap of `e` does to the memories. -/
def trapEffect (lib : ℕ → Lib) (e : ℕ) (t : TrapIn) (s' : KState) : Effect (ℕ × ℕ) PageBytes :=
  if s'.dirs e = none then .drop (PlacesOf e)
  else if t.tf.tfTrapno = T_SYSCALL then (lib e).maps e (s'.envs e).envTf.tfRegs.regEax
  else .none

/-- What a move to `w'` does to the memories. -/
def World.effect (y : Symbols) (w : World) (m : Move) (w' : World) : Effect (ℕ × ℕ) PageBytes :=
  match m with
  | .start _ => .none
  | .store c va b =>
    match w.kern.curenv c with
    | none => .none
    | some e => storeEffect w.kern w.lib e va b
  | .fork _ => .none
  | .go c =>
    match w.kern.curenv c with
    | none => .none
    | some e =>
      match (w.lib e).writes y with
      | none => .none
      | some (va, b) => storeEffect w.kern w.lib e va b
  | .trap c t =>
    match w.kern.curenv c with
    | none => .none
    | some e => trapEffect w.lib e t w'.kern

/-- The pages that are copied are those that `fork` copies. -/
theorem Lib.maps_copies (h : LibOk s e l) : (l.maps e r).CopiesFrom (UserPageNo ·.2) := by
  intro i j heq
  rw [Lib.maps] at heq
  split_ifs at heq with hcond
  split at heq
  · rename_i envid addr hfork
    cases heq
    have hok := h.fork (by rw [hfork]; nofun)
    rw [hfork] at hok
    exact hok.user
  · rename_i envid addr hfork
    cases heq
    have hok := h.fork (by rw [hfork]; nofun)
    rw [hfork] at hok
    exact hok.1.user
  · cases heq

theorem World.effect_copies (h : Cow w.kern w.lib) :
    (w.effect y m w').CopiesFrom (UserPageNo ·.2) := by
  intro i j heq
  cases m with
  | start c => cases heq
  | store c va b =>
    rw [World.effect] at heq
    split at heq <;> cases heq
  | fork c => cases heq
  | go c =>
    rw [World.effect] at heq
    split at heq
    · cases heq
    · split at heq <;> cases heq
  | trap c t =>
    rw [World.effect] at heq
    split at heq
    · cases heq
    · rw [trapEffect] at heq
      split_ifs at heq
      exact Lib.maps_copies (h.libOk _) i j heq

/-! ### Stores -/

/-- **A store of a program** is seen in its own memory, and in that of a page that follows. -/
theorem Cow.store_views (h : Cow s lib) (hcur : s.curenv c = some e)
    (hpc : (lib e).fork ≠ .panicked)
    (hwhere : (lib e).fault = .none ∨ USTACKTOP ≤ va) (hs : JOS.step s (.store c va b) = some s') :
    s'.sharing.view i = (storeEffect s lib e va b).act s.sharing.view i := by
  obtain ⟨k, hk⟩ := h.kern.sound.sound
  obtain ⟨-, hu⟩ := store_spaces hk h.kern.sound.loaded hs
  obtain ⟨-, hP, hW, hbytes⟩ := store_writes h.kern.sound.loaded hcur hs
  have hshown : s.sharing.page (e, PGNUM va) = some (PGNUM (s.upte e (PGNUM va))) :=
    page_eq_some.mpr ⟨hP, rfl⟩
  have hwrites : s.sharing.Writes (· = (e, PGNUM va)) s'.sharing := by
    refine writes_of_upte hu fun e' v p _ hno => funext fun o =>
      (hbytes p o).trans (if_neg fun heq => ?_)
    exact hno _ rfl ⟨hP, heq.1.symm⟩
  by_cases hi : s.sharing.page i = some (PGNUM (s.upte e (PGNUM va)))
  · have hreached : Reached s lib e (PGNUM va) i := by
      rcases h.alone (e, PGNUM va) i _ hW hshown hi with heq | hp | ⟨envid, addr, hdup, hv, heq⟩ |
        ⟨addr, hunmap, hi₁, hv⟩
      · exact .inl heq
      · exact absurd hp hpc
      · have hv : PGNUM va = PGNUM addr := hv
        exact .inr ⟨envid, addr, hdup, hv, by rw [hv]; exact heq, hi.trans hshown.symm⟩
      · rcases hwhere with hnone | hhigh
        · rw [hnone] at hunmap
          cases hunmap
        · refine absurd (PGNUM_ge hhigh)
            (not_le.mpr (h.excuses_low hpc (v := PGNUM va) (j := i) ?_))
          exact .inr (.inr ⟨addr, hunmap, hi₁, hv⟩)
    rw [storeEffect, Effect.act_write hreached]
    refine hwrites.view_of_shown hi (funext fun o => ?_)
    refine (hbytes _ o).trans ?_
    rw [withByte]
    simp only [true_and]
    rfl
  · have hnot : ¬ Reached s lib e (PGNUM va) i := by
      rintro (rfl | ⟨envid, addr, -, -, -, heq⟩)
      · exact hi hshown
      · exact hi (heq.trans hshown)
    rw [storeEffect, Effect.act_write_of_not hnot]
    refine Sharing.view_congr (congrFun hwrites.page i) fun p hp => hwrites.content i p hp ?_
    rintro j rfl hj
    rw [hshown] at hj
    rw [hp] at hi
    exact hi hj.symm

/-! ### System calls -/

/-- An entry stays, and so does what it shows. -/
theorem view_of_entry (hc : SameContents s s') (hu : s'.upte i.1 i.2 = s.upte i.1 i.2) :
    s'.sharing.view i = s.sharing.view i :=
  Sharing.view_congr (page_congr hu) (hc.content i)

theorem Lib.maps_of_ne (h : r ≠ 0) : l.maps e r = .none := if_neg fun hcond => h hcond.2

namespace Resumed

/-- The calls that exchange no pages. -/
theorem views_plain {no : SysNo} {args : List Word} (h : Resumed s s' lib y c e t r)
    (hmakes : t.makes ⟨no, args⟩ = true)
    (hno : no ∉ [SysNo.pageAlloc, .pageMap, .pageUnmap, .exofork, .ipcTrySend, .envDestroy]) :
    s'.sharing.view i = s.sharing.view i := by
  refine view_of_entry h.contents ?_
  rw [(h.same_spaces hmakes hno).upte]

/-- A page is mapped that is no user page. -/
theorem views_alloc {a₁ a₂ a₃ : Word} (h : Resumed s s' lib y c e t r)
    (hmakes : t.makes ⟨.pageAlloc, [a₁, a₂, a₃, 0, 0]⟩ = true)
    (hv : i.2 ≠ PGNUM a₂) : s'.sharing.view i = s.sharing.view i := by
  obtain ⟨hno, -, h₂, -⟩ := TrapIn.makes_args hmakes
  obtain ⟨k, hk⟩ := h.cow.kern.sound.sound
  refine view_of_entry h.contents ?_
  obtain ⟨-, ⟨-, hu⟩ | ⟨-, p, -, -, -, hu⟩⟩ := h.answer.pageAlloc hk hno
  · rw [hu]
  · rw [hu, setAt_of_ne fun heq => hv (heq.2.trans (by rw [h₂]))]

/-- A page of `e` is mapped at `va'`. -/
theorem views_map {va dst va' perm : Word} (h : Resumed s s' lib y c e t r)
    (hmakes : t.makes ⟨.pageMap, [0, va, dst, va', perm]⟩ = true)
    (hpresent : Present s e (PGNUM va)) : r ≠ 0 ∧ s'.sharing.view i = s.sharing.view i ∨
      r = 0 ∧ va' < UTOP ∧ s'.sharing.view i =
        (Effect.copy (e, PGNUM va) (named e dst, PGNUM va')).act s.sharing.view i := by
  obtain ⟨hno, h₁, h₂, h₃, h₄, h₅⟩ := TrapIn.makes_args hmakes
  obtain ⟨k, hk⟩ := h.cow.kern.sound.sound
  have hn : Names (s.upte e (PGNUM va)) (PGNUM (s.upte e (PGNUM va))) := ⟨hpresent, rfl⟩
  obtain ⟨-, ⟨hr, hu⟩ | ⟨hr, hlt, hp, hf, hu⟩⟩ :=
    h.answer.pageMap hk hno h₁ (by rw [h₂]; exact hn) h.cow.oneAddress.roomy
  · exact .inl ⟨hr, view_of_entry h.contents (by rw [hu])⟩
  refine .inr ⟨hr, by rwa [h₄] at hlt, ?_⟩
  rw [h₃, h₄] at hu
  have hsets := sets_of_upte hu hp hf h.contents
  by_cases hi : i = (named e dst, PGNUM va')
  · subst hi
    rw [Effect.act_copy_self]
    exact hsets.view_self (page_eq_some.mpr hn)
  · rw [Effect.act_copy_of_ne hi]
    exact hsets.view_of_ne hi

/-- The copy is mapped over the page that it is like. -/
theorem views_mapCopy {addr perm : Word} (h : Resumed s s' lib y c e t r)
    (hmakes : t.makes ⟨.pageMap, [0, PFTEMP, 0, addr, perm]⟩ = true)
    (hcopying : Copying s e addr 4096) : s'.sharing.view i = s.sharing.view i := by
  rcases h.views_map (i := i) hmakes hcopying.present with ⟨-, hview⟩ | ⟨-, hlt, hview⟩
  · exact hview
  obtain ⟨hcow, hcopied⟩ := hcopying.page hlt
  rw [show named e 0 = e from if_pos rfl] at hview
  by_cases hie : i = (e, PGNUM addr)
  · have htemp : s.sharing.page (e, PGNUM PFTEMP) = some (PGNUM (s.upte e (PGNUM PFTEMP))) :=
      page_eq_some.mpr ⟨hcopying.present, rfl⟩
    have hpage : s.sharing.page (e, PGNUM addr) = some (PGNUM (s.upte e (PGNUM addr))) :=
      page_eq_some.mpr ⟨hcow.present, rfl⟩
    rw [hview, hie, Effect.act_copy_self, Sharing.view, Sharing.view, htemp, hpage,
      Option.map_some, Option.map_some]
    exact congrArg some (funext fun o => hcopied o o.isLt)
  · rwa [Effect.act_copy_of_ne hie] at hview

/-- `PFTEMP` is no user page. -/
theorem views_unmapTemp (h : Resumed s s' lib y c e t r)
    (hmakes : t.makes ⟨.pageUnmap, [0, PFTEMP, 0, 0, 0]⟩ = true)
    (hpresent : Present s e (PGNUM PFTEMP)) (hi : UserPageNo i.2) :
    s'.sharing.view i = s.sharing.view i := by
  obtain ⟨k, hk⟩ := h.cow.kern.sound.sound
  obtain ⟨hno, h₁, h₂, -⟩ := TrapIn.makes_args hmakes
  have hn : Names (s.upte e (PGNUM PFTEMP)) (PGNUM (s.upte e (PGNUM PFTEMP))) := ⟨hpresent, rfl⟩
  obtain ⟨-, -, hu⟩ := h.answer.pageUnmap hk hno h₁ (by rw [h₂]; decide) (by rw [h₂]; exact hn)
  rw [h₂] at hu
  exact view_of_entry h.contents (by rw [hu, setAt_of_ne fun heq => hi.2 heq.2])

/-- **Every system call that returns.** -/
theorem views (h : Resumed s s' lib y c e t r) (ht : (lib e).traps y t = true)
    (hsys : t.tf.tfTrapno = T_SYSCALL)
    (hi : UserPageNo i.2) : s'.sharing.view i = ((lib e).maps e r).act s.sharing.view i := by
  obtain ⟨k₀, hk₀⟩ := h.cow.kern.sound.sound
  have hstack : i.2 ≠ PGNUM (UXSTACKTOP - PGSIZE) := by
    have hge : PGNUM USTACKTOP ≤ PGNUM (UXSTACKTOP - PGSIZE) := by decide
    have hlt := hi.1
    omega
  rcases Lib.traps_cases ht hsys with ⟨k, hcall, hmakes⟩ | ⟨-, hl, hharmless⟩
  swap
  · have hsame := h.own_spaces hharmless
    simp only [hl, Lib.start, Lib.maps, ite_self, Effect.act_none]
    exact view_of_entry h.contents (by rw [hsame.upte])
  rcases hl : lib e with ⟨pc, fault⟩
  have hpresent := fun hpc : (lib e).fork ≠ .panicked => (h.cow.libOk e).fork hpc
  have hfault := fun hpc : (lib e).fork ≠ .panicked => (h.cow.libOk e).fault hpc
  have hstopped := (h.cow.libOk e).stopped
  rw [hl] at hcall hpresent hfault hstopped
  cases fault with
  | none =>
    have hchild := fun envid (hbe : pc.builds = some envid) =>
      named_child (e := e) h.cow envid (by rw [hl]; exact hbe)
    cases pc with
    | handlerAlloc =>
      cases hcall
      simp only [Lib.maps, ite_self, Effect.act_none]
      exact h.views_alloc hmakes hstack
    | handlerUpcall =>
      cases hcall
      simp only [Lib.maps, ite_self, Effect.act_none]
      exact h.views_plain hmakes (by decide)
    | exofork =>
      cases hcall
      simp only [Lib.maps, ite_self, Effect.act_none]
      obtain ⟨hu, -⟩ := h.answer.exofork hk₀ h.cow.kern.sound.freeHead h.cow.kern.sound.loaded
        h.curenv (TrapIn.makes_no hmakes)
      exact view_of_entry h.contents (by rw [hu])
    | getenvid =>
      cases hcall
      simp only [Lib.maps, ite_self, Effect.act_none]
      exact h.views_plain hmakes (by decide)
    | dupChild envid addr =>
      cases hcall
      have hdup : Duplicating s e addr := hpresent nofun
      rcases h.views_map (i := i) hmakes (by rw [PGNUM_pageAddr]; exact hdup.present) with
        ⟨hr, hview⟩ | ⟨rfl, -, hview⟩
      · rw [Lib.maps_of_ne hr]
        exact hview
      · rw [PGNUM_pageAddr, (hchild envid rfl).1] at hview
        exact hview
    | dupSelf envid addr =>
      cases hcall
      have hdup : Duplicating s e addr := hpresent nofun
      simp only [Lib.maps, ite_self, Effect.act_none]
      rcases h.views_map (i := i) hmakes (by rw [PGNUM_pageAddr]; exact hdup.present) with
        ⟨-, hview⟩ | ⟨-, -, hview⟩
      · exact hview
      · rw [PGNUM_pageAddr, show named e 0 = e from if_pos rfl] at hview
        by_cases hie : i = (e, PGNUM addr)
        · rw [hview, hie, Effect.act_copy_self]
        · rwa [Effect.act_copy_of_ne hie] at hview
    | dupRead envid addr =>
      cases hcall
      obtain ⟨hdup, -⟩ : ForkOk s e (.dupRead envid addr) := hpresent nofun
      rcases h.views_map (i := i) hmakes (by rw [PGNUM_pageAddr]; exact hdup.present) with
        ⟨hr, hview⟩ | ⟨rfl, -, hview⟩
      · rw [Lib.maps_of_ne hr]
        exact hview
      · rw [PGNUM_pageAddr, (hchild envid rfl).1] at hview
        exact hview
    | stackAlloc envid =>
      cases hcall
      simp only [Lib.maps, ite_self, Effect.act_none]
      exact h.views_alloc hmakes hstack
    | upcallSet envid =>
      cases hcall
      simp only [Lib.maps, ite_self, Effect.act_none]
      exact h.views_plain hmakes (by decide)
    | statusSet envid =>
      cases hcall
      simp only [Lib.maps, ite_self, Effect.act_none]
      exact h.views_plain hmakes (by decide)
    | _ => cases hcall
  | entered va err => cases hcall
  | alloc addr =>
    cases hcall
    simp only [Lib.maps, reduceCtorEq, false_and, if_false, Effect.act_none]
    exact h.views_alloc hmakes hi.2
  | copy addr n => cases hcall
  | map addr =>
    cases hcall
    simp only [Lib.maps, reduceCtorEq, false_and, if_false, Effect.act_none]
    exact h.views_mapCopy hmakes (hfault fun hp => by cases hstopped hp)
  | unmap addr =>
    cases hcall
    have hdoubled : Doubled s e addr := hfault fun hp => by cases hstopped hp
    simp only [Lib.maps, reduceCtorEq, false_and, if_false, Effect.act_none]
    exact h.views_unmapTemp hmakes hdoubled.present hi

end Resumed

/-! ### Moves -/

/-- **A trap of a program.** -/
theorem Cow.trap_views (h : Cow s lib) (hcur : s.curenv c = some e) (ht : (lib e).traps y t = true)
    (hs : JOS.step s (.trap c t) = some s') (hi : UserPageNo i.2) :
    s'.sharing.view i = (trapEffect lib e t s').act s.sharing.view i := by
  obtain ⟨k, hk⟩ := h.kern.sound.sound
  have hturn := h.turn hcur ht hs
  have hload := h.kern.sound.loaded
  have hfree := h.kern.sound.freeHead
  have hok := h.tame hcur ht
  cases trap_turns hk hload hcur hs with
  | destroyed hdoes hphys =>
    obtain ⟨hgone, -, hu⟩ := hdoes.upte_destroy
    have hloses : s.sharing.Loses (PlacesOf e) s'.sharing :=
      loses_of_upte (fun i hi => (hu i.1 i.2).trans (if_pos hi))
        (fun i hi => (hu i.1 i.2).trans (if_neg hi)) (.of_phys hk hphys)
    rw [trapEffect, if_pos hgone]
    by_cases hie : PlacesOf e i
    · rw [Effect.act_drop_of_lost hie]
      exact hloses.view_of_lost hie
    · rw [Effect.act_drop_of_not hie]
      exact hloses.view_of_not hie
  | frame hno hframe =>
    have hu := frame_spaces hk hload hfree hok hno hs hframe
    have hlive : s'.dirs e ≠ none := by
      rw [hframe.dirs]
      exact hturn.live
    have hne : ¬ T_PGFLT = T_SYSCALL := by decide
    rw [Lib.traps, if_pos hno, Bool.and_eq_true, beq_iff_eq, bne_iff_ne] at ht
    rw [trapEffect, if_neg hlive, hno, if_neg hne, Effect.act_none]
    refine Sharing.view_congr (page_congr (by rw [hu])) fun p hp => ?_
    exact h.lowSame_of_high hok hs hcur ht.2 (fun va => frame_high) i.1 i.2 p hi.1
      (page_eq_some.mp hp)
  | answered hsys hans hphys =>
    have hlive : s'.dirs e ≠ none := by
      rw [hans.live hk hfree hload hcur (Lib.traps_ipc ht hsys) fun hno =>
        Lib.traps_destroy ht hsys hno]
      exact hturn.live
    rw [trapEffect, if_neg hlive, if_pos hsys, hans.eax]
    exact Resumed.views ⟨h, hturn, .of_phys hk hphys, hans, hcur⟩ ht hsys hi
  | same hno hcall hsame =>
    have hlive : s'.dirs e ≠ none := by
      rw [hsame.2]
      exact hturn.live
    have heffect : trapEffect lib e t s' = .none := by
      rw [trapEffect, if_neg hlive]
      split_ifs with hsys
      · rw [own_of_no_answer ht hsys (hcall hsys)]
        simp only [Lib.start, Lib.maps, ite_self]
      · rfl
    rw [heffect, Effect.act_none]
    exact view_of_entry (.of_mem hsame.1) (by rw [hsame.upte])

/-- **The library goes on.** -/
theorem Cow.go_views (h : Cow s lib) (hcur : s.curenv c = some e) {l' : Lib}
    (hs : (lib e).go y s c = some (s', l'))
    (hi : UserPageNo i.2) : s'.sharing.view i =
      (match (lib e).writes y with
        | none => Effect.none
        | some (va, b) => storeEffect s lib e va b).act s.sharing.view i := by
  rcases hl : lib e with ⟨pc, fault⟩
  rw [hl] at hs
  cases fault with
  | none =>
    obtain ⟨⟨s₁, pc'⟩, hgo, heq⟩ := Option.map_eq_some_iff.mp hs
    cases heq
    cases pc with
    | handlerTest =>
      obtain ⟨_, -, heq⟩ := Option.bind_eq_some_iff.mp hgo
      cases heq
      rfl
    | handlerStore k =>
      obtain ⟨s₂, hstore, heq⟩ := Option.bind_eq_some_iff.mp hgo
      cases heq
      exact h.store_views hcur (by rw [hl]; nofun) (.inl (by rw [hl])) hstore
    | thisenvStore p k =>
      obtain ⟨s₂, hstore, heq⟩ := Option.bind_eq_some_iff.mp hgo
      cases heq
      exact h.store_views hcur (by rw [hl]; nofun) (.inl (by rw [hl])) hstore
    | scan envid addr =>
      simp only [Lib.goFork] at hgo
      split_ifs at hgo
      · obtain ⟨_, -, heq⟩ := Option.bind_eq_some_iff.mp hgo
        cases heq
        rfl
      · cases hgo
        rfl
    | dup envid addr =>
      obtain ⟨_, -, heq⟩ := Option.bind_eq_some_iff.mp hgo
      cases heq
      rfl
    | _ => cases hgo
  | entered va err =>
    obtain ⟨_, -, heq⟩ := Option.bind_eq_some_iff.mp hs
    cases heq
    rfl
  | copy addr n =>
    -- the page at `PFTEMP` is shown nowhere else
    obtain ⟨b, -, hgo⟩ := Option.bind_eq_some_iff.mp hs
    obtain ⟨s₁, hstore, heq⟩ := Option.bind_eq_some_iff.mp hgo
    cases heq
    obtain ⟨k, hk⟩ := h.kern.sound.sound
    obtain ⟨-, hu⟩ := store_spaces hk h.kern.sound.loaded hstore
    refine Sharing.view_congr (page_congr (by rw [hu])) fun p hp => ?_
    exact h.copy_content hcur (by rw [hl]) hstore (fun heq => hi.2 (congrArg Prod.snd heq))
      (page_eq_some.mp hp)
  | _ => cases hs

/-- **Each move** does to what the pages show what it does to the memories. -/
theorem Cow.step_views (h : Cow w.kern w.lib) (hs : w.step y m = some w') (hi : UserPageNo i.2) :
    w'.kern.sharing.view i = (w.effect y m w').act w.kern.sharing.view i := by
  cases m with
  | start c =>
    obtain ⟨s', hstep, rfl⟩ := Option.map_eq_some_iff.mp hs
    have hsame := start_spaces hstep
    exact view_of_entry (.of_mem hsame.1) (by rw [hsame.upte])
  | store c va b =>
    obtain ⟨e, hcur, hs⟩ := Option.bind_eq_some_iff.mp hs
    split_ifs at hs with hl
    obtain ⟨s', hstep, rfl⟩ := Option.map_eq_some_iff.mp hs
    rw [Lib.stores, Bool.and_eq_true, bne_iff_ne, Bool.or_eq_true, beq_iff_eq,
      decide_eq_true_eq] at hl
    rw [World.effect, hcur]
    exact h.store_views hcur hl.1 hl.2 hstep
  | fork c =>
    obtain ⟨e, -, hs⟩ := Option.bind_eq_some_iff.mp hs
    split_ifs at hs
    cases hs
    rfl
  | go c =>
    obtain ⟨e, hcur, hs⟩ := Option.bind_eq_some_iff.mp hs
    obtain ⟨⟨s', l'⟩, hgo, heq⟩ := Option.bind_eq_some_iff.mp hs
    cases heq
    rw [World.effect, hcur]
    exact h.go_views hcur hgo hi
  | trap c t =>
    rw [World.step] at hs
    split at hs
    · rename_i hcur
      obtain ⟨s', hstep, rfl⟩ := Option.map_eq_some_iff.mp hs
      have hsame := wakes_spaces hcur hstep
      rw [World.effect, hcur]
      exact view_of_entry (.of_mem hsame.1) (by rw [hsame.upte])
    · rename_i e hcur
      split_ifs at hs with hl
      obtain ⟨s', hstep, rfl⟩ := Option.map_eq_some_iff.mp hs
      rw [World.effect, hcur]
      exact h.trap_views hcur hl hstep hi

end JOS
