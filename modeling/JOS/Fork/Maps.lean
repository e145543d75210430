import JOS.Fork.Traps

/-!
# Pages that programs map

What `sys_page_alloc`, `sys_page_map` and `sys_page_unmap` do to the invariant (`Cow.maps`,
`Cow.unmaps`), `sys_exofork` (`Cow.born`), and the end of a program (`Cow.destroyed`).
-/

namespace JOS

open JOS.General

open Function (update)

variable {s s' : KState} {lib : ℕ → Lib} {l l' : Lib} {e e' x v p : ℕ} {perm envid r : Word}
  {wakes : Prop}

/-! ### Entries -/

theorem OneAddress.maps (h : OneAddress s) (hu : s'.upte = setAt s.upte x v (mkPte p perm))
    (hp : p < 2 ^ 20) (hf : IsFlags perm)
    (hsame : v ≠ PGNUM PFTEMP → ∀ e' v', (e', v') ≠ (x, v) → v' ≠ PGNUM PFTEMP →
    Names (s.upte e' v') p → v' = v) : OneAddress s' := by
  have hother : ∀ e₁ v₁, (e₁, v₁) ≠ (x, v) → s'.upte e₁ v₁ = s.upte e₁ v₁ := by
    intro e₁ v₁ hne
    rw [hu, setAt_of_ne]
    rintro ⟨rfl, rfl⟩
    exact hne rfl
  have hself : ∀ {q}, Names (s'.upte x v) q → q = p := by
    intro q hn
    rw [hu, setAt_self] at hn
    exact names_unique hn (names_mkPte hp hf)
  intro e₁ v₁ e₂ v₂ q h₁ h₂ hv₁ hv₂
  by_cases hx₁ : (e₁, v₁) = (x, v)
  · cases hx₁
    cases hself h₁
    by_cases hx₂ : (e₂, v₂) = (x, v)
    · cases hx₂
      rfl
    · rw [hother e₂ v₂ hx₂] at h₂
      exact (hsame hv₁ e₂ v₂ hx₂ hv₂ h₂).symm
  · by_cases hx₂ : (e₂, v₂) = (x, v)
    · cases hx₂
      cases hself h₂
      rw [hother e₁ v₁ hx₁] at h₁
      exact hsame hv₂ e₁ v₁ hx₁ hv₁ h₁
    · rw [hother e₁ v₁ hx₁] at h₁
      rw [hother e₂ v₂ hx₂] at h₂
      exact h e₁ v₁ e₂ v₂ q h₁ h₂ hv₁ hv₂

theorem isFlags_COW : IsFlags PTE_COW := by decide

theorem CowLow.maps (h : CowLow s) (hu : s'.upte = setAt s.upte x v (mkPte p perm))
    (hcow : test perm PTE_COW = true → v < PGNUM USTACKTOP) : CowLow s' := by
  intro e₁ v₁ hc
  by_cases hx₁ : e₁ = x ∧ v₁ = v
  · obtain ⟨rfl, rfl⟩ := hx₁
    rw [hu, setAt_self, test_mkPte p perm isFlags_COW (by decide)] at hc
    exact hcow hc
  · rw [hu, setAt_of_ne hx₁] at hc
    exact h e₁ v₁ hc

/-- Fewer pages. -/
theorem OneAddress.of_entries (h : OneAddress s)
    (hu : ∀ e v, s'.upte e v = s.upte e v ∨ s'.upte e v = 0) : OneAddress s' := by
  intro e₁ v₁ e₂ v₂ q h₁ h₂
  have hstill : ∀ e v, Names (s'.upte e v) q → Names (s.upte e v) q := by
    intro e v hn
    rcases hu e v with heq | h0
    · rwa [heq] at hn
    · rw [h0, Names, test_zero] at hn
      exact absurd hn.1 Bool.false_ne_true
  exact h e₁ v₁ e₂ v₂ q (hstill _ _ h₁) (hstill _ _ h₂)

theorem CowLow.of_entries (h : CowLow s) (hu : ∀ e v, s'.upte e v = s.upte e v ∨ s'.upte e v = 0) :
    CowLow s' := by
  intro e v hc
  rcases hu e v with heq | h0
  · rw [heq] at hc
    exact h e v hc
  · rw [h0, test_zero] at hc
    cases hc

/-! ### The invariant -/

/-- **A page is mapped** at `v` of `x`, which is `e` or the child that it builds. -/
theorem Cow.maps (h : Cow s lib) (ht : Turn s s' lib e wakes) (hc : SameContents s s')
    (hd : s'.dirs = s.dirs) (hu : s'.upte = setAt s.upte x v (mkPte p perm))
    (hp : p < 2 ^ 20) (hf : IsFlags perm) (hx : x = e ∨ lib x = .child ∧ v ≠ PGNUM PFTEMP)
    (hb : GoesOnBuilding (lib e) l' wakes)
    (hl : LibOk s' e l')
    (hex : ∀ v' j, (e, v') ≠ (x, v) → j ≠ (x, v) → (lib e).Excuses e v' j → l'.Excuses e v' j)
    (hothers : ∀ a, a ≠ (x, v) → s.sharing.writable a → s.sharing.page a = some p →
    Excused (update lib e l') a (x, v))
    (hself : test perm PTE_W = true → ∀ b, b ≠ (x, v) → s.sharing.page b = some p →
    Excused (update lib e l') (x, v) b)
    (hsame : v ≠ PGNUM PFTEMP → ∀ e' v', (e', v') ≠ (x, v) → v' ≠ PGNUM PFTEMP →
    Names (s.upte e' v') p → v' = v)
    (hcow : test perm PTE_COW = true → v < PGNUM USTACKTOP) : Cow s' (update lib e l') := by
  have hsets := sets_of_upte hu hp hf hc
  have hother : ∀ e' v', ¬ (e' = x ∧ v' = v) → s'.upte e' v' = s.upte e' v' := fun e' v' hne => by
    rw [hu, setAt_of_ne hne]
  refine h.next ht.kern (fun e' _ => congrFun hd e') (fun he => ?_) ?_
    (h.oneAddress.maps hu hp hf hsame) (h.low.maps hu hcow)
    (fun e' he' => ?_) hl (fun e' envid hbe => h.builds_next ht hb hbe)
  · rw [hd] at he
    exact absurd he ht.live
  · refine hsets.alone h.alone (fun a b ha hb hab => hab.update fun v' hv' => ?_) hothers hself
    subst hv'
    exact hex v' b ha hb
  · -- another program has the same pages, or it is the child
    by_cases hxe : e' = x
    · subst hxe
      obtain rfl | ⟨hchild, hv⟩ := hx
      · exact absurd rfl he'
      rw [hchild]
      refine ⟨nofun, fun _ => trivial, fun _ hpresent => ?_⟩
      have hok : ¬ Present s e' (PGNUM PFTEMP) := by
        have hfault := (h.libOk e').fault (by rw [hchild]; nofun)
        rwa [hchild] at hfault
      refine hok ?_
      rwa [Present, hother e' _ fun heq => hv heq.2.symm] at hpresent
    · refine (h.libOk e').congr (fun v' _ => hother e' v' fun heq => hxe heq.1)
        (.inr fun v' q _ hn => ?_)
      exact hc e' v' q hn

/-- **`PFTEMP` is unmapped**, after `pgfault` has mapped the page elsewhere. -/
theorem Cow.unmaps (h : Cow s lib) (ht : Turn s s' lib e wakes) (hc : SameContents s s')
    (hd : s'.dirs = s.dirs) (hu : s'.upte = setAt s.upte e (PGNUM PFTEMP) 0)
    (hb : GoesOnBuilding (lib e) l' wakes) (hl : LibOk s' e l')
    (hex : ∀ v j, v ≠ PGNUM PFTEMP → j ≠ (e, PGNUM PFTEMP) → (lib e).Excuses e v j →
    l'.Excuses e v j) :
    Cow s' (update lib e l') := by
  have hother : ∀ e' v', ¬ (e' = e ∧ v' = PGNUM PFTEMP) → s'.upte e' v' = s.upte e' v' :=
      fun e' v' hne => by
    rw [hu, setAt_of_ne hne]
  have hentries : ∀ e' v', s'.upte e' v' = s.upte e' v' ∨ s'.upte e' v' = 0 := by
    intro e' v'
    by_cases hne : e' = e ∧ v' = PGNUM PFTEMP
    · obtain ⟨rfl, rfl⟩ := hne
      right
      rw [hu, setAt_self]
    · exact .inl (hother e' v' hne)
  have hloses : s.sharing.Loses (· = (e, PGNUM PFTEMP)) s'.sharing := by
    refine loses_of_upte ?_ (fun i hi => hother i.1 i.2 fun heq => hi (Prod.ext heq.1 heq.2)) hc
    rintro i rfl
    rw [hu, setAt_self]
  refine h.next ht.kern (fun e' _ => congrFun hd e') (fun he => ?_) ?_
    (h.oneAddress.of_entries hentries)
    (h.low.of_entries hentries) (fun e' he' => ?_) hl (fun e' envid hbe => h.builds_next ht hb hbe)
  · rw [hd] at he
    exact absurd he ht.live
  · refine hloses.alone h.alone fun a b ha hb hab => hab.update fun v' hv' => ?_
    subst hv'
    exact hex v' b (fun hv => ha (by rw [hv])) hb
  · exact (h.libOk e').congr (fun v' _ => hother e' v' fun heq => he' heq.1)
      (.inr fun v' q _ hn => hc e' v' q hn)

/-- **A program ends.** -/
theorem Cow.destroyed (h : Cow s lib) (ht : Turn s s' lib e wakes) (hc : SameContents s s')
    (hgone : s'.dirs e = none)
    (hd : ∀ e', e' ≠ e → s'.dirs e' = s.dirs e')
    (hu : ∀ e' v, s'.upte e' v = if e' = e then 0 else s.upte e' v) :
    Cow s' (update lib e .start) := by
  have hentries : ∀ e' v', s'.upte e' v' = s.upte e' v' ∨ s'.upte e' v' = 0 := by
    intro e' v'
    rw [hu]
    split_ifs
    · exact .inr rfl
    · exact .inl rfl
  have hloses : s.sharing.Loses (·.1 = e) s'.sharing :=
    loses_of_upte (fun i hi => by rw [hu, if_pos hi]) (fun i hi => by rw [hu, if_neg hi]) hc
  refine h.next ht.kern hd (fun _ => rfl) ?_ (h.oneAddress.of_entries hentries)
    (h.low.of_entries hentries) (fun e' he' => ?_)
    (libOk_start (not_present_of_dirs hgone))
      (fun e' envid hbe => h.builds_next ht (fun _ hb => by cases hb) hbe)
  · exact hloses.alone h.alone fun a b ha hb hab => hab.update fun v' hv' =>
      absurd (congrArg Prod.fst hv') ha
  · refine (h.libOk e').congr (fun v' _ => by rw [hu, if_neg he'])
      (.inr fun v' q _ hn => hc e' v' q hn)

/-- **A child is born.** -/
theorem Cow.born (h : Cow s lib) (ht : Turn s s' lib e wakes) (hw : ¬ wakes)
    (hc : SameContents s s') (hu : s'.upte = s.upte) (hborn : Born s e r x s')
    (hl : lib e = ⟨.exofork, .none⟩) :
    Cow s' (update (update lib e ⟨.scan r 0, .none⟩) (ENVX r) .child) := by
  have hslot := hborn.slot
  subst hslot
  have hne : ENVX r ≠ e := by
    intro hx
    have hlive := ht.live
    rw [← hx] at hlive
    exact hlive hborn.gone
  have hno : ∀ e' envid, (lib e').fork.builds = some envid → ENVX envid ≠ ENVX r := by
    intro e' envid hbe hx
    have hlive := (h.builds e' envid hbe).1.live
    rw [hx] at hlive
    exact hlive hborn.gone
  have hstart := h.gone (ENVX r) hborn.gone
  have hlow : ∀ e', LowEntries s s' e' := fun e' v _ => by rw [hu]
  have hok : LibOk s' e (lib e) := (h.libOk e).congr (hlow e) (.inr fun v q _ hn => hc e v q hn)
  have hwrites : s.sharing.Writes (fun _ => True) s'.sharing :=
    writes_of_upte hu fun e v p hn hW => absurd hn (hW (e, v) trivial)
  have hpftemp : ∀ l : Lib, l.fault = .none → l.fork ≠ .panicked → ForkOk s' e l.fork →
      LibOk s' e l := by
    intro l hfault hfork hforkOk
    refine ⟨fun hp => absurd hp hfork, fun _ => hforkOk, fun _ => ?_⟩
    have hnone := hok.fault (by rw [hl]; nofun)
    rw [hl] at hnone
    rw [hfault]
    exact hnone
  rw [Function.update_comm hne.symm]
  have hchild : Cow s' (update lib (ENVX r) .child) := by
    refine h.next ht.kern hborn.others (fun hd => absurd hd hborn.live) ?_ ?_ ?_ (fun e' _ => ?_) ?_
      (fun e' envid hbe => ?_)
    · refine (hwrites.alone h.alone).mono fun a b hab => hab.update fun v _ hex => ?_
      rw [hstart] at hex
      rcases hex with hp | ⟨_, _, hp, -⟩ | ⟨_, hp, -⟩ <;> cases hp
    · intro e₁ v₁ e₂ v₂ p
      rw [hu]
      exact h.oneAddress e₁ v₁ e₂ v₂ p
    · intro e₁ v₁
      rw [hu]
      exact h.low e₁ v₁
    · exact (h.libOk e').congr (hlow e') (.inr fun v q _ hn => hc e' v q hn)
    · refine ⟨nofun, fun _ => trivial, fun _ hpresent =>
        not_present_of_dirs hborn.gone (v := PGNUM PFTEMP) ?_⟩
      rwa [Present, hu] at hpresent
    · by_cases he : e' = ENVX r
      · subst he
        rw [Function.update_self] at hbe
        cases hbe
      · rw [Function.update_of_ne he] at hbe
        rw [Function.update_of_ne (hno e' envid hbe)]
        exact ⟨ht.builds e' envid hbe fun _ => hw, (h.builds e' envid hbe).2⟩
  refine hchild.next ht.kern (fun _ _ => rfl) (fun hd => ?_) (hchild.alone.mono fun a b hab =>
    hab.update fun v _ hex => ?_)
    hchild.oneAddress hchild.low (fun e' _ => hchild.libOk e')
      (hpftemp _ rfl (fun heq => by cases heq) trivial) (fun e' envid hbe => ?_)
  · rw [hborn.others e hne.symm] at hd
    exact absurd hd ht.live
  · rw [Function.update_of_ne hne.symm, hl] at hex
    rcases hex with hp | ⟨_, _, hp, -⟩ | ⟨_, hp, -⟩ <;> cases hp
  · by_cases he : e' = e
    · subst he
      rw [Function.update_self] at hbe
      cases hbe
      refine ⟨⟨hborn.id, hborn.parent, hne, hborn.asleep, hborn.live⟩, ?_⟩
      rw [Function.update_of_ne hne, Function.update_self]
    · rw [Function.update_of_ne he] at hbe
      obtain ⟨hbuilding, hlib⟩ := hchild.builds e' envid hbe
      refine ⟨hbuilding, ?_⟩
      have hx : ENVX envid ≠ e := by
        rintro hx
        rw [hx, Function.update_of_ne hne.symm, hl] at hlib
        cases hlib
      rwa [Function.update_of_ne hx]

end JOS
