import JOS.Fork.Answers

/-!
# What programs that fork write

A store of a program, and the frame of its page fault, are seen through the places that show the
page, which are the program's own and those that are excused (`Cow.same_content`). Pages are not
exchanged (`store_spaces`, `frame_spaces`).
-/

namespace JOS

open JOS.General

open Function (update)

variable {s s' : KState} {lib : ℕ → Lib} {l : Lib} {ev : Event} {y : Symbols} {t : TrapIn}
  {k : ℕ → Kind} {c e e' v p o : ℕ}
  {va : Word} {b : BitVec 8}

/-! ### The address spaces -/

theorem not_asks_map (hev : ∀ c cur a s₁, ¬ SysCall s ev c cur a s₁) {e' : ℕ} {va va' perm : Word} :
    ¬ Asks s ev (.share e va e' va' perm) := by
  rintro (⟨c, cur, a, s₁, h, -⟩ | ⟨c, a, s₁, h, -⟩)
  · exact hev _ _ _ _ h
  · exact hev _ _ _ _ h

/-- A page fault whose frame is written exchanges no pages. -/
theorem frame_spaces (hx : (s.vmState k).Sound) (hload : Loaded s) (hfree : FreeHead s)
    (hok : Tame s (.trap c t))
    (hno : t.tf.tfTrapno = T_PGFLT) (hs : step s (.trap c t) = some s')
    (h : FrameWritten s c e t s') : s'.upte = s.upte := by
  have hsys : ∀ c' cur a s₁, ¬ SysCall s (.trap c t) c' cur a s₁ := fun c' cur a s₁ =>
    not_sysCall_of_trapno (by rw [hno]; decide)
  obtain ⟨op, k', hdoes, hask⟩ := step_does hx hload hfree hok (fun _ _ => nofun) hs
  cases op with
  | create e' => exact hdoes.upte_create
  | keep => exact hdoes.upte_keep
  | destroy e' =>
    have hgone := hdoes.upte_destroy.1
    rw [h.dirs] at hgone
    generalize s'.vmState k' = x' at hdoes
    cases hdoes with
    | destroy hd _ =>
      have hd : s.dirs e' = _ := hd
      rw [hgone] at hd
      cases hd
  | alloc e' va perm =>
    rcases hask with ⟨_, _, _, _, hcall, -⟩ | ⟨-, _, _, hev⟩
    · exact absurd hcall (hsys _ _ _ _)
    · cases hev
  | share e' va e'' va' perm => exact absurd hask (not_asks_map hsys)
  | unmap e' va =>
    obtain ⟨_, _, _, _, hcall, -⟩ := hask
    exact absurd hcall (hsys _ _ _ _)

/-- Nor does a store. -/
theorem store_spaces (hx : (s.vmState k).Sound) (hload : Loaded s)
    (hs : step s (.store c va b) = some s') :
    s'.dirs = s.dirs ∧ s'.upte = s.upte := by
  obtain ⟨hd, hdoes⟩ := userStore_does (s := s.reset) hx hload hs
  exact ⟨hd, Does.upte_keep (s := s) hdoes⟩

/-- What a store does. -/
theorem store_writes (hload : Loaded s) (hcur : s.curenv c = some e)
    (hs : step s (.store c va b) = some s') :
    va < UTOP ∧ test (s.upte e (PGNUM va)) PTE_P = true ∧ test (s.upte e (PGNUM va)) PTE_W = true ∧
      ∀ p o, s'.mem.byte p o = if p = PGNUM (s.upte e (PGNUM va)) ∧ o = va.toNat % 4096 then b
        else s.mem.byte p o := by
  simp only [step, userStore] at hs
  split_ifs at hs with hrun
  obtain ⟨-, hva⟩ := hrun
  cases ht : translate s.reset.mem (s.reset.cpus c).cr3 va with
  | none =>
    simp only [ht] at hs
    cases hs
  | some pte =>
    simp only [ht] at hs
    split_ifs at hs with hperm
    cases hs
    obtain ⟨hP, hentry⟩ := translate_eq (hload c e hcur) hva ht
    have hentry : s.upte e (PGNUM va) = pte := hentry
    rw [hentry]
    exact ⟨hva, hP, (Bool.and_eq_true_iff.mp hperm).1, fun p o => byte_storeAt p o⟩

/-! ### What is seen of a write -/

/-- **A page keeps its contents** when the places that are written do not show it. -/
theorem Cow.same_content (h : Cow s lib) (hok : Tame s ev) (hs : step s ev = some s')
    (hcur : s.curenv ev.cpu = some e)
    (hn : Names (s.upte e' v) p)
    (hno : ∀ va, ev.Stores va → va < UTOP → test (s.upte e (PGNUM va)) PTE_W = true →
      (e', v) ≠ (e, PGNUM va) ∧ ¬ (lib e).Excuses e (PGNUM va) (e', v)) : s'.sharing.content p =
        s.sharing.content p := by
  funext o
  by_contra hne
  obtain ⟨va, hstores, cur, hcur', hva, ⟨hnames, hW⟩, -⟩ :=
    step_writes_user h.kern.sound hok hs hn hne
  cases hcur.symm.trans hcur'
  obtain ⟨hother, hnex⟩ := hno va hstores hva hW
  rcases h.alone (e, PGNUM va) (e', v) p hW (page_eq_some.mpr hnames)
    (page_eq_some.mpr hn) with heq | hex
  · exact hother heq
  · exact hnex hex

/-- What the handler of a program writes, and where its frames are. -/
theorem PGNUM_ge (h : USTACKTOP ≤ va) : PGNUM USTACKTOP ≤ PGNUM va := by
  have h : USTACKTOP.toNat ≤ va.toNat := h
  rw [PGNUM_eq, PGNUM_eq]
  exact Nat.div_le_div_right h

theorem USTACKTOP_le_utfAddr {i : ℕ} {esp : Word} (hi : i < 52) :
    USTACKTOP ≤ utfAddr esp + BitVec.ofNat 32 i := by
  have hle := utfAddr_le esp
  have htop : UTOP.toNat = 0xeec00000 := by decide
  have hstack : USTACKTOP.toNat = 0xeebfe000 := by decide
  have hutf := utfAddr_toNat esp
  rw [BitVec.le_def, BitVec.toNat_add, BitVec.toNat_ofNat, hstack]
  split_ifs at hutf <;> omega

/-- Only pages below the stack's end are excused. -/
theorem Cow.excuses_low {j : ℕ × ℕ} (h : Cow s lib) (hpc : (lib e).fork ≠ .panicked)
    (hex : (lib e).Excuses e v j) :
    v < PGNUM USTACKTOP := by
  rcases hex with hp | ⟨envid, addr, hdup, rfl, -⟩ | ⟨addr, hunmap, -, ⟨rfl, -⟩ | ⟨rfl, -⟩⟩
  · exact absurd hp hpc
  · have hfork := (h.libOk e).fork hpc
    rw [hdup] at hfork
    exact hfork.user.1
  · exact userPageNo_PFTEMP
  · have hfault := (h.libOk e).fault hpc
    rw [hunmap] at hfault
    exact hfault.user.1

/-- **What is written above the stack's end** is not seen below it. -/
theorem Cow.lowSame_of_high (h : Cow s lib) (hok : Tame s ev) (hs : step s ev = some s')
    (hcur : s.curenv ev.cpu = some e)
    (hpc : (lib e).fork ≠ .panicked) (hhigh : ∀ va, ev.Stores va → USTACKTOP ≤ va) (e' : ℕ) :
    LowSame s s' e' := by
  intro v p hv hn
  refine h.same_content hok hs hcur hn fun va hstores _ _ => ⟨?_, fun hex => ?_⟩
  · intro heq
    have hge := PGNUM_ge (hhigh va hstores)
    have heq : v = PGNUM va := congrArg Prod.snd heq
    exact absurd hv (not_lt.mpr (heq ▸ hge))
  · exact absurd (h.excuses_low hpc hex) (not_lt.mpr (PGNUM_ge (hhigh va hstores)))

/-- **A program outside its handler** writes nothing that the handler of another one uses. -/
theorem Cow.lowSame_of_other (h : Cow s lib) (hok : Tame s ev) (hs : step s ev = some s')
    (hcur : s.curenv ev.cpu = some e)
    (hpc : (lib e).fork ≠ .panicked) (hfault : (lib e).fault = .none) (he : e' ≠ e) :
    (lib e').fault = .none ∨ LowSame s s' e' := by
  by_cases hnone : (lib e').fault = .none
  · exact .inl hnone
  refine .inr fun v p hv hn => h.same_content hok hs hcur hn fun va _ _ _ =>
    ⟨fun heq => he (congrArg Prod.fst heq), ?_⟩
  rintro (hp | ⟨envid, addr, hdup, -, heq⟩ | ⟨addr, hunmap, -⟩)
  · exact hpc hp
  · -- the child that is built is not in its handler
    have hchild := (h.builds e envid (by rw [hdup]; rfl)).2
    have he' : e' = ENVX envid := congrArg Prod.fst heq
    rw [he', hchild] at hnone
    exact hnone rfl
  · rw [hfault] at hunmap
    cases hunmap

end JOS
