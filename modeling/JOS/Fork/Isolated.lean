import JOS.Fork.Copy
import JOS.Fork.Memories

/-!
# Isolation

The machine boots and creates environments (`Launched`). From then on the programs run, and fork, in
any order and on any number of CPUs. In every state of a run, a program sees the memory that its own
stores and the copies of `fork` have made (`forks_isolated`).
-/

namespace JOS

open JOS.General

open Function (update)

variable {s₀ s s' : KState} {ev : Event} {u : ℕ → ℕ → Word} {e v p : ℕ} {elf : Elf} {y : Symbols}
  {w₀ w w' : World}
  {M : ℕ × ℕ → Option PageBytes} {ms : List Move}

/-! ### Programs that have been loaded -/

/-- Pages that `load_icode` has mapped: each at one place, in the part of the address space that
`fork` copies, and none marked copy-on-write. -/
structure Plain (u : ℕ → ℕ → Word) : Prop where
  single : ∀ e v e' v' p, Names (u e v) p → Names (u e' v') p → e' = e ∧ v' = v
  user : ∀ e v, test (u e v) PTE_P = true → UserPageNo v
  flags : ∀ e v, test (u e v) PTE_COW = false

theorem Plain.map (h : Plain u) (hfresh : ∀ e v, ¬ Names (u e v) p) (hp : p < 2 ^ 20)
    (hv : UserPageNo v) :
    Plain (setAt u e v (mkPte p (PTE_W ||| PTE_U))) := by
  have hf : IsFlags (PTE_W ||| PTE_U) := by decide
  have hself : ∀ {q}, Names (setAt u e v (mkPte p (PTE_W ||| PTE_U)) e v) q → q = p := by
    intro q hn
    rw [setAt_self] at hn
    exact names_unique hn (names_mkPte hp hf)
  refine ⟨fun e₁ v₁ e₂ v₂ q h₁ h₂ => ?_, fun e₁ v₁ hP => ?_, fun e₁ v₁ => ?_⟩
  · by_cases hx₁ : e₁ = e ∧ v₁ = v
    · by_cases hx₂ : e₂ = e ∧ v₂ = v
      · exact ⟨hx₂.1.trans hx₁.1.symm, hx₂.2.trans hx₁.2.symm⟩
      · obtain ⟨rfl, rfl⟩ := hx₁
        rw [setAt_of_ne hx₂, hself h₁] at h₂
        exact absurd h₂ (hfresh e₂ v₂)
    · by_cases hx₂ : e₂ = e ∧ v₂ = v
      · obtain ⟨rfl, rfl⟩ := hx₂
        rw [setAt_of_ne hx₁, hself h₂] at h₁
        exact absurd h₁ (hfresh e₁ v₁)
      · rw [setAt_of_ne hx₁] at h₁
        rw [setAt_of_ne hx₂] at h₂
        exact h.single e₁ v₁ e₂ v₂ q h₁ h₂
  · by_cases hx₁ : e₁ = e ∧ v₁ = v
    · rw [hx₁.2]
      exact hv
    · rw [setAt_of_ne hx₁] at hP
      exact h.user e₁ v₁ hP
  · by_cases hx₁ : e₁ = e ∧ v₁ = v
    · obtain ⟨rfl, rfl⟩ := hx₁
      rw [setAt_self, test_mkPte p _ isFlags_COW (by decide)]
      decide
    · rw [setAt_of_ne hx₁]
      exact h.flags e₁ v₁

/-- What `env_create` asks of the memory code. -/
def LoadAsks (elf : Elf) : VmOp → Prop
  | .create _ => True
  | .alloc _ va perm => elf.MapsAt va ∧ perm = PTE_W ||| PTE_U
  | .keep => True
  | _ => False

/-- **A program is loaded.** -/
theorem Plain.works {k k' : ℕ → Kind} (h : Plain s.upte) (hx : (s.vmState k).Sound)
    (huser : ∀ va, elf.MapsAt va → UserPageNo (PGNUM va))
    (hw : Works (LoadAsks elf) (s.vmState k) (s'.vmState k')) : Plain s'.upte := by
  have hboth : (s'.vmState k').Sound ∧ Plain (s'.vmState k').upte := by
    refine hw.invariant (I := fun x => x.Sound ∧ Plain x.upte) ⟨hx, h⟩ fun x op x' hI hask hdoes =>
      ⟨hdoes.sound hI.1, ?_⟩
    obtain ⟨hsound, hplain⟩ := hI
    cases hdoes with
    | @create e p m k₁ _ _ hupte _ =>
      have hu : VmState.upte ⟨m, update x.dirs e (some p), k₁⟩ = x.upte := hupte
      rw [hu]
      exact hplain
    | @alloc e d p va perm m k₁ hd hva hf ha =>
      obtain ⟨hmaps, rfl⟩ := hask
      have hu : VmState.upte ⟨m, x.dirs, k₁⟩ = setAt x.upte e (PGNUM va)
        (mkPte p (PTE_W ||| PTE_U)) := ha.entries
      have hfree : x.kind p = .free := ha.free
      rw [hu]
      refine hplain.map (hsound.vm.not_names_free ha.free) (hsound.vm.pool.lt ?_) (huser va hmaps)
      rw [hfree]
      simp
    | @keep m hs =>
      have hu : VmState.upte ⟨m, x.dirs, x.kind⟩ = x.upte := hs.entries
      rw [hu]
      exact hplain
    | share => exact hask.elim
    | unmap => exact hask.elim
    | destroy => exact hask.elim
  exact hboth.2

/-- The kernel creates an environment that has no page above its stack and none at `PFTEMP`. -/
def Launches (s : KState) (ev : Event) : Prop :=
  Tame s ev ∧ ∃ c elf, ev = .create c elf ∧ ∀ va, elf.MapsAt va → UserPageNo (PGNUM va)

theorem plain_of_launches (h₀ : Booted s₀) (h : Reach step Launches s₀ s) : KernOk s ∧
    Plain s.upte := by
  refine h.invariant (I := fun s => KernOk s ∧ Plain s.upte) ⟨?_, ?_⟩ fun s s' ev hI hok hs => ?_
  · have hgood : Good s₀ := good_of_reach h₀ (Reach.refl s₀)
    refine ⟨h₀.soundState, hgood, fun e he => absurd (h₀.envs e).2 he⟩
  · have hzero : s₀.upte = fun _ _ => 0 := by
      funext e v
      exact upte_of_none (h₀.envs e).2
    rw [hzero]
    refine ⟨fun e v e' v' p hn _ => ?_, fun e v hP => ?_, fun e v => test_zero _⟩
    · rw [Names, test_zero] at hn
      exact absurd hn.1 Bool.false_ne_true
    · rw [test_zero] at hP
      cases hP
  · obtain ⟨hkern, hplain⟩ := hI
    obtain ⟨htame, c, elf, rfl, huser⟩ := hok
    refine ⟨hkern.step htame hs, ?_⟩
    obtain ⟨k, hx⟩ := hkern.sound.sound
    simp only [step] at hs
    cases hcreate : envCreate s.reset c elf with
    | error w =>
      rw [hcreate] at hs
      cases hs
    | ok s₁ =>
      rw [hcreate] at hs
      cases hs
      have hask : ∀ e, s.reset.envFreeList = some e →
          LoadAsks elf (.create e) ∧ ∀ va, elf.MapsAt va →
          LoadAsks elf (.alloc e va (PTE_W ||| PTE_U)) :=
        fun e _ => ⟨trivial, fun va hva => ⟨hva, rfl⟩⟩
      obtain ⟨⟨k', hworks⟩, -⟩ :=
        envCreate_works (s := s.reset) hx hkern.sound.freeHead
        (htame.image c elf rfl).1 hask trivial hcreate
      exact hplain.works hx huser hworks

/-! ### Runs -/

/-- The programs that the kernel has loaded are about to run. -/
def Launched (w : World) : Prop := ∃ s₀, Booted s₀ ∧ Reach step Launches s₀ w.kern ∧ ∀ e,
    w.lib e = .start

theorem Launched.cow (h : Launched w) : Cow w.kern w.lib := by
  obtain ⟨s₀, h₀, hreach, hlib⟩ := h
  obtain ⟨hkern, hplain⟩ := plain_of_launches h₀ hreach
  refine ⟨hkern, fun e _ => hlib e, fun i j p _ hi hj => ?_, fun e v e' v' p h₁ h₂ _ _ => ?_,
    fun e v hc => ?_, fun e => ?_,
    fun e envid hbe => ?_⟩
  · obtain ⟨he, hv⟩ := hplain.single _ _ _ _ p (page_eq_some.mp hi) (page_eq_some.mp hj)
    exact .inl (Prod.ext he hv)
  · exact (hplain.single _ _ _ _ p h₁ h₂).2.symm
  · rw [show w.kern.upte e v = _ from rfl, hplain.flags e v] at hc
    cases hc
  · rw [hlib]
    exact libOk_start fun hpresent => (hplain.user e _ hpresent).2 rfl
  · rw [hlib] at hbe
    cases hbe

/-- The invariant of programs that fork holds in every state of a run. -/
theorem cow_of_reach (h₀ : Launched w₀) (h : Reach (World.step y) (fun _ _ => True) w₀ w) :
    Cow w.kern w.lib :=
  h.invariant (I := fun w => Cow w.kern w.lib) h₀.cow fun _ _ _ hI _ hs => hI.step hs

/-- **Copy on write**: in every state of a run, a page that a program can write is mapped at no
other place, but for the two moments in which the library shares one, and a child that is being
built does not run. -/
theorem writable_alone (h₀ : Launched w₀) (h : Reach (World.step y) (fun _ _ => True) w₀ w) :
    w.kern.sharing.Alone (Excused w.lib) ∧ ∀ e envid, (w.lib e).fork.builds = some envid →
    Building w.kern e envid :=
  ⟨(cow_of_reach h₀ h).alone, fun e envid hbe => ((cow_of_reach h₀ h).builds e envid hbe).1⟩

/-- A move, with what it does to the memories. -/
noncomputable def World.stepWith (y : Symbols) (x : World × (ℕ × ℕ → Option PageBytes)) (m : Move) :
    Option (World × (ℕ × ℕ → Option PageBytes)) :=
  (x.1.step y m).map fun w' => (w', (x.1.effect y m w').act x.2)

/-- Each page below the stack's end shows what its memory holds. -/
def Shows (s : KState) (M : ℕ × ℕ → Option PageBytes) : Prop :=
  ∀ i, UserPageNo i.2 → s.sharing.view i = M i

/-- **Each move** keeps it so. -/
theorem Shows.step (h : Shows w.kern M) (hcow : Cow w.kern w.lib) {m : Move}
    (hs : w.step y m = some w') :
    Shows w'.kern ((w.effect y m w').act M) := fun _ hi =>
  (hcow.step_views hs hi).trans (Effect.act_congr h (World.effect_copies hcow) hi)

/-- What a program loads is what its memory holds. -/
theorem Shows.load (h : Shows w.kern M) (hcow : Cow w.kern w.lib) {c : ℕ} {va : Word} {b : BitVec 8}
    (hcur : w.kern.curenv c = some e)
    (hv : UserPageNo (PGNUM va)) (hload : (w.kern.program c).load8 va = some b) :
    ∃ x, M (e, PGNUM va) = some x ∧ b = x ⟨va.toNat % 4096, Nat.mod_lt _ (by decide)⟩ := by
  have hva : va < UTOP := (PGNUM_lt_iff va).mp (lt_trans hv.1 (by decide))
  obtain ⟨hpresent, hb⟩ := load8_program hcow.kern.sound.loaded hcur hva hload
  have hview := h (e, PGNUM va) hv
  have hpage : w.kern.sharing.page (e, PGNUM va) = some (PGNUM (w.kern.upte e (PGNUM va))) :=
    page_eq_some.mpr ⟨hpresent, rfl⟩
  rw [Sharing.view, hpage] at hview
  exact ⟨_, hview.symm, hb⟩

/-- **Isolation of programs that fork**: in every state of a run, each page below the stack's end
shows what its memory holds, and this is what the program of the page's environment loads from
it. -/
theorem forks_isolated (h₀ : Launched w₀)
    (h : Reach (World.stepWith y) (fun _ _ => True) (w₀, w₀.kern.sharing.view) (w, M)) :
    Shows w.kern M ∧ ∀ c e va b, w.kern.curenv c = some e → UserPageNo (PGNUM va) →
      (w.kern.program c).load8 va = some b →
      ∃ x, M (e, PGNUM va) = some x ∧ b = x ⟨va.toNat % 4096, Nat.mod_lt _ (by decide)⟩ := by
  obtain ⟨hcow, hshows⟩ : Cow w.kern w.lib ∧ Shows w.kern M := by
    refine h.invariant (I := fun x => Cow x.1.kern x.1.lib ∧ Shows x.1.kern x.2)
      ⟨h₀.cow, fun _ _ => rfl⟩ fun x x' m hI _ hs => ?_
    obtain ⟨w', hstep, rfl⟩ := Option.map_eq_some_iff.mp hs
    exact ⟨hI.1.step hstep, hI.2.step hI.1 hstep⟩
  exact ⟨hshows, fun c e va b hcur hv hload => hshows.load hcow hcur hv hload⟩

/-- Every run has memories. -/
theorem exists_memories (h : ms.foldlM (World.step y) w = some w') (M : ℕ × ℕ → Option PageBytes) :
    ∃ M', Reach (World.stepWith y) (fun _ _ => True) (w, M) (w', M') := by
  induction ms generalizing w M with
  | nil =>
    cases h
    exact ⟨M, Reach.refl _⟩
  | cons m ms ih =>
    rw [List.foldlM_cons] at h
    obtain ⟨w₁, hm, h⟩ := Option.bind_eq_some_iff.mp h
    obtain ⟨M', hreach⟩ := ih h ((w.effect y m w₁).act M)
    exact ⟨M', (Reach.single (e := m) trivial (by rw [World.stepWith, hm]; rfl)).trans hreach⟩

/-! ### A page that is shared and copied -/

/-- A program in the page at `0x1000`. -/
def lowElf : Elf := ⟨ELF_MAGIC, 0x1000, [⟨ELF_PROG_LOAD, 0, 0x1ffc, 4, 4⟩], fun _ => 0x41⟩

/-- Its variables. -/
def lowSymbols : Symbols := ⟨0x1f00, 0x1100, 0x1200, 0x1f04⟩

/-- The world in which it has been loaded. -/
def lowWorld : World := ⟨(([.create 0 lowElf] : List Event).foldlM step (bootState 1)).getD
    (bootState 1), fun _ => .start⟩

theorem lowElf_user (va : Word) (h : lowElf.MapsAt va) : UserPageNo (PGNUM va) := by
  have hstack : PGNUM USTACKTOP = 0xeebfe := by decide
  have htemp : PGNUM PFTEMP = 0x7ff := by decide
  have hbound : ∀ {a : Word}, va < a → a.toNat % 4096 = 0 → PGNUM va < PGNUM a := by
    intro a hlt hround
    rw [PGNUM_eq, PGNUM_eq]
    have hlt : va.toNat < a.toNat := hlt
    omega
  rw [UserPageNo, hstack, htemp]
  rcases h with ⟨ph, hph, -, hle, hlt⟩ | ⟨hle, hlt⟩
  · rw [lowElf, List.mem_singleton] at hph
    subst hph
    have hlast : PGNUM va < PGNUM (ROUNDUP (0x1ffc#32 + 4#32) PGSIZE) := hbound hlt (by decide)
    have h₂ : PGNUM (ROUNDUP (0x1ffc#32 + 4#32) PGSIZE) = 2 := by decide
    omega
  · have hlast := hbound hlt (by decide)
    have h₁ : PGNUM (USTACKTOP - PGSIZE) = 0xeebfd := by decide
    have h₂ : PGNUM (ROUNDUP (USTACKTOP - PGSIZE + PGSIZE) PGSIZE) = 0xeebfe := by decide
    omega

theorem lowWorld_launched : Launched lowWorld := by
  refine ⟨bootState 1, bootState_booted 1, ?_, fun _ => rfl⟩
  have hsome : (step (bootState 1) (.create 0 lowElf)).isSome = true := by decide +kernel
  obtain ⟨s, hs⟩ := Option.isSome_iff_exists.mp hsome
  have hkern : lowWorld.kern = s := by
    rw [lowWorld, List.foldlM_cons, hs]
    rfl
  rw [hkern]
  exact Reach.single ⟨tame_of_check rfl, 0, lowElf, rfl, lowElf_user⟩ hs

/-- The program stores a byte and calls `fork`, which shares its page with a child. -/
def forkRun : List Move :=
  [.start 0, .store 0 0x1010 77, .fork 0, .go 0,
    .trap 0 (sysTrap 4 0 (UXSTACKTOP - PGSIZE) (PTE_U ||| PTE_W ||| PTE_P) 0 0),
    .trap 0 (sysTrap 9 0 0x1200 0 0 0), .go 0, .go 0, .go 0, .go 0, .trap 0 (sysTrap 7 0 0 0 0 0),
    .go 0, .go 0, .go 0,
    .trap 0 (sysTrap 5 0 0x1000 0x1001 0x1000 (PTE_COW ||| PTE_U ||| PTE_P)),
    .trap 0 (sysTrap 5 0 0x1000 0 0x1000 (PTE_COW ||| PTE_U ||| PTE_P))]

/-- The page is mapped in both environments, and the child is being built. -/
def sharesPage (w : World) : Bool :=
  decide (Names (w.kern.upte 0 1) 0x3ffe) && decide (Names (w.kern.upte 1 1) 0x3ffe) &&
    (w.lib 0).fork.builds == some 0x1001

theorem writable_alone_shared : ∃ w, forkRun.foldlM (World.step lowSymbols) lowWorld = some w ∧
    Names (w.kern.upte 0 1) 0x3ffe ∧
    Names (w.kern.upte 1 1) 0x3ffe ∧ w.kern.sharing.Alone (Excused w.lib) ∧
    Building w.kern 0 0x1001 := by
  have hcheck : (forkRun.foldlM (World.step lowSymbols) lowWorld).any sharesPage = true := by
    decide +kernel
  obtain ⟨w, hw, hshares⟩ := (Option.any_eq_true _ _).mp hcheck
  simp only [sharesPage, Bool.and_eq_true, decide_eq_true_eq, beq_iff_eq] at hshares
  obtain ⟨⟨hparent, hchild⟩, hbuilds⟩ := hshares
  obtain ⟨halone, hbuilding⟩ :=
    writable_alone lowWorld_launched (Reach.of_foldlM hw fun _ _ _ => trivial)
  exact ⟨w, hw, hparent, hchild, halone, hbuilding 0 0x1001 hbuilds⟩

/-- The fault of a store. -/
def storeFault : TrapIn where
  tf := { Trapframe.fresh with
    tfTrapno := T_PGFLT, tfErr := FEC_WR, tfEip := 0x1100, tfEsp := USTACKTOP }
  cr2 := 0x1010
  getc := 0

/-- It stores once more, and its handler gets a page for the copy. -/
def faultRun : List Move :=
  [.trap 0 storeFault, .go 0, .trap 0 (sysTrap 4 0 PFTEMP (PTE_W ||| PTE_U ||| PTE_P) 0 0)]

/-- The calls behind the copy. -/
def mapTrap : TrapIn := sysTrap 5 0 PFTEMP 0 0x1000 (PTE_W ||| PTE_U ||| PTE_P)

def pftempUnmapTrap : TrapIn := sysTrap 6 0 PFTEMP 0 0 0

/-- The handler copies the page, maps the copy, and the store is made. -/
def copyRun : List Move := List.replicate 4096 (.go 0) ++ [.trap 0 mapTrap, .trap 0 pftempUnmapTrap,
    .store 0 0x1010 88]

/-- The worlds behind the copy, behind `step_map` and behind `step_unmap`. -/
def lowCopied (w : World) : World :=
  ⟨w.kern.copied 0x3ffe 0x3ff7 4096, update w.lib 0 ⟨.scan 0x1001 0x2000, .map 0x1000⟩⟩

def lowMapped (w : World) : Option World :=
  (trapReturn (returned { trapEntry w.kern.reset 0 0 mapTrap with
    mem := pageInsertNew (w.kern.mem.dropEntry 0x1000 0x3ffd 0x3ffe) 0x3fff 0x3ff7 0x1000
      mapTrap.args.a5 ⟨0x3ffd, PTX 0x1000⟩ }
      0 0) 0).state?.map fun s => ⟨s, World.afterTrap lowSymbols w.lib 0 mapTrap s⟩

def lowUnmapped (w : World) : Option World :=
  (trapReturn (returned { trapEntry w.kern.reset 0 0 pftempUnmapTrap with
    mem := w.kern.mem.dropEntry PFTEMP 0x3ff6 0x3ff7 } 0 0) 0).state?.map
      fun s => ⟨s, World.afterTrap lowSymbols w.lib 0 pftempUnmapTrap s⟩

/-- What is to be known before the copy: the program can copy page `0x3ffe` to page `0x3ff7`. -/
def copyCheck (w : World) : Bool :=
  w.kern.curenv 0 == some 0 && w.lib 0 == ⟨.scan 0x1001 0x2000, .copy 0x1000 0⟩ &&
    translate w.kern.mem (w.kern.cpus 0).cr3 0x1000 == some 0x3ffe805 &&
      translate w.kern.mem (w.kern.cpus 0).cr3 PFTEMP == some 0x3ff7007 &&
        (w.kern.cpus 0).cr3 == 0x3fff &&
        PGNUM (w.kern.mem.phys (w.kern.cpus 0).cr3 (PDX 0x1000)) == 0x3ffd &&
          PGNUM (w.kern.mem.phys (w.kern.cpus 0).cr3 (PDX PFTEMP)) == 0x3ff6

/-- What is to be known before the first call: page `0x3ffe` is mapped elsewhere, too. -/
def remapCheck (w : World) : Bool :=
  decide (CallsFrom lowSymbols w 0 0 0x3fff mapTrap .pageMap) && decide
    (EntryAt w.kern.mem 0x3fff PFTEMP 0x3ff6 0x3ff7) &&
    decide (EntryAt w.kern.mem 0x3fff 0x1000 0x3ffd 0x3ffe) && w.kern.mem.ref 0x3ffe != 1

/-- What is to be known before the second one. -/
def tempUnmapCheck (w : World) : Bool :=
  decide (CallsFrom lowSymbols w 0 0 0x3fff pftempUnmapTrap .pageUnmap) &&
    decide (EntryAt w.kern.mem 0x3fff PFTEMP 0x3ff6 0x3ff7) && w.kern.mem.ref 0x3ff7 != 1

/-- In the end, the parent sees its second store and the child still the first one. -/
def splitCheck (w : World) : Bool :=
  w.lib 1 == .child && (w.kern.sharing.view (0, 1)).map (· 16) == some 88 &&
    (w.kern.sharing.view (1, 1)).map (· 16) == some 77

/-- The run, without the steps of the copy. -/
def cowCheck (w : World) : Bool :=
  copyCheck w && remapCheck (lowCopied w) && (lowMapped (lowCopied w)).any fun w₁ =>
    tempUnmapCheck w₁ && (lowUnmapped w₁).any fun w₂ =>
      (w₂.step lowSymbols (.store 0 0x1010 88)).any splitCheck

theorem copies_of_check (h : copyCheck w = true) : w.kern.curenv 0 = some 0 ∧
    w.lib 0 = ⟨.scan 0x1001 0x2000, .copy 0x1000 0⟩ ∧ Copies w.kern 0 0x1000 0x3ffe 0x3ff7 := by
  simp only [copyCheck, Bool.and_eq_true, beq_iff_eq] at h
  obtain ⟨⟨⟨⟨⟨⟨hcur, hlib⟩, hsrc⟩, hdst⟩, hdir⟩, htable⟩, htable'⟩ := h
  refine ⟨hcur, hlib, by simp [hcur], by decide, ⟨_, hsrc, by decide, by decide⟩, ⟨_,
    hdst, by decide, by decide, by decide⟩,
    by decide, by rw [hdir]; decide, by rw [htable]; decide, by rw [htable']; decide⟩

theorem lowMapped_step (h : remapCheck w = true) :
    w.step lowSymbols (.trap 0 mapTrap) = lowMapped w := by
  simp only [remapCheck, Bool.and_eq_true, decide_eq_true_eq, bne_iff_ne] at h
  obtain ⟨⟨⟨hcalls, hsrc⟩, hdst⟩, href⟩ := h
  exact step_map hcalls ⟨rfl, rfl, rfl, rfl⟩ hsrc hdst (by decide) (by decide) (by decide)
    (by decide) href

theorem lowUnmapped_step (h : tempUnmapCheck w = true) :
    w.step lowSymbols (.trap 0 pftempUnmapTrap) = lowUnmapped w := by
  simp only [tempUnmapCheck, Bool.and_eq_true, decide_eq_true_eq, bne_iff_ne] at h
  obtain ⟨⟨hcalls, hentry⟩, href⟩ := h
  exact step_unmap hcalls ⟨rfl, rfl⟩ hentry href

/-- The steps of the copy are put back. -/
theorem copyRun_of_check (h : cowCheck w = true) :
    ∃ w', copyRun.foldlM (World.step lowSymbols) w = some w' ∧ splitCheck w' = true := by
  simp only [cowCheck, Bool.and_eq_true, Option.any_eq_true] at h
  obtain ⟨⟨hcopy, hmap⟩, w₁, h₁, hunmap, w₂, h₂, w₃, h₃, hsplit⟩ := h
  obtain ⟨hcur, hlib, hcopies⟩ := copies_of_check hcopy
  have hmapped : (lowCopied w).step lowSymbols (.trap 0 mapTrap) = some w₁ :=
    (lowMapped_step hmap).trans h₁
  have hunmapped : w₁.step lowSymbols (.trap 0 pftempUnmapTrap) = some w₂ :=
    (lowUnmapped_step hunmap).trans h₂
  have hloop : (List.replicate 4096 (.go 0)).foldlM (World.step lowSymbols) w =
    some (lowCopied w) := copy_run hcopies hcur hlib
  refine ⟨w₃, ?_, hsplit⟩
  rw [copyRun, List.foldlM_append, hloop, Option.bind_eq_bind, Option.bind_some, List.foldlM_cons,
    hmapped, Option.bind_eq_bind,
    Option.bind_some, List.foldlM_cons, hunmapped, Option.bind_eq_bind, Option.bind_some,
    List.foldlM_cons, h₃]
  rfl

theorem cowRun_check : ((forkRun ++ faultRun).foldlM (World.step lowSymbols) lowWorld).any
    cowCheck = true := by decide +kernel

/-- The program shares its page with the child that it forks, copies it, and stores: it sees its
second store, the child the first one. -/
theorem cowRun_splits : ∃ w, (forkRun ++ faultRun ++ copyRun).foldlM
    (World.step lowSymbols) lowWorld = some w ∧
    splitCheck w = true := by
  obtain ⟨w, hw, hcheck⟩ := (Option.any_eq_true _ _).mp cowRun_check
  obtain ⟨w', hw', hsplit⟩ := copyRun_of_check hcheck
  refine ⟨w', ?_, hsplit⟩
  rw [List.foldlM_append, hw]
  exact hw'

theorem forks_isolated_cow : ∃ w M, Reach (World.stepWith lowSymbols) (fun _ _ => True)
      (lowWorld, lowWorld.kern.sharing.view) (w, M) ∧ w.lib 1 = .child ∧
    Shows w.kern M ∧ ∃ x x', M (0, 1) = some x ∧ M (1, 1) = some x' ∧ x 16 = 88 ∧ x' 16 = 77 := by
  obtain ⟨w, hrun, hsplit⟩ := cowRun_splits
  obtain ⟨M, hreach⟩ := exists_memories hrun lowWorld.kern.sharing.view
  obtain ⟨hshows, -⟩ := forks_isolated lowWorld_launched hreach
  simp only [splitCheck, Bool.and_eq_true, beq_iff_eq] at hsplit
  obtain ⟨⟨hchild, hparent⟩, hfirst⟩ := hsplit
  rw [hshows (0, 1) ⟨by decide, by decide⟩, Option.map_eq_some_iff] at hparent
  rw [hshows (1, 1) ⟨by decide, by decide⟩, Option.map_eq_some_iff] at hfirst
  obtain ⟨x, hx, hx16⟩ := hparent
  obtain ⟨x', hx', hx16'⟩ := hfirst
  exact ⟨w, M, hreach, hchild, hshows, x, x', hx, hx', hx16, hx16'⟩

end JOS
