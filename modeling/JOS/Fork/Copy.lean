import JOS.Fork.Uvpt
import JOS.Memory.PageInsert
import JOS.Memory.UserMem
import JOS.Sched.Step

/-!
# How a copy-on-write fault ends

`pgfault` copies the page byte by byte, through the page tables of its program: from where the fault
was to `PFTEMP`. The copy comes to its end, and what it leaves is known as a whole (`copy_run`): the
page at `PFTEMP` holds the bytes of the other one, and nothing else has changed. Then the copy is
mapped over the page that is shared (`step_map`), and no longer at `PFTEMP` (`step_unmap`).
-/

namespace JOS

open JOS.General

open Function (update)

variable {s t : KState} {y : Symbols} {w v : World} {pc : ForkPc} {m : Mem}
  {old new addr a va perm : Word} {c cur d e i k n p q : ℕ}

/-! ### Words and bytes -/

/-- The first `k` bytes of `new`, and the others of `old`. -/
def copyBytes (old new : Word) : ℕ → Word
  | 0 => old
  | k + 1 => setByte (copyBytes old new k) k (byteOf new k)

/-- A copy of page `p` to page `q` that has come to byte `n`. -/
def copiedPhys (phys : ℕ → ℕ → Word) (p q n : ℕ) : ℕ → ℕ → Word := fun r i =>
  if r = q then copyBytes (phys q i) (phys p i) (min (n - 4 * i) 4) else phys r i

/-- The state of the kernel then. -/
def KState.copied (s : KState) (p q n : ℕ) : KState :=
  { s.reset with mem := { s.mem with phys := copiedPhys s.mem.phys p q n } }

theorem copiedPhys_zero {phys : ℕ → ℕ → Word} : copiedPhys phys p q 0 = phys := by
  funext r i
  rw [copiedPhys]
  split_ifs with hr
  · rw [hr, Nat.zero_sub, Nat.zero_min, copyBytes]
  · rfl

theorem copiedPhys_of_ne {phys : ℕ → ℕ → Word} {r : ℕ} (h : r ≠ q) :
    copiedPhys phys p q n r = phys r := by
  funext i
  exact if_neg h

/-- The next byte. -/
theorem copiedPhys_succ {phys : ℕ → ℕ → Word} : setW (copiedPhys phys p q n) q (n / 4)
    (setByte (copiedPhys phys p q n q (n / 4)) (n % 4) (byteOf (phys p (n / 4)) (n % 4))) =
        copiedPhys phys p q (n + 1) := by
  funext r i
  by_cases hr : r = q
  · subst hr
    rw [copiedPhys, copiedPhys, if_pos rfl, if_pos rfl]
    by_cases hi : i = n / 4
    · subst hi
      have hdone : min (n - 4 * (n / 4)) 4 = n % 4 := by omega
      have hnext : min (n + 1 - 4 * (n / 4)) 4 = n % 4 + 1 := by omega
      rw [setW_self, hdone, hnext, copyBytes]
    · have hsame : min (n - 4 * i) 4 = min (n + 1 - 4 * i) 4 := by omega
      rw [setW_of_ne_index hi, copiedPhys, if_pos rfl, hsame]
  · rw [setW_of_ne hr, copiedPhys_of_ne hr, copiedPhys_of_ne hr]

/-! ### One byte -/

/-- The program on CPU `c` can copy the page at `addr`, which is page `p`, to `PFTEMP`, where it has
page `q`. -/
structure Copies (s : KState) (c : ℕ) (addr : Word) (p q : ℕ) : Prop where
  running : s.curenv c ≠ none
  aligned : addr.toNat % 4096 = 0
  source : ∃ pte, translate s.mem (s.cpus c).cr3 addr = some pte ∧ test pte PTE_U = true ∧
    PGNUM pte = p
  target : ∃ pte, translate s.mem (s.cpus c).cr3 PFTEMP = some pte ∧ test pte PTE_W = true ∧
    test pte PTE_U = true ∧ PGNUM pte = q
  ne : q ≠ p
  dir : q ≠ (s.cpus c).cr3
  tables : q ≠ PGNUM (s.mem.phys (s.cpus c).cr3 (PDX addr)) ∧
    q ≠ PGNUM (s.mem.phys (s.cpus c).cr3 (PDX PFTEMP))

theorem add_inPage (ha : a.toNat % 4096 = 0) (hn : n < 4096) :
    PGNUM (a + BitVec.ofNat 32 n) = PGNUM a ∧ (a + BitVec.ofNat 32 n).toNat % 4096 = n := by
  have hlt := a.isLt
  have hadd : (a + BitVec.ofNat 32 n).toNat = a.toNat + n := by
    rw [BitVec.toNat_add, BitVec.toNat_ofNat]
    omega
  rw [PGNUM_eq, PGNUM_eq, hadd]
  omega

/-- What has been copied changes no translation. -/
theorem copied_translate (hd : q ≠ d) (htable : q ≠ PGNUM (s.mem.phys d (PDX a)))
    (ha : a.toNat % 4096 = 0) (hk : k < 4096) :
    translate (s.copied p q n).mem d (a + BitVec.ofNat 32 k) = translate s.mem d a := by
  rw [translate_congr_page (add_inPage ha hk).1]
  show (if test (copiedPhys s.mem.phys p q n d (PDX a)) PTE_P then
    (if test (copiedPhys s.mem.phys p q n (PGNUM (copiedPhys s.mem.phys p q n d (PDX a)))
      (PTX a)) PTE_P then
      some (copiedPhys s.mem.phys p q n (PGNUM (copiedPhys s.mem.phys p q n d (PDX a))) (PTX a))
        else none) else none) = _
  rw [copiedPhys_of_ne (Ne.symm hd), copiedPhys_of_ne (Ne.symm htable)]
  rfl

theorem pftemp_aligned : PFTEMP.toNat % 4096 = 0 := by decide

/-- The byte that is read. -/
theorem copied_load8 (h : Copies s c addr p q) (ht : t.reset = s.copied p q n) (hn : n < 4096) :
    (t.program c).load8 (addr + BitVec.ofNat 32 n) =
        some (byteOf (s.mem.phys p (n / 4)) (n % 4)) := by
  obtain ⟨pte, hpte, hU, rfl⟩ := h.source
  rw [Running.load8_eq]
  show ((translate t.reset.mem (t.reset.cpus c).cr3 (addr + BitVec.ofNat 32 n)).bind fun pte =>
    if test pte PTE_U then some
      (t.reset.mem.byte (PGNUM pte) ((addr + BitVec.ofNat 32 n).toNat % 4096)) else none) = _
  rw [ht, show (s.copied (PGNUM pte) q n).cpus = s.cpus from rfl,
    copied_translate h.dir h.tables.1 h.aligned hn, hpte, Option.bind_some, if_pos hU,
    (add_inPage h.aligned hn).2]
  show some (byteOf (copiedPhys s.mem.phys (PGNUM pte) q n (PGNUM pte) (n / 4)) (n % 4)) = _
  rw [copiedPhys_of_ne (Ne.symm h.ne)]

/-- The byte that is written. -/
theorem copied_store (h : Copies s c addr p q) (ht : t.reset = s.copied p q n) (hn : n < 4096) :
    step t (.store c (PFTEMP + BitVec.ofNat 32 n) (byteOf (s.mem.phys p (n / 4)) (n % 4))) =
        some (s.copied p q (n + 1)) := by
  obtain ⟨pte, hpte, hW, hU, rfl⟩ := h.target
  obtain ⟨-, hplace⟩ := add_inPage pftemp_aligned hn
  have hlt : PFTEMP + BitVec.ofNat 32 n < UTOP := by
    have htemp : PFTEMP.toNat = 0x7ff000 := rfl
    have hutop : UTOP.toNat = 0xeec00000 := rfl
    rw [BitVec.lt_def, BitVec.toNat_add, BitVec.toNat_ofNat]
    omega
  have htr : translate (s.copied p (PGNUM pte) n).mem (s.cpus c).cr3
    (PFTEMP + BitVec.ofNat 32 n) = some pte :=
    (copied_translate h.dir h.tables.2 pftemp_aligned hn).trans hpte
  have hwhere : wordIndex (PFTEMP + BitVec.ofNat 32 n) = n / 4 ∧
      byteIndex (PFTEMP + BitVec.ofNat 32 n) = n % 4 := by
    rw [wordIndex, PGOFF_toNat, byteIndex, hplace]
    omega
  show userStore t.reset c _ _ = _
  rw [ht, userStore, if_pos ⟨h.running, hlt⟩,
    show ((s.copied p (PGNUM pte) n).cpus c).cr3 = (s.cpus c).cr3 from rfl, htr]
  dsimp only
  rw [hW, hU, Bool.and_self, if_pos rfl, Mem.storeAt, hwhere.1, hwhere.2]
  have hmem : (s.copied p (PGNUM pte) n).mem.setWord (PGNUM pte) (n / 4)
      (setByte ((s.copied p (PGNUM pte) n).mem.phys (PGNUM pte) (n / 4)) (n % 4)
        (byteOf (s.mem.phys p (n / 4)) (n % 4))) =
      (s.copied p (PGNUM pte) (n + 1)).mem :=
        congrArg (fun ph => { s.mem with phys := ph }) copiedPhys_succ
  rw [hmem]
  rfl

/-! ### The loop -/

/-- One byte is copied. -/
theorem go_copy (h : Copies w.kern c addr p q) (hcur : w.kern.curenv c = some e)
    (hv : v.kern.reset = w.kern.copied p q n)
    (hlib : v.lib e = ⟨pc, .copy addr n⟩) (hn : n < 4096) : v.step y (.go c) = some
      ⟨w.kern.copied p q (n + 1),
          update v.lib e ⟨pc, if n + 1 < 4096 then .copy addr (n + 1) else .map addr⟩⟩ := by
  have hcurv : v.kern.curenv c = some e := (congrArg (fun s => s.curenv c) hv).trans hcur
  have hsize : PGSIZE.toNat = 4096 := rfl
  simp only [World.step, hcurv, hlib, Lib.go, copied_load8 h hv hn, copied_store h hv hn, hsize,
    Option.bind_eq_bind, Option.bind_some]

/-- **The copy** comes to its end. -/
theorem copy_run (h : Copies w.kern c addr p q) (hcur : w.kern.curenv c = some e)
    (hlib : w.lib e = ⟨pc, .copy addr 0⟩) :
    (List.replicate 4096 (.go c)).foldlM (World.step y) w = some ⟨w.kern.copied p q 4096,
        update w.lib e ⟨pc, .map addr⟩⟩ := by
  have hrest : ∀ k n v, n + (k + 1) = 4096 → v.kern.reset = w.kern.copied p q n →
      v.lib e = ⟨pc, .copy addr n⟩ →
      (∀ l, update v.lib e l = update w.lib e l) →
      (List.replicate (k + 1) (.go c)).foldlM (World.step y) v = some ⟨w.kern.copied p q 4096,
        update w.lib e ⟨pc, .map addr⟩⟩ := by
    intro k
    induction k with
    | zero =>
      intro n v hn hv hl hsame
      rw [List.replicate_one, List.foldlM_cons, go_copy h hcur hv hl (by omega),
        if_neg (by omega), hsame, hn]
      rfl
    | succ k ih =>
      intro n v hn hv hl hsame
      rw [List.replicate_succ, List.foldlM_cons, go_copy h hcur hv hl (by omega), if_pos (by omega)]
      refine ih (n + 1) _ (by omega) rfl (Function.update_self ..) fun l => ?_
      rw [Function.update_idem, hsame]
  refine hrest 4095 0 w rfl ?_ hlib fun _ => rfl
  rw [KState.copied, copiedPhys_zero]
  rfl

/-! ### The calls behind it -/

/-- The entry for `va` is in table `i`, and maps page `p`. -/
structure EntryAt (m : Mem) (d : ℕ) (va : Word) (i p : ℕ) : Prop where
  table : Names (m.phys d (PDX va)) i
  table_lt : i < m.npages
  page : Names (m.phys i (PTX va)) p
  page_lt : p < m.npages

instance : Decidable (EntryAt m d va i p) :=
  decidable_of_iff (Names (m.phys d (PDX va)) i ∧ i < m.npages ∧ Names (m.phys i (PTX va)) p ∧
    p < m.npages)
    ⟨fun h => ⟨h.1, h.2.1, h.2.2.1, h.2.2.2⟩, fun h => ⟨h.table, h.table_lt, h.page, h.page_lt⟩⟩

/-- The entry is cleared, and the page has a reference less. -/
def Mem.dropEntry (m : Mem) (va : Word) (i p : ℕ) : Mem :=
  (m.setRef p (m.ref p - 1)).setWord i (PTX va) 0

/-- `page_remove` of a page that is mapped elsewhere, too. -/
theorem EntryAt.pageRemove (h : EntryAt m d va i p) (href : m.ref p ≠ 1) :
    pageRemove m d va = .ok (m.dropEntry va i p) := by
  have hleft : ((m.setRef p (m.ref p - 1)).pages p).ppRef ≠ 0 := by
    rw [show ((m.setRef p (m.ref p - 1)).pages p).ppRef = m.ref p - 1 from setRef_self m p _]
    bv_omega
  have hdecref : pageDecref m p = .ok (m.setRef p (m.ref p - 1)) := if_neg hleft
  rw [JOS.pageRemove, pageLookup_table h.table h.table_lt, h.page.2,
    if_neg (not_le.mpr h.page_lt), ok_bind]
  dsimp only
  rw [hdecref]
  rfl

/-- `page_insert` over such a page. -/
theorem EntryAt.pageInsert (h : EntryAt m d va i p) (href : m.ref p ≠ 1) (hne : p ≠ q)
    (hq : q < 2 ^ 20) :
    pageInsert m d q va perm =
        .ok (0, pageInsertNew (m.dropEntry va i p) d q va perm ⟨i, PTX va⟩) := by
  have hwalk : pgdirWalk m d va true = .ok (some ⟨i, PTX va⟩, m) := by
    rw [pgdirWalk, if_pos h.table.1, kaddr, PGNUM_PTE_ADDR, h.table.2,
      if_neg (not_le.mpr h.table_lt)]
    rfl
  have hother : PTE_ADDR (m.word ⟨i, PTX va⟩) ≠ page2pa q := by
    intro heq
    have hnum := congrArg PGNUM heq
    rw [PGNUM_PTE_ADDR, PGNUM_page2pa hq] at hnum
    exact hne (h.page.2.symm.trans hnum)
  have hpresent : test (m.word ⟨i, PTX va⟩) PTE_P = true := h.page.1
  refine pageInsert_of_walk hwalk ?_
  rw [pageInsertOld, if_pos hpresent, if_neg hother, h.pageRemove href]

/-- `sys_page_map` of a page of the caller over another one, which is mapped elsewhere, too. -/
theorem sysPageMap_over {src dst : Word} {j : ℕ} (hd : (s.envs cur).envPgdir = some d)
    (hsrc : EntryAt s.mem d src j q)
    (hdst : EntryAt s.mem d dst i p) (hva : vaOk src = true ∧ vaOk dst = true)
    (hperm : permOk perm = true) (hne : p ≠ q)
    (hq : q < 2 ^ 20) (href : s.mem.ref p ≠ 1) : sysPageMap s cur 0 src 0 dst perm =
      .ok (0, { s with
        mem := pageInsertNew (s.mem.dropEntry dst i p) d q dst perm ⟨i, PTX dst⟩ }) := by
  have hself : envid2env s cur 0 true = some cur := if_pos rfl
  have hargs : pageMapArgs s cur 0 src 0 dst perm = .ok (cur, cur) := by
    simp only [pageMapArgs, hself, hva.1, hva.2, hperm, Bool.not_true, Bool.false_eq_true, if_false]
  have hro : ¬ (s.mem.word ⟨j, PTX src⟩ &&& PTE_W = 0 ∧ perm &&& PTE_W = 1) := by
    rintro ⟨-, hw⟩
    have hbit := congrArg (fun w => w.getLsbD 0) hw
    simp [PTE_W] at hbit
  have hlook : pageLookup s.mem d src = .ok (some (q, ⟨j, PTX src⟩)) := by
    rw [pageLookup_table hsrc.table hsrc.table_lt, hsrc.page.2, if_neg (not_le.mpr hsrc.page_lt)]
  simp only [sysPageMap, hargs, hd, deref, ok_bind, hlook, hro, if_false,
    hdst.pageInsert href hne hq, ne_eq, not_true]
  rfl

/-- `sys_page_unmap` of such a page. -/
theorem sysPageUnmap_shared (hd : (s.envs cur).envPgdir = some d) (h : EntryAt s.mem d va i p)
    (hva : vaOk va = true)
    (href : s.mem.ref p ≠ 1) : sysPageUnmap s cur 0 va =
    .ok (0, { s with mem := s.mem.dropEntry va i p }) := by
  have hself : envid2env s cur 0 true = some cur := if_pos rfl
  simp only [sysPageUnmap, hself, hva, hd, deref, ok_bind, h.pageRemove href, Bool.not_true,
    Bool.false_eq_true, if_false]
  rfl

/-- A system call of the library. -/
theorem step_sysCall_library {t : TrapIn} {r : Word} {s₂ : KState} (hcur : w.kern.curenv c = some e)
    (hfits : trapFits w.kern c t = true) (htraps : (w.lib e).traps y t = true)
    (hst : w.kern.status e ≠ .dying)
    (hno : t.tf.tfTrapno = T_SYSCALL)
    (hcall : syscall (trapEntry w.kern.reset c e t) c e t.args = .ok (r, s₂)) :
    w.step y (.trap c t) = (trapReturn (returned s₂ e r) c).state?.map fun s =>
        ⟨s, World.afterTrap y w.lib e t s⟩ := by
  have hsys : SysCall w.kern (.trap c t) c e t.args (trapEntry w.kern.reset c e t) :=
    ⟨t, rfl, hcur, hst, hno, rfl, rfl⟩
  have htrap : trap w.kern.reset c t = trapReturn (returned s₂ e r) c := by
    rw [trap_sysCall hfits hsys, hcall]
  have hstep : JOS.step w.kern (.trap c t) = (trapReturn (returned s₂ e r) c).state? := by
    simp only [JOS.step]
    rw [if_pos (show trapFits w.kern.reset c t = true from hfits), htrap]
  simp only [World.step, hcur]
  rw [if_pos htraps, hstep]

/-- What the program and the kernel are to be like for such a call `t` of `e`, on CPU `c`. -/
structure CallsFrom (y : Symbols) (w : World) (c e d : ℕ) (t : TrapIn) (no : SysNo) : Prop where
  curenv : w.kern.curenv c = some e
  fits : trapFits w.kern c t = true
  traps : (w.lib e).traps y t = true
  status : w.kern.status e ≠ .dying
  trapno : t.tf.tfTrapno = T_SYSCALL
  no : SysNo.ofWord t.args.no = some no
  pgdir : (w.kern.envs e).envPgdir = some d

instance {t : TrapIn} {no : SysNo} : Decidable (CallsFrom y w c e d t no) :=
  decidable_of_iff (w.kern.curenv c = some e ∧ trapFits w.kern c t = true ∧
      (w.lib e).traps y t = true ∧
      w.kern.status e ≠ .dying ∧ t.tf.tfTrapno = T_SYSCALL ∧ SysNo.ofWord t.args.no = some no ∧
      (w.kern.envs e).envPgdir = some d)
    ⟨fun h => ⟨h.1, h.2.1, h.2.2.1, h.2.2.2.1, h.2.2.2.2.1, h.2.2.2.2.2.1, h.2.2.2.2.2.2⟩,
      fun h => ⟨h.curenv, h.fits, h.traps, h.status, h.trapno, h.no, h.pgdir⟩⟩

theorem trapEntry_pgdir (s : KState) (c e : ℕ) (t : TrapIn) :
    ((trapEntry s.reset c e t).envs e).envPgdir = (s.envs e).envPgdir :=
  (congrArg Env.envPgdir (trapEntry_envs s.reset c e t)).trans rfl

/-- **The copy is mapped** over the page that is shared. -/
theorem step_map {t : TrapIn} {dst : Word} {j : ℕ} (h : CallsFrom y w c e d t .pageMap)
    (hargs : t.args.a1 = 0 ∧ t.args.a2 = PFTEMP ∧ t.args.a3 = 0 ∧ t.args.a4 = dst)
    (hsrc : EntryAt w.kern.mem d PFTEMP j q)
    (hdst : EntryAt w.kern.mem d dst i p) (hva : vaOk dst = true) (hperm : permOk t.args.a5 = true)
    (hne : p ≠ q)
    (hq : q < 2 ^ 20) (href : w.kern.mem.ref p ≠ 1) :
    w.step y (.trap c t) = (trapReturn (returned { trapEntry w.kern.reset c e t with
      mem := pageInsertNew (w.kern.mem.dropEntry dst i p) d q dst t.args.a5 ⟨i, PTX dst⟩ } e 0)
        c).state?.map
        fun s => ⟨s, World.afterTrap y w.lib e t s⟩ := by
  obtain ⟨ha₁, ha₂, ha₃, rfl⟩ := hargs
  have hpgdir := (trapEntry_pgdir w.kern c e t).trans h.pgdir
  have hcall := sysPageMap_over (s := trapEntry w.kern.reset c e t) hpgdir hsrc hdst
    ⟨by decide, hva⟩ hperm hne hq href
  refine step_sysCall_library h.curenv h.fits h.traps h.status h.trapno ?_
  rw [syscall, h.no]
  dsimp only
  rw [ha₁, ha₂, ha₃, hcall]
  rfl

/-- **It is no longer mapped** at `PFTEMP`. -/
theorem step_unmap {t : TrapIn} (h : CallsFrom y w c e d t .pageUnmap)
    (hargs : t.args.a1 = 0 ∧ t.args.a2 = PFTEMP)
    (hentry : EntryAt w.kern.mem d PFTEMP i p) (href : w.kern.mem.ref p ≠ 1) :
    w.step y (.trap c t) = (trapReturn (returned { trapEntry w.kern.reset c e t with
      mem := w.kern.mem.dropEntry PFTEMP i p } e 0) c).state?.map fun s =>
          ⟨s, World.afterTrap y w.lib e t s⟩ := by
  have hpgdir := (trapEntry_pgdir w.kern c e t).trans h.pgdir
  have hcall := sysPageUnmap_shared (s := trapEntry w.kern.reset c e t) hpgdir hentry
    (by decide) href
  refine step_sysCall_library h.curenv h.fits h.traps h.status h.trapno ?_
  rw [syscall, h.no]
  dsimp only
  rw [hargs.1, hargs.2, hcall]
  rfl

end JOS
