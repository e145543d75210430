import JOS.Lib.Access
import JOS.Spaces.FaultFrame

/-!
# The exception stack

What a program can make of its flags, and the page on which its faults are handled: `StackOk` is a
program that has one, and `Fits` a frame for which there is room.
-/

namespace JOS

open JOS.General Running

variable {x : Running} {P : ℕ → Prop} {f : ℕ → BitVec 8} {m : Mem} {a b old new : Word}
  {cur n k j : ℕ}

/-! ### Flags -/

/-- A program can make `new` of the flags `old`. -/
def FlagsFrom (old new : Word) : Prop := userFlags old new = new

/-- The flags of `f` come from `o`. -/
theorem masked_eq_iff (n o f : Word) : (n &&& ~~~f) ||| (o &&& f) = n ↔ n &&& f = o &&& f := by
  constructor
  · intro h
    rw [← h]
    exact and_of_fixed n o (BitVec.and_self)
  · intro h
    rw [← h]
    refine BitVec.eq_of_getLsbD_eq fun i hi => ?_
    simp only [BitVec.getLsbD_and, BitVec.getLsbD_or, BitVec.getLsbD_not, hi, decide_true,
      Bool.true_and]
    cases n.getLsbD i <;> cases f.getLsbD i <;> rfl

theorem flagsFrom_iff : FlagsFrom old new ↔ new &&& FL_IOPL_MASK = old &&& FL_IOPL_MASK ∧
    (old &&& FL_IOPL_MASK ≠ FL_IOPL_MASK → new &&& FL_IF = old &&& FL_IF) := by
  rw [FlagsFrom, userFlags]
  split_ifs with h
  · rw [masked_eq_iff]
    exact ⟨fun h' => ⟨h', fun hne => absurd h hne⟩, fun h' => h'.1⟩
  · rw [masked_eq_iff]
    simp only [ne_eq, h, not_false_eq_true, true_imp_iff]
    constructor
    · intro h'
      have hsub : ∀ m : Word, (FL_IOPL_MASK ||| FL_IF) &&& m = m → new &&& m = old &&& m := by
        intro m hm
        rw [← hm, ← BitVec.and_assoc, ← BitVec.and_assoc, h']
      exact ⟨hsub _ (by decide), hsub _ (by decide)⟩
    · rintro ⟨h₁, h₂⟩
      rw [BitVec.and_or_distrib_left, BitVec.and_or_distrib_left, h₁, h₂]

theorem FlagsFrom.refl (w : Word) : FlagsFrom w w := flagsFrom_iff.mpr ⟨rfl, fun _ => rfl⟩

theorem FlagsFrom.trans {w' : Word} (h : FlagsFrom old new) (h' : FlagsFrom new w') :
    FlagsFrom old w' := by
  rw [flagsFrom_iff] at h h' ⊢
  rw [h.1] at h'
  exact ⟨h'.1, fun hne => (h'.2 hne).trans (h.2 hne)⟩

theorem FlagsFrom.symm (h : FlagsFrom old new) : FlagsFrom new old := by
  rw [flagsFrom_iff] at h ⊢
  exact ⟨h.1.symm, fun hne => (h.2 (by rwa [← h.1])).symm⟩

/-- Arithmetic sets status flags only. -/
theorem flagsFrom_arith (old a b r : Word) (carry overflow : Bool) :
    FlagsFrom old (arithFlags old a b r carry overflow) := by
  have hkeep : ∀ z m : Word, FL_STATUS &&& m = 0 →
      ((old &&& ~~~FL_STATUS) ||| (z &&& FL_STATUS)) &&& m = old &&& m := by
    intro z m hm
    refine BitVec.eq_of_getLsbD_eq fun i hi => ?_
    have hm' := congrArg (fun w : Word => w.getLsbD i) hm
    simp only [BitVec.getLsbD_and] at hm'
    simp only [BitVec.getLsbD_and, BitVec.getLsbD_or, BitVec.getLsbD_not, hi, decide_true,
      Bool.true_and]
    revert hm'
    cases m.getLsbD i <;> cases FL_STATUS.getLsbD i <;> cases z.getLsbD i <;> simp
  exact flagsFrom_iff.mpr ⟨hkeep _ _ (by decide), fun _ => hkeep _ _ (by decide)⟩

/-! ### The exception stack -/

/-- The address is on the exception stack. -/
def OnStack (a : Word) : Prop := PGNUM a = PGNUM (UXSTACKTOP - PGSIZE)

instance (a : Word) : Decidable (OnStack a) := inferInstanceAs (Decidable (_ = _))

theorem onStack_iff : OnStack a ↔ 0xeebff000 ≤ a.toNat ∧ a.toNat < 0xeec00000 := by
  rw [OnStack, PGNUM_eq, PGNUM_eq, uxstack_toNat.1]
  omega

/-- The environment `cur` runs. Its tables cannot be written by the program, and it has an exception
stack. -/
structure StackOk (cur : ℕ) (x : Running) : Prop where
  curenv : x.kern.curenv x.cpu = some cur
  dirs : x.kern.dirs cur = some x.dir
  tables : ∃ P, DataPages x.mem x.dir P
  stack : x.CanWrite (UXSTACKTOP - PGSIZE)

theorem StackOk.running (h : StackOk cur x) : x.kern.curenv x.cpu ≠ none := by
  rw [h.curenv]
  exact Option.some_ne_none cur

theorem StackOk.canWrite (h : StackOk cur x) (ha : OnStack a) : x.CanWrite a := by
  obtain ⟨-, pte, ht, hperm⟩ := h.stack
  refine ⟨?_, pte, by rw [translate_congr_page ha, ht], hperm⟩
  rw [BitVec.lt_def, UTOP_toNat]
  exact (onStack_iff.mp ha).2

theorem OnStack.lt (ha : OnStack a) : a < UTOP := by
  rw [BitVec.lt_def, UTOP_toNat]
  exact (onStack_iff.mp ha).2

/-- Two addresses on the exception stack are not one byte. -/
theorem OnStack.apart (x : Running) (ha : OnStack a) (hb : OnStack b) (hab : a ≠ b) :
    x.Apart a b := by
  refine apart_of_offset x fun hoff => hab (BitVec.eq_of_toNat_eq ?_)
  rw [onStack_iff] at ha hb
  omega

theorem StackOk.stores {y : Running} {A : Word → Prop} (h : StackOk cur x)
    (hP : DataPages x.mem x.dir P) (hw : Stores P x y A)
    (hcur : y.kern.curenv y.cpu = some cur) (hdirs : y.kern.dirs cur = some x.dir) :
    StackOk cur y :=
  ⟨hcur, by rw [hdirs, hw.dir], ⟨P, hw.dataPages hP⟩, (hw.canWrite hP).mpr h.stack⟩

/-! ### Frames -/

/-- The frame at `utf`, and the two words below it, are on the exception stack. -/
def Fits (utf : Word) : Prop := 0xeebff008 ≤ utf.toNat ∧ utf.toNat + 52 ≤ 0xeec00000

namespace Fits

variable {utf : Word}

theorem add (h : Fits utf) (hk : k < 56) : (utf + BitVec.ofNat 32 k).toNat = utf.toNat + k := by
  unfold Fits at h
  rw [BitVec.toNat_add, BitVec.toNat_ofNat]
  omega

theorem onStack (h : Fits utf) (hk : k < 52) : OnStack (utf + BitVec.ofNat 32 k) := by
  rw [onStack_iff, h.add (by omega)]
  unfold Fits at h
  omega

theorem ne (h : Fits utf) (hj : j < 56) (hk : k < 56) (hjk : j ≠ k) :
    utf + BitVec.ofNat 32 j ≠ utf + BitVec.ofNat 32 k := by
  intro heq
  have heq := congrArg BitVec.toNat heq
  rw [h.add hj, h.add hk] at heq
  omega

end Fits

/-- The program reads the bytes `f` from `a` on. -/
def Running.Shows (x : Running) (a : Word) (f : ℕ → BitVec 8) (n : ℕ) : Prop :=
  ∀ k < n, x.load8 (a + BitVec.ofNat 32 k) = some (f k)

/-- A word of a frame. -/
theorem Running.Shows.word {ws : List Word} {i : ℕ} (h : x.Shows a (wordsByte ws) (4 * n))
    (hi : i < n) :
    x.load (a + BitVec.ofNat 32 (4 * i)) = some (ws.getD i 0) := by
  refine load_eq_some.mpr fun k hk => ?_
  rw [BitVec.add_assoc, ← BitVec.ofNat_add, h (4 * i + k) (by omega), wordsByte,
    show (4 * i + k) / 4 = i by omega,
    show (4 * i + k) % 4 = k by omega]

end JOS
