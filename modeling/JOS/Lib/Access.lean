import JOS.Lib.Upcall
import JOS.Memory.Bytes

/-!
# Loads and stores of a program

What a program reads after it has stored a word: the word, where it stored it, and elsewhere what it
read before, unless the two addresses are mapped to the same byte of memory.
-/

namespace JOS

open JOS.General

namespace Running

variable {x y : Running} {P : ℕ → Prop} {f : ℕ → BitVec 8} {m m' : Mem} {a b va w : Word} {n k : ℕ}

/-- The same program, with another memory. -/
def withMem (x : Running) (m : Mem) : Running := { x with kern := { x.kern with mem := m } }

@[simp] theorem withMem_mem (x : Running) (m : Mem) : (x.withMem m).mem = m := rfl

@[simp] theorem withMem_dir (x : Running) (m : Mem) : (x.withMem m).dir = x.dir := rfl

@[simp] theorem withMem_regs (x : Running) (m : Mem) : (x.withMem m).regs = x.regs := rfl

@[simp] theorem withMem_withMem (x : Running) (m m' : Mem) :
    (x.withMem m).withMem m' = x.withMem m' := rfl

@[simp] theorem withRegs_mem (x : Running) (r : UserRegs) : (x.withRegs r).mem = x.mem := rfl

@[simp] theorem withRegs_dir (x : Running) (r : UserRegs) : (x.withRegs r).dir = x.dir := rfl

@[simp] theorem withRegs_regs (x : Running) (r : UserRegs) : (x.withRegs r).regs = r := rfl

@[simp] theorem withRegs_withRegs (x : Running) (r r' : UserRegs) :
    (x.withRegs r).withRegs r' = x.withRegs r' := rfl

@[simp] theorem withRegs_load (x : Running) (r : UserRegs) (a : Word) :
    (x.withRegs r).load a = x.load a := rfl

theorem withRegs_store (x : Running) (r : UserRegs) (a w : Word) :
    (x.withRegs r).store a w = (x.store a w).map fun y => y.withRegs r := by
  have hfold : ∀ (l : List ℕ) (y : Running),
      l.foldlM (fun (x : Running) k => x.store8 (a + BitVec.ofNat 32 k) (byteOf w k))
      (y.withRegs r) =
      (l.foldlM (fun (x : Running) k => x.store8 (a + BitVec.ofNat 32 k) (byteOf w k)) y).map
          fun y => y.withRegs r := by
    intro l
    induction l with
    | nil => exact fun y => rfl
    | cons k l ih =>
      intro y
      have hone : (y.withRegs r).store8 (a + BitVec.ofNat 32 k) (byteOf w k) =
          (y.store8 (a + BitVec.ofNat 32 k) (byteOf w k)).map fun y => y.withRegs r := by
        simp only [store8, Option.map_map]
        rfl
      simp only [List.foldlM_cons, hone, Option.bind_eq_bind]
      cases y.store8 (a + BitVec.ofNat 32 k) (byteOf w k) with
      | none => rfl
      | some z => exact ih z
  exact hfold (List.range 4) x

/-- The program can write the byte at `a`. -/
def CanWrite (x : Running) (a : Word) : Prop :=
  a < UTOP ∧ ∃ pte, translate x.mem x.dir a = some pte ∧ test pte PTE_W = true ∧
    test pte PTE_U = true

/-- The program reads the word `w` at `a`. -/
def Holds (x : Running) (a w : Word) : Prop :=
  ∀ k < 4, x.load8 (a + BitVec.ofNat 32 k) = some (byteOf w k)

/-- The two addresses are not mapped to one byte. -/
def Apart (x : Running) (a b : Word) : Prop := ∀ p o, Slot x.mem x.dir a p o →
    ¬ Slot x.mem x.dir b p o

/-! ### Words and their bytes -/

theorem append_byteOf (w : Word) : byteOf w 3 ++ byteOf w 2 ++ byteOf w 1 ++ byteOf w 0 = w := by
  unfold byteOf
  refine BitVec.eq_of_getLsbD_eq fun i hi => ?_
  simp only [BitVec.getLsbD_append, BitVec.getLsbD_setWidth, BitVec.getLsbD_ushiftRight]
  rcases (by omega : i < 8 ∨ (8 ≤ i ∧ i < 16) ∨ (16 ≤ i ∧ i < 24) ∨ 24 ≤ i) with h | ⟨h1, h2⟩ |
    ⟨h1, h2⟩ | h
  · simp [h]
  · simp [show ¬ i < 8 by omega, show i - 8 < 8 by omega, show 8 + (i - 8) = i by omega]
  · simp [show ¬ i < 8 by omega, show ¬ i - 8 < 8 by omega, show i - 8 - 8 < 8 by omega,
      show 16 + (i - 8 - 8) = i by omega]
  · simp [show ¬ i < 8 by omega, show ¬ i - 8 < 8 by omega, show ¬ i - 8 - 8 < 8 by omega,
      show i - 8 - 8 - 8 < 8 by omega, show 24 + (i - 8 - 8 - 8) = i by omega]

theorem byteOf_append (b₀ b₁ b₂ b₃ : BitVec 8) :
    byteOf (b₃ ++ b₂ ++ b₁ ++ b₀) 0 = b₀ ∧ byteOf (b₃ ++ b₂ ++ b₁ ++ b₀) 1 = b₁ ∧
      byteOf (b₃ ++ b₂ ++ b₁ ++ b₀) 2 = b₂ ∧ byteOf (b₃ ++ b₂ ++ b₁ ++ b₀) 3 = b₃ := by
  unfold byteOf
  refine ⟨?_, ?_, ?_, ?_⟩ <;> refine BitVec.eq_of_getLsbD_eq fun i hi => ?_ <;>
    simp only [BitVec.getLsbD_append, BitVec.getLsbD_setWidth, BitVec.getLsbD_ushiftRight]
  · simp [hi]
  · simp [hi, show ¬ 8 + i < 8 by omega]
  · simp [hi, show ¬ 16 + i <
      8 by omega, show ¬ 16 + i - 8 < 8 by omega, show 16 + i - 8 - 8 = i by omega]
  · simp [hi, show ¬ 24 + i <
      8 by omega, show ¬ 24 + i - 8 < 8 by omega, show ¬ 24 + i - 8 - 8 < 8 by omega,
      show 24 + i - 8 - 8 - 8 = i by omega]

/-- A word is loaded byte by byte. -/
theorem load_eq_some : x.load a = some w ↔ x.Holds a w := by
  simp only [load, Option.bind_eq_bind, Option.bind_eq_some_iff, Option.pure_def, Option.some.injEq]
  constructor
  · rintro ⟨b₀, h₀, b₁, h₁, b₂, h₂, b₃, h₃, rfl⟩
    obtain ⟨e₀, e₁, e₂, e₃⟩ := byteOf_append b₀ b₁ b₂ b₃
    intro k hk
    match k, hk with
    | 0, _ => rw [e₀, ← h₀, show a + BitVec.ofNat 32 0 = a from BitVec.add_zero a]
    | 1, _ => rw [e₁, ← h₁]; rfl
    | 2, _ => rw [e₂, ← h₂]; rfl
    | 3, _ => rw [e₃, ← h₃]; rfl
  · intro h
    refine ⟨_, ?_, _, h 1 (by decide), _, h 2 (by decide), _, h 3 (by decide), append_byteOf w⟩
    rw [← h 0 (by decide), show a + BitVec.ofNat 32 0 = a from BitVec.add_zero a]

/-! ### Stores -/

theorem store8_of_canWrite (hcur : x.kern.curenv x.cpu ≠ none) (hw : x.CanWrite a) (b : BitVec 8) :
    ∃ pte, translate x.mem x.dir a = some pte ∧ test pte PTE_W = true ∧
      x.store8 a b = some (x.withMem (x.mem.storeAt pte a b)) := by
  obtain ⟨ha, pte, ht, hW, hU⟩ := hw
  refine ⟨pte, ht, hW, ?_⟩
  have ht : translate x.kern.mem (x.kern.cpus x.cpu).cr3 a = some pte := ht
  simp only [store8, userStore, if_pos (And.intro hcur ha), ht, hW, hU, Bool.and_self, if_true]
  rfl

theorem store8_of_not_canWrite (hw : ¬ x.CanWrite a) (b : BitVec 8) : x.store8 a b = none := by
  rw [store8, Option.map_eq_none_iff, userStore]
  split_ifs with hcur
  · split
    · rename_i pte ht
      rw [ite_eq_right_iff]
      intro hWU
      rw [Bool.and_eq_true] at hWU
      exact absurd ⟨hcur.2, pte, ht, hWU⟩ hw
    · rfl
  · rfl

/-- The bytes `f` from `a` on are stored when the program can write all of them. -/
theorem stores_spec (hP : DataPages x.mem x.dir P) (hcur : x.kern.curenv x.cpu ≠ none) (n : ℕ) :
    ((∀ k < n, x.CanWrite (a + BitVec.ofNat 32 k)) →
      ∃ m, (List.range n).foldlM (fun x k => x.store8 (a + BitVec.ofNat 32 k) (f k)) x =
        some (x.withMem m) ∧
        Copied x.mem x.dir P a f n m) ∧
      ((¬ ∀ k < n, x.CanWrite (a + BitVec.ofNat 32 k)) →
        (List.range n).foldlM (fun x k => x.store8 (a + BitVec.ofNat 32 k) (f k)) x = none) := by
  induction n with
  | zero => exact ⟨fun _ => ⟨x.mem, rfl, .zero _ _ _ _ _⟩, fun h =>
    absurd (fun k hk => absurd hk (Nat.not_lt_zero k)) h⟩
  | succ n ih =>
    rw [List.range_succ, List.foldlM_append]
    by_cases hall : ∀ k < n, x.CanWrite (a + BitVec.ofNat 32 k)
    · obtain ⟨m, hm, hcopy⟩ := ih.1 hall
      simp only [hm, Option.bind_eq_bind, Option.bind_some, List.foldlM_cons, List.foldlM_nil]
      have htrans : ∀ {b}, b < UTOP → translate m x.dir b = translate x.mem x.dir b :=
        hP.translate_congr hcopy.words
      have hsame : (x.withMem m).CanWrite (a + BitVec.ofNat 32 n) ↔
        x.CanWrite (a + BitVec.ofNat 32 n) :=
        and_congr_right fun ha => by rw [withMem_mem, withMem_dir, htrans ha]
      refine ⟨fun h => ?_, fun h => ?_⟩
      · have hlast := h n (Nat.lt_succ_self n)
        obtain ⟨pte, ht, hW, hstore⟩ :=
          store8_of_canWrite (x := x.withMem m) hcur (hsame.mpr hlast) (f n)
        rw [hstore]
        have ht : translate m x.dir (a + BitVec.ofNat 32 n) = some pte := ht
        obtain ⟨m', hm', hcopy'⟩ := hcopy.succ hP hlast.1 ⟨pte, by rw [← htrans hlast.1, ht], hW⟩
        have hbyte := ((hP.congr hcopy.words).storeByte (b := f n) hlast.1 ht hW).1
        rw [hbyte] at hm'
        cases hm'
        exact ⟨_, rfl, hcopy'⟩
      · have hlast : ¬ x.CanWrite (a + BitVec.ofNat 32 n) := by
          refine fun hlast => h fun k hk => ?_
          rcases Nat.lt_succ_iff_lt_or_eq.mp hk with hlt | rfl
          · exact hall k hlt
          · exact hlast
        rw [store8_of_not_canWrite (mt hsame.mp hlast)]
        rfl
    · refine ⟨fun h => absurd (fun k hk => h k (Nat.lt_succ_of_lt hk)) hall, fun _ => ?_⟩
      rw [ih.2 hall]
      rfl

theorem store_ok (hP : DataPages x.mem x.dir P) (hcur : x.kern.curenv x.cpu ≠ none)
    (hw : ∀ k < 4, x.CanWrite (a + BitVec.ofNat 32 k)) :
    ∃ m, x.store a w = some (x.withMem m) ∧ Copied x.mem x.dir P a (byteOf w) 4 m :=
  (stores_spec hP hcur 4).1 hw

theorem store_eq_some (hP : DataPages x.mem x.dir P) (hcur : x.kern.curenv x.cpu ≠ none)
    (h : x.store a w = some y) :
    (∀ k < 4, x.CanWrite (a + BitVec.ofNat 32 k)) ∧
      ∃ m, y = x.withMem m ∧ Copied x.mem x.dir P a (byteOf w) 4 m := by
  by_cases hw : ∀ k < 4, x.CanWrite (a + BitVec.ofNat 32 k)
  · obtain ⟨m, hm, hcopy⟩ := store_ok (w := w) hP hcur hw
    rw [h] at hm
    exact ⟨hw, m, Option.some.inj hm, hcopy⟩
  · have hnone : x.store a w = none := (stores_spec hP hcur 4).2 hw
    rw [h] at hnone
    cases hnone

/-! ### Loads after stores -/

theorem load8_eq (x : Running) (a : Word) : x.load8 a = (translate x.mem x.dir a).bind fun pte =>
    if test pte PTE_U then some (x.mem.byte (PGNUM pte) (a.toNat % 4096)) else none := by
  rw [load8, loadByte_eq]
  cases translate x.mem x.dir a <;> rfl

/-- Between `x` and `y`, only data has been written, at the addresses `A`. -/
structure Stores (P : ℕ → Prop) (x y : Running) (A : Word → Prop) : Prop where
  dir : y.dir = x.dir
  words : ∀ q, ¬ P q → y.mem.phys q = x.mem.phys q
  others : ∀ p o, (∀ a, A a → ¬ Slot x.mem x.dir a p o) → y.mem.byte p o = x.mem.byte p o

namespace Stores

variable {z : Running} {A B : Word → Prop}

theorem of_copied (hc : Copied x.mem x.dir P va f n m) (hm : y.mem = m) (hd : y.dir = x.dir) :
    Stores P x y fun a => ∃ k < n, a = va + BitVec.ofNat 32 k := by
  subst hm
  exact ⟨hd, hc.words, fun p o h => hc.others p o fun k hk => h _ ⟨k, hk, rfl⟩⟩

theorem mono (h : Stores P x y A) (hAB : ∀ a, A a → B a) : Stores P x y B :=
  ⟨h.dir, h.words, fun p o hno => h.others p o fun a ha => hno a (hAB a ha)⟩

variable (hP : DataPages x.mem x.dir P)

include hP

theorem dataPages (h : Stores P x y A) : DataPages y.mem y.dir P := by
  rw [h.dir]
  exact hP.congr h.words

theorem translate (h : Stores P x y A) (ha : a < UTOP) :
    translate y.mem y.dir a = JOS.translate x.mem x.dir a := by
  rw [h.dir]
  exact hP.translate_congr h.words ha

theorem trans (h : Stores P x y A) (h' : Stores P y z A) (hA : ∀ a, A a → a < UTOP) :
    Stores P x z A := by
  refine ⟨h'.dir.trans h.dir, fun q hq => (h'.words q hq).trans (h.words q hq), fun p o hno => ?_⟩
  have hno' : ∀ a, A a → ¬ Slot y.mem y.dir a p o := by
    rintro a ha ⟨pte, ht, hslot⟩
    rw [h.translate hP (hA a ha)] at ht
    exact hno a ha ⟨pte, ht, hslot⟩
  rw [h'.others p o hno', h.others p o hno]

theorem canWrite (h : Stores P x y A) : y.CanWrite a ↔ x.CanWrite a :=
  and_congr_right fun ha => by rw [h.translate hP ha]

theorem apart (h : Stores P x y A) (ha : a < UTOP) (hb : b < UTOP) (hab : x.Apart a b) :
    y.Apart a b := by
  rintro p o ⟨pte, ht, hs⟩ ⟨pte', ht', hs'⟩
  rw [h.translate hP ha] at ht
  rw [h.translate hP hb] at ht'
  exact hab p o ⟨pte, ht, hs⟩ ⟨pte', ht', hs'⟩

/-- Bytes that are stored elsewhere are not read. -/
theorem load8 (h : Stores P x y A) (ha : a < UTOP) (hno : ∀ b, A b → x.Apart b a) :
    y.load8 a = x.load8 a := by
  rw [load8_eq, load8_eq, h.translate hP ha]
  cases ht : JOS.translate x.mem x.dir a with
  | none => rfl
  | some pte =>
    have hbyte : y.mem.byte (PGNUM pte) (a.toNat % 4096) = x.mem.byte (PGNUM pte)
      (a.toNat % 4096) :=
      h.others _ _ fun b hb hs => hno b hb _ _ hs ⟨pte, ht, rfl, rfl⟩
    simp only [Option.bind_some, hbyte]

end Stores

/-- Different offsets in a page are different bytes. -/
theorem apart_of_offset (x : Running) (h : a.toNat % 4096 ≠ b.toNat % 4096) : x.Apart a b := by
  rintro p o ⟨-, -, -, ho⟩ ⟨-, -, -, ho'⟩
  exact h (ho.symm.trans ho')

/-- What was stored is read. -/
theorem load8_copied (hP : DataPages x.mem x.dir P) (hc : Copied x.mem x.dir P va f n m)
    (hm : y.mem = m) (hd : y.dir = x.dir)
    (hn : n ≤ 4096) (hw : ∀ k < n, x.CanWrite (va + BitVec.ofNat 32 k)) (hk : k < n) :
    y.load8 (va + BitVec.ofNat 32 k) = some (f k) := by
  obtain ⟨ha, pte, ht, -, hU⟩ := hw k hk
  have hbyte : y.mem.byte (PGNUM pte) ((va + BitVec.ofNat 32 k).toNat % 4096) = f k := by
    rw [hm]
    refine hc.bytes (fun i hi j hj p o hs hs' => ?_) k hk _ _ ⟨pte, ht, rfl, rfl⟩
    by_contra hij
    refine apart_of_offset x (a := va + BitVec.ofNat 32 i)
      (b := va + BitVec.ofNat 32 j) ?_ p o hs hs'
    rw [BitVec.toNat_add, BitVec.toNat_add, BitVec.toNat_ofNat, BitVec.toNat_ofNat]
    omega
  rw [load8_eq, (Stores.of_copied hc hm hd).translate hP ha, ht]
  simp only [Option.bind_some, hU, if_true, hbyte]

end Running

end JOS
