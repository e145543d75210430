import JOS.Lib.Stack

/-!
# What the upcall does

The instructions in front of the C handler push two words below the frame (`execAll_upcallHead`).
Those behind it give the program the registers that its frame holds (`execAll_upcallTail`). They
store twice on the way: the trap-time stack pointer in the frame is moved down by a word, and the
trap-time `eip` goes to that word.
-/

namespace JOS

open JOS.General Running

variable {x y : Running} {P : ℕ → Prop} {tf : Trapframe} {addrs : UpcallAddrs}
  {a va utf esp w : Word} {cur : ℕ}

/-! ### Addresses -/

/-- The two words that the upcall pushes. -/
def Pushed (utf a : Word) : Prop := ∃ k < 8, a = utf - 8#32 + BitVec.ofNat 32 k

/-- The word that the frame at `utf` has for the trap-time stack pointer, and the word below the
stack pointer `esp`. -/
def Unwound (utf esp a : Word) : Prop :=
  (∃ k < 4, a = utf + 48#32 + BitVec.ofNat 32 k) ∨ ∃ k < 4, a = esp - 4#32 + BitVec.ofNat 32 k

theorem Fits.pushed (h : Fits utf) (ha : Pushed utf a) : OnStack a ∧ a.toNat < utf.toNat := by
  obtain ⟨k, hk, rfl⟩ := ha
  have hsub : (utf - 8#32 + BitVec.ofNat 32 k).toNat = utf.toNat - 8 + k := by
    unfold Fits at h
    have hle : 8#32 ≤ utf := by
      rw [BitVec.le_def]
      exact le_trans (by decide) h.1
    rw [BitVec.toNat_add, BitVec.toNat_sub_of_le hle, BitVec.toNat_ofNat, BitVec.toNat_ofNat]
    omega
  rw [onStack_iff, hsub]
  unfold Fits at h
  omega

theorem slot_add (utf : Word) (k : ℕ) : utf + 48#32 + BitVec.ofNat 32 k = utf + BitVec.ofNat 32
    (48 + k) := by
  rw [BitVec.ofNat_add, ← BitVec.add_assoc]

/-! ### Up to the handler -/

/-- A push. -/
theorem store_stores (hok : StackOk cur x) (hP : DataPages x.mem x.dir P)
    (h : x.store a w = some y) :
    (∃ m, y = x.withMem m) ∧ Stores P x y fun b => ∃ k < 4, b = a + BitVec.ofNat 32 k := by
  obtain ⟨-, m, rfl, hc⟩ := store_eq_some hP hok.running h
  exact ⟨⟨m, rfl⟩, Stores.of_copied hc rfl rfl⟩

theorem StackOk.withMem_stores {m : Mem} {A : Word → Prop} (h : StackOk cur x)
    (hP : DataPages x.mem x.dir P)
    (hs : Stores P x (x.withMem m) A) : StackOk cur (x.withMem m) :=
  h.stores hP hs h.curenv h.dirs

/-- **The beginning of the upcall** pushes two words. -/
theorem execAll_upcallHead (hok : StackOk cur x) (hP : DataPages x.mem x.dir P) (hfit : Fits utf)
    (hesp : x.regs.esp = utf)
    (h : execAll (upcallHead addrs) x = some y) :
    StackOk cur y ∧ y.regs.eflags = x.regs.eflags ∧ Stores P x y (Pushed utf) := by
  simp only [execAll, upcallHead, List.foldlM_cons, List.foldlM_nil, exec, Option.bind_eq_bind,
    Option.bind_eq_some_iff,
    Option.pure_def, Option.some.injEq] at h
  obtain ⟨_, ⟨y₁, hpush, rfl⟩, _, ⟨handler, -, rfl⟩, _, ⟨y₂, hcall, rfl⟩, rfl⟩ := h
  obtain ⟨⟨m₁, rfl⟩, hs₁⟩ := store_stores hok hP hpush
  have hok₁ := hok.withMem_stores hP hs₁
  have hP₁ := hs₁.dataPages hP
  simp only [withRegs_store, withRegs_regs, withRegs_withRegs, Option.map_eq_some_iff,
    UserRegs.set] at hcall
  obtain ⟨y₃, hcall, rfl⟩ := hcall
  obtain ⟨⟨m₂, rfl⟩, hs₂⟩ := store_stores hok₁ hP₁ hcall
  have hlt : ∀ a, Pushed utf a → a < UTOP := fun a ha => (hfit.pushed ha).1.lt
  have hs₁ : Stores P x (x.withMem m₁) (Pushed utf) :=
      hs₁.mono fun a ⟨k, hk, ha⟩ => ⟨4 + k, by omega, by
    rw [ha, hesp]
    bv_omega⟩
  have hs₂ : Stores P (x.withMem m₁) (x.withMem m₂) (Pushed utf) :=
      hs₂.mono fun a ⟨k, hk, ha⟩ => ⟨k, by omega, by
    rw [ha, hesp]
    bv_omega⟩
  have hs : Stores P x (x.withMem m₂) (Pushed utf) := hs₁.trans hP hs₂ hlt
  have hok₂ := hok.withMem_stores hP hs
  exact ⟨⟨hok₂.curenv, hok₂.dirs, hok₂.tables, hok₂.stack⟩, rfl, hs.dir, hs.words, hs.others⟩

/-! ### From the return of the handler on -/

/-- The upcall makes of the flags what they were. -/
theorem userFlags_popfl {old fl a b a' b' a'' b'' : Word} (h : FlagsFrom old fl) :
    userFlags (addFlags (subFlags (addFlags old a b) a' b') a'' b'') fl = fl :=
  (((flagsFrom_arith _ _ _ _ _ _).trans (flagsFrom_arith _ _ _ _ _ _)).trans
    (flagsFrom_arith _ _ _ _ _ _)).symm.trans h

/-- The frame after the upcall has moved the trap-time stack pointer. -/
def Trapframe.unwound (tf : Trapframe) : Trapframe := { tf with tfEsp := tf.tfEsp - 4#32 }

/-- What the two stores of the upcall leave behind. -/
theorem unwound_shows (hok : StackOk cur x) (hP : DataPages x.mem x.dir P) (hfit : Fits utf)
    (hframe : x.Shows utf (wordsByte (utfWords va tf)) 52)
    (hw : ∀ k < 4, x.CanWrite (tf.tfEsp - 4#32 + BitVec.ofNat 32 k))
    (hout : ∀ k < 4, ∀ j < 52, x.Apart (tf.tfEsp - 4#32 + BitVec.ofNat 32 k)
    (utf + BitVec.ofNat 32 j)) :
    ∃ m₁ m, x.store (utf + 48#32) (tf.tfEsp - 4#32) = some (x.withMem m₁) ∧
      (x.withMem m₁).store (tf.tfEsp - 4#32) tf.tfEip = some (x.withMem m) ∧
      (x.withMem m₁).load (utf + 48#32) = some (tf.tfEsp - 4#32) ∧
      (x.withMem m).Shows utf (wordsByte (utfWords va tf.unwound)) 52 ∧
      (x.withMem m).load (tf.tfEsp - 4#32) = some tf.tfEip ∧
      Stores P x (x.withMem m) (Unwound utf tf.tfEsp) := by
  have hw₁ : ∀ k < 4, x.CanWrite (utf + 48#32 + BitVec.ofNat 32 k) := fun k hk => by
    rw [slot_add]
    exact hok.canWrite (hfit.onStack (by omega))
  obtain ⟨m₁, hstore₁, hc₁⟩ := store_ok (w := tf.tfEsp - 4#32) hP hok.running hw₁
  have hs₁ : Stores P x (x.withMem m₁) fun b => ∃ k < 4, b = utf + 48#32 + BitVec.ofNat 32 k :=
    Stores.of_copied hc₁ rfl rfl
  have hok₁ := hok.withMem_stores hP hs₁
  have hP₁ := hs₁.dataPages hP
  have hw₂ : ∀ k < 4, (x.withMem m₁).CanWrite (tf.tfEsp - 4#32 + BitVec.ofNat 32 k) :=
    fun k hk => (hs₁.canWrite hP).mpr (hw k hk)
  obtain ⟨m, hstore₂, hc₂⟩ := store_ok (w := tf.tfEip) hP₁ hok₁.running hw₂
  have hs₂ : Stores P (x.withMem m₁) (x.withMem m) fun b => ∃ k < 4,
    b = tf.tfEsp - 4#32 + BitVec.ofNat 32 k :=
    Stores.of_copied hc₂ rfl rfl
  -- the second store does not touch the frame, and the first only its last word
  have hkeep : ∀ j < 52, (x.withMem m).load8 (utf + BitVec.ofNat 32 j) = (x.withMem m₁).load8
      (utf + BitVec.ofNat 32 j) := by
    intro j hj
    refine hs₂.load8 hP₁ (hfit.onStack hj).lt ?_
    rintro b ⟨k, hk, rfl⟩
    exact hs₁.apart hP (hw k hk).1 (hfit.onStack hj).lt (hout k hk j hj)
  have hfirst : ∀ j < 48, (x.withMem m₁).load8 (utf + BitVec.ofNat 32 j) = x.load8
      (utf + BitVec.ofNat 32 j) := by
    intro j hj
    refine hs₁.load8 hP (hfit.onStack (by omega)).lt ?_
    rintro b ⟨k, hk, rfl⟩
    rw [slot_add]
    exact OnStack.apart x (hfit.onStack (by omega)) (hfit.onStack (by omega))
      (hfit.ne (by omega) (by omega) (by omega))
  have hlast : ∀ k < 4, (x.withMem m₁).load8 (utf + 48#32 + BitVec.ofNat 32 k) =
    some (byteOf (tf.tfEsp - 4#32) k) :=
    fun k hk => load8_copied hP hc₁ rfl rfl (by decide) hw₁ hk
  refine ⟨m₁, m, hstore₁, hstore₂, load_eq_some.mpr hlast, fun j hj => ?_,
    load_eq_some.mpr fun k hk => load8_copied hP₁ hc₂ rfl rfl (by decide) hw₂ hk, ?_⟩
  · rw [hkeep j hj]
    rcases Nat.lt_or_ge j 48 with hlt | hge
    · rw [hfirst j hlt, hframe j hj, wordsByte, wordsByte]
      have hsame : ∀ i < 12, (utfWords va tf).getD i 0 = (utfWords va tf.unwound).getD i 0 := by
        intro i hi
        interval_cases i <;> rfl
      rw [hsame (j / 4) (by omega)]
    · have hj' : j = 48 + (j - 48) := by omega
      rw [hj', ← slot_add, hlast (j - 48) (by omega), wordsByte,
        show (48 + (j - 48)) / 4 = 12 by omega,
        show (48 + (j - 48)) % 4 = j - 48 by omega]
      rfl
  · refine (hs₁.mono fun a ha => .inl ha).trans hP (hs₂.mono fun a ha => .inr ha) ?_
    rintro a (⟨k, hk, rfl⟩ | ⟨k, hk, rfl⟩)
    · exact (hw₁ k hk).1
    · exact (hw k hk).1

/-- **The end of the upcall** gives the program the registers of its frame. -/
theorem execAll_upcallTail (hok : StackOk cur x) (hP : DataPages x.mem x.dir P) (hfit : Fits utf)
    (hesp : x.regs.esp = utf - 4#32)
    (hframe : x.Shows utf (wordsByte (utfWords va tf)) 52)
    (hflags : FlagsFrom x.regs.eflags tf.tfEflags)
    (hw : ∀ k < 4, x.CanWrite (tf.tfEsp - 4#32 + BitVec.ofNat 32 k))
    (hout : ∀ k < 4, ∀ j < 52, x.Apart (tf.tfEsp - 4#32 + BitVec.ofNat 32 k)
    (utf + BitVec.ofNat 32 j)) :
    ∃ y, execAll upcallTail x = some y ∧ StackOk cur y ∧ y.regs = tf.user ∧
      Stores P x y (Unwound utf tf.tfEsp) ∧
      y.Shows utf (wordsByte (utfWords va tf.unwound)) 52 := by
  obtain ⟨m₁, m, hs₁, hs₂, hesp₁, hshow, heip, hs⟩ := unwound_shows hok hP hfit hframe hw hout
  have hok' := hok.withMem_stores hP hs
  refine ⟨(x.withMem m).withRegs tf.user, ?_,
    ⟨hok'.curenv, hok'.dirs, hok'.tables, hok'.stack⟩, rfl,
    ⟨hs.dir, hs.words, hs.others⟩, hshow⟩
  have hframe₀ : ∀ i < 13, x.load (utf + BitVec.ofNat 32 (4 * i)) =
      some ((utfWords va tf).getD i 0) := fun i hi =>
    Shows.word (n := 13) hframe hi
  have hword : ∀ i < 13, (x.withMem m).load (utf + BitVec.ofNat 32 (4 * i)) =
      some ((utfWords va tf.unwound).getD i 0) := fun i hi =>
    Shows.word (n := 13) hshow hi
  have h10 : x.load (utf + 40#32) = some tf.tfEip := hframe₀ 10 (by decide)
  have h12 : x.load (utf + 48#32) = some tf.tfEsp := hframe₀ 12 (by decide)
  have hva : (x.withMem m).load utf = some va := by
    rw [← BitVec.add_zero utf]
    exact hword 0 (by decide)
  have herr : (x.withMem m).load (utf + 4#32) = some tf.tfErr := hword 1 (by decide)
  have hedi : (x.withMem m).load (utf + 8#32) = some tf.tfRegs.regEdi := hword 2 (by decide)
  have hesi : (x.withMem m).load (utf + 12#32) = some tf.tfRegs.regEsi := hword 3 (by decide)
  have hebp : (x.withMem m).load (utf + 16#32) = some tf.tfRegs.regEbp := hword 4 (by decide)
  have hebx : (x.withMem m).load (utf + 24#32) = some tf.tfRegs.regEbx := hword 6 (by decide)
  have hedx : (x.withMem m).load (utf + 28#32) = some tf.tfRegs.regEdx := hword 7 (by decide)
  have hecx : (x.withMem m).load (utf + 32#32) = some tf.tfRegs.regEcx := hword 8 (by decide)
  have heax : (x.withMem m).load (utf + 36#32) = some tf.tfRegs.regEax := hword 9 (by decide)
  have hefl : (x.withMem m).load (utf + 44#32) = some tf.tfEflags := hword 11 (by decide)
  have hesp₂ : (x.withMem m).load (utf + 48#32) = some (tf.tfEsp - 4#32) := hword 12 (by decide)
  -- instruction by instruction, with the stack pointer at `utf` after the first
  simp only [execAll, upcallTail, List.foldlM_cons, List.foldlM_nil, exec, UserRegs.get,
    UserRegs.set, withRegs_load, withRegs_regs,
    withRegs_withRegs, withRegs_store, hesp, BitVec.sub_add_cancel, h10, h12, hs₁,
    Option.bind_eq_bind, Option.bind_some,
    Option.map_some, Option.pure_def, hesp₁, hs₂, hva, herr, BitVec.ofNat_eq_ofNat,
    BitVec.add_assoc, BitVec.reduceAdd, hedi, hesi,
    hebp, hebx, hedx, hecx, heax, hefl, hesp₂, heip, userFlags_popfl hflags]
  rfl

end JOS
