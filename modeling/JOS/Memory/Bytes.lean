import JOS.Memory.Directory
import JOS.Kern.Icode

/-!
# Memory as bytes

The kernel writes user memory byte by byte, through the page tables of a directory. `Mem.byte`
is a byte of a page, and `DataPages` says which pages may be written so that the
directory stays as it is. `DataPages.storeBytes` is all that is used about `storeBytes`, and
`storeWords` is a case of it (`storeWords_eq`).
-/

namespace JOS

open JOS.General

variable {m m' m₁ : Mem} {P : ℕ → Prop} {f : ℕ → BitVec 8} {b : BitVec 8} {d i j k n o p q : ℕ}
  {a va w pte : Word}

/-! ### One byte -/

/-- Byte `o` of page `p`. -/
def Mem.byte (m : Mem) (p o : ℕ) : BitVec 8 := byteOf (m.phys p (o / 4)) (o % 4)

theorem getLsbD_0xFF (n : ℕ) : (0xFF#32).getLsbD n = decide (n < 8) := by
  by_cases hn : n < 32
  · revert n
    decide
  · rw [BitVec.getLsbD_of_ge _ _ (not_lt.mp hn), eq_comm, decide_eq_false_iff_not]
    omega

theorem byteOf_setByte (hj : j < 4) (hk : k < 4) : byteOf (setByte w k b) j = if j = k then b
    else byteOf w j := by
  unfold byteOf setByte
  ext i hi
  have hlt : 8 * j + i < 32 := by omega
  split_ifs with hjk
  · subst hjk
    simp [getLsbD_0xFF, hlt, hi, show i < 32 by omega]
  · by_cases hlow : j < k
    · simp [hlt, show 8 * j + i < 8 * k by omega]
    · have hhigh : 8 ≤ 8 * j + i - 8 * k := by omega
      simp only [BitVec.getElem_setWidth, BitVec.getLsbD_ushiftRight, BitVec.getLsbD_or,
        BitVec.getLsbD_and,
        BitVec.getLsbD_not, BitVec.getLsbD_shiftLeft, BitVec.getLsbD_setWidth, getLsbD_0xFF, hlt,
        BitVec.getLsbD_of_ge b _ hhigh, show ¬ 8 * j + i - 8 * k < 8 by omega]
      simp

theorem PGOFF_toNat (va : Word) : (PGOFF va).toNat = va.toNat % 4096 := by
  rw [PGOFF, BitVec.toNat_and]
  exact Nat.and_two_pow_sub_one_eq_mod _ 12

theorem loadByte_eq : loadByte m d va = (translate m d va).map fun pte =>
    m.byte (PGNUM pte) (va.toNat % 4096) := by
  rw [loadByte, wordIndex, PGOFF_toNat, byteIndex]
  have hmod : va.toNat % 4096 % 4 = va.toNat % 4 := Nat.mod_mod_of_dvd _ (by decide)
  simp only [Mem.byte, hmod]

/-- A store of one byte writes that byte. -/
theorem byte_storeAt (p o : ℕ) : (m.storeAt pte va b).byte p o = if p = PGNUM pte ∧
    o = va.toNat % 4096 then b else m.byte p o := by
  rw [Mem.byte, Mem.storeAt, setWord_phys, wordIndex, PGOFF_toNat, byteIndex]
  by_cases hp : p = PGNUM pte
  · subst hp
    by_cases hword : o / 4 = va.toNat % 4096 / 4
    · rw [hword, setW_self, byteOf_setByte (Nat.mod_lt _ (by decide)) (Nat.mod_lt _ (by decide)),
        Mem.byte, hword]
      refine if_congr ?_ rfl rfl
      constructor
      · intro h
        exact ⟨rfl, by omega⟩
      · rintro ⟨-, rfl⟩
        omega
    · rw [setW_of_ne_index hword, if_neg, Mem.byte]
      rintro ⟨-, rfl⟩
      exact hword rfl
  · rw [setW_of_ne hp, if_neg fun h => hp h.1, Mem.byte]

/-! ### Pages of data -/

/-- The pages `P` hold data: they are no tables of the user's half of directory `d`, and all pages
that are mapped there are among them. -/
structure DataPages (m : Mem) (d : ℕ) (P : ℕ → Prop) : Prop where
  dir : ¬ P d
  table : ∀ i < NUPDX, ∀ t, Names (m.phys d i) t → ¬ P t
  mapped : ∀ v < NUPAGES, ∀ p, Names (dirPte m.phys d v) p → P p

/-- Byte `o` of page `p` is the one that address `a` is mapped to. -/
def Slot (m : Mem) (d : ℕ) (a : Word) (p o : ℕ) : Prop := ∃ pte, translate m d a = some pte ∧
    p = PGNUM pte ∧ o = a.toNat % 4096

/-- The kernel can write address `a` through the directory `d`. -/
def Writable (m : Mem) (d : ℕ) (a : Word) : Prop := ∃ pte, translate m d a = some pte ∧
    test pte PTE_W = true

namespace DataPages

/-- Data does not change what is mapped. -/
theorem dirPte_congr (h : DataPages m d P) (hphys : ∀ q, ¬ P q → m'.phys q = m.phys q) :
    ∀ v < NUPAGES, dirPte m'.phys d v = dirPte m.phys d v := by
  intro v hv
  have hd := hphys d h.dir
  by_cases hP : test (m.phys d (v / 1024)) PTE_P = true
  · have hn : Names (m.phys d (v / 1024)) (PGNUM (m.phys d (v / 1024))) := ⟨hP, rfl⟩
    have hn' : Names (m'.phys d (v / 1024)) (PGNUM (m.phys d (v / 1024))) := by rwa [hd]
    rw [dirPte_of_names hn, dirPte_of_names hn', hphys _ (h.table _ (div_lt_NUPDX hv) _ hn)]
  · rw [dirPte_of_absent hP, dirPte_of_absent (by rwa [hd])]

theorem congr (h : DataPages m d P) (hphys : ∀ q, ¬ P q → m'.phys q = m.phys q) :
    DataPages m' d P := by
  refine ⟨h.dir, fun i hi t hn => h.table i hi t ?_, fun v hv p hn => h.mapped v hv p ?_⟩
  · rwa [hphys d h.dir] at hn
  · rwa [h.dirPte_congr hphys v hv] at hn

theorem translate_congr (h : DataPages m d P) (hphys : ∀ q, ¬ P q → m'.phys q = m.phys q)
    (hva : va < UTOP) :
    translate m' d va = translate m d va := by
  rw [translate_eq_dirPte, translate_eq_dirPte, h.dirPte_congr hphys _ ((PGNUM_lt_iff va).mpr hva)]

theorem of_translate (h : DataPages m d P) (hva : va < UTOP) (ht : translate m d va = some pte) :
    P (PGNUM pte) := by
  rw [translate_eq_dirPte] at ht
  split_ifs at ht with hP
  cases ht
  exact h.mapped _ ((PGNUM_lt_iff va).mpr hva) _ ⟨hP, rfl⟩

/-- A byte is stored where its address is mapped. -/
theorem storeByte (h : DataPages m d P) (hva : va < UTOP) (ht : translate m d va = some pte)
    (hW : test pte PTE_W = true) :
    storeByte m d va b = .ok (m.storeAt pte va b) ∧ ∀ q, ¬ P q →
        (m.storeAt pte va b).phys q = m.phys q := by
  refine ⟨?_, fun q hq => ?_⟩
  · simp only [JOS.storeByte, ht, if_pos hW]
  · have hne : q ≠ PGNUM pte := fun hqp => hq (hqp ▸ h.of_translate hva ht)
    rw [Mem.storeAt, setWord_phys, setW_of_ne hne]

end DataPages

/-! ### Bytes -/

/-- Memory after the bytes `f` have been stored at the `n` addresses from `va` on. -/
structure Copied (m : Mem) (d : ℕ) (P : ℕ → Prop) (va : Word) (f : ℕ → BitVec 8) (n : ℕ)
    (m' : Mem) : Prop where
  mem : m' = { m with phys := m'.phys }
  words : ∀ q, ¬ P q → m'.phys q = m.phys q
  others : ∀ p o, (∀ k < n, ¬ Slot m d (va + BitVec.ofNat 32 k) p o) → m'.byte p o = m.byte p o
  /-- When no byte is stored twice. -/
  bytes : (∀ j < n, ∀ k < n, ∀ p o, Slot m d (va + BitVec.ofNat 32 j) p o →
    Slot m d (va + BitVec.ofNat 32 k) p o → j = k) →
    ∀ k < n, ∀ p o, Slot m d (va + BitVec.ofNat 32 k) p o → m'.byte p o = f k

theorem Copied.zero (m : Mem) (d : ℕ) (P : ℕ → Prop) (va : Word) (f : ℕ → BitVec 8) :
    Copied m d P va f 0 m :=
  ⟨rfl, fun _ _ => rfl, fun _ _ _ => rfl, fun _ k hk => absurd hk (Nat.not_lt_zero k)⟩

theorem Copied.succ (h : Copied m d P va f n m₁) (hp : DataPages m d P)
    (hva : va + BitVec.ofNat 32 n < UTOP)
    (hw : Writable m d (va + BitVec.ofNat 32 n)) :
    ∃ m', storeByte m₁ d (va + BitVec.ofNat 32 n) (f n) = .ok m' ∧
        Copied m d P va f (n + 1) m' := by
  obtain ⟨pte, ht, hW⟩ := hw
  have ht₁ : translate m₁ d (va + BitVec.ofNat 32 n) = some pte := by
    rw [hp.translate_congr h.words hva, ht]
  obtain ⟨hstore, hwords⟩ := (hp.congr h.words).storeByte (b := f n) hva ht₁ hW
  have hslot : Slot m d (va + BitVec.ofNat 32 n) (PGNUM pte)
    ((va + BitVec.ofNat 32 n).toNat % 4096) := ⟨pte, ht, rfl, rfl⟩
  refine ⟨_, hstore, ?_, fun q hq => (hwords q hq).trans (h.words q hq), fun p o hno => ?_,
    fun hinj k hk p o hs => ?_⟩
  · have hmem := h.mem
    rw [Mem.storeAt]
    generalize m₁.phys = phys at hmem
    subst hmem
    rfl
  · rw [byte_storeAt, if_neg, h.others p o fun k hk => hno k (Nat.lt_succ_of_lt hk)]
    rintro ⟨rfl, rfl⟩
    exact hno n (Nat.lt_succ_self n) hslot
  · rw [byte_storeAt]
    rcases Nat.lt_succ_iff_lt_or_eq.mp hk with hlt | rfl
    · rw [if_neg, h.bytes (fun i hi j hj => hinj i (Nat.lt_succ_of_lt hi) j (Nat.lt_succ_of_lt hj))
        k hlt p o hs]
      rintro ⟨rfl, rfl⟩
      exact absurd (hinj k hk n (Nat.lt_succ_self n) _ _ hs hslot) (Nat.ne_of_lt hlt)
    · obtain ⟨pte', ht', rfl, rfl⟩ := hs
      rw [ht] at ht'
      cases ht'
      rw [if_pos ⟨rfl, rfl⟩]

/-- **`storeBytes`** writes its bytes and no others, when all addresses may be written. -/
theorem DataPages.storeBytes (h : DataPages m d P) (hva : va.toNat + n ≤ UTOP.toNat)
    (hw : ∀ k < n, Writable m d (va + BitVec.ofNat 32 k)) : ∃ m', storeBytes d va f n m = .ok m' ∧
    Copied m d P va f n m' := by
  refine foldlM_range_total (I := fun k m' => Copied m d P va f k m') (Copied.zero m d P va f)
    fun k hk m₁ h₁ => ?_
  refine h₁.succ h ?_ (hw k hk)
  have : UTOP.toNat < 2 ^ 32 := UTOP.isLt
  rw [BitVec.lt_def, BitVec.toNat_add, BitVec.toNat_ofNat]
  omega

/-! ### Words -/

theorem storeBytes_congr {g : ℕ → BitVec 8} (h : ∀ k < n, f k = g k) :
    storeBytes d va f n m = storeBytes d va g n m := by
  induction n generalizing m with
  | zero => rfl
  | succ n ih =>
    rw [storeBytes, storeBytes, foldlM_range_succ, foldlM_range_succ, h n (Nat.lt_succ_self n)]
    exact congrArg (· >>= _) (ih fun k hk => h k (Nat.lt_succ_of_lt hk))

/-- The bytes from `n` on are stored after the first `n`. -/
theorem storeBytes_add (n' : ℕ) : storeBytes d va f (n + n') m =
    storeBytes d va f n m >>= storeBytes d (va + BitVec.ofNat 32 n) (fun k => f (n + k)) n' := by
  induction n' with
  | zero =>
    cases storeBytes d va f n m <;> rfl
  | succ n' ih =>
    have hlast : (fun m => storeBytes d (va + BitVec.ofNat 32 n) (fun k => f (n + k)) (n' + 1) m) =
        fun m =>
        storeBytes d (va + BitVec.ofNat 32 n) (fun k => f (n + k)) n' m >>= fun m =>
          storeByte m d (va + BitVec.ofNat 32 (n + n')) (f (n + n')) := by
      funext m
      rw [storeBytes, storeBytes, foldlM_range_succ]
      simp only [BitVec.add_assoc, ← BitVec.ofNat_add]
    rw [storeBytes, ← Nat.add_assoc, foldlM_range_succ]
    refine Eq.trans (congrArg (· >>= _) ih) ?_
    rw [show storeBytes d (va + BitVec.ofNat 32 n) (fun k => f (n + k)) (n' + 1) = _ from hlast]
    cases storeBytes d va f n m <;> rfl

/-- Byte `k` of consecutive words, little end first. -/
def wordsByte (ws : List Word) (k : ℕ) : BitVec 8 := byteOf (ws.getD (k / 4) 0) (k % 4)

theorem storeWords_eq (ws : List Word) : storeWords m d va ws = storeBytes d va (wordsByte ws)
    (4 * ws.length) m := by
  induction ws generalizing m va with
  | nil => rfl
  | cons w ws ih =>
    rw [List.length_cons, Nat.mul_succ, Nat.add_comm, storeBytes_add, storeWords]
    have hfirst : storeBytes d va (wordsByte (w :: ws)) 4 m = storeWord m d va w := by
      refine storeBytes_congr (g := byteOf w) fun k hk => ?_
      rw [wordsByte, Nat.div_eq_of_lt hk, Nat.mod_eq_of_lt hk, List.getD_cons_zero]
    have hrest : (fun k => wordsByte (w :: ws) (4 + k)) = wordsByte ws := by
      funext k
      rw [wordsByte, wordsByte, show (4 + k) / 4 = k / 4 +
        1 by omega, List.getD_cons_succ, show (4 + k) % 4 = k % 4 by omega]
    rw [hfirst, hrest]
    cases storeWord m d va w with
    | error e => rfl
    | ok m₁ => exact ih

end JOS
