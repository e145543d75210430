import JOS.Lib.Access
import JOS.Lib.Fork

/-!
# The page tables that programs read

A page directory that names itself at `UVPT` shows a program its own page tables: `uvpt[pn]` is the
entry for page `pn` (`uvpt_eq`), and `uvpd[i]` is an entry of the directory itself (`uvpd_eq`),
which is the case `pn = PGNUM UVPT + i`.
-/

namespace JOS

variable {x : Running} {a w : Word} {d i k pn : ℕ}

/-- The byte of a word, wherever the word is. -/
theorem load_of_bytes (h : ∀ k < 4, x.load8 (a + BitVec.ofNat 32 k) = some (byteOf w k)) :
    x.load a = some w :=
  Running.load_eq_some.mpr h

/-- A word of which no byte can be read. -/
theorem load_eq_none (h : x.load8 a = none) : x.load a = none := by
  rw [Running.load, h]
  rfl

/-- The address of byte `k` of `uvpt[pn]`. -/
theorem uvptAddr_toNat (hpn : pn < 2 ^ 20) (hk : k < 4) :
    (UVPT + BitVec.ofNat 32 pn * 4 + BitVec.ofNat 32 k).toNat = 0xef400000 + 4 * pn + k := by
  have hU : UVPT.toNat = 0xef400000 := by decide
  have h4 : (4 : Word).toNat = 4 := rfl
  rw [BitVec.toNat_add, BitVec.toNat_add, BitVec.toNat_mul, BitVec.toNat_ofNat,
    BitVec.toNat_ofNat, hU, h4]
  omega

/-- One byte of `uvpt[pn]`. -/
theorem uvpt_byte (hself : Names (x.mem.phys x.dir (PDX UVPT)) x.dir) (hpn : pn < 2 ^ 20)
    (hk : k < 4) :
    x.load8 (UVPT + BitVec.ofNat 32 pn * 4 + BitVec.ofNat 32 k) =
      if test (x.mem.phys x.dir (pn / 1024)) PTE_P = true ∧
      test (x.mem.phys x.dir (pn / 1024)) PTE_U = true then
        some (byteOf (dirPte x.mem.phys x.dir pn) k) else none := by
  have hva := uvptAddr_toNat hpn hk
  generalize UVPT + BitVec.ofNat 32 pn * 4 + BitVec.ofNat 32 k = va at hva
  have hdiv : PGNUM va / 1024 = PDX UVPT := by
    rw [PGNUM_eq, hva, show PDX UVPT = 957 from by decide]
    omega
  have hmod : PGNUM va % 1024 = pn / 1024 := by
    rw [PGNUM_eq, hva]
    omega
  -- the directory is its own page table there
  have hentry : dirPte x.mem.phys x.dir (PGNUM va) = x.mem.phys x.dir (pn / 1024) := by
    rw [dirPte, hdiv, if_pos hself.1, hself.2, hmod]
  rw [Running.load8, loadByte_eq, translate_eq_dirPte, hentry]
  by_cases hP : test (x.mem.phys x.dir (pn / 1024)) PTE_P = true
  · have hoff : va.toNat % 4096 / 4 = pn % 1024 ∧ va.toNat % 4096 % 4 = k := by
      rw [hva]
      omega
    simp only [hP, if_true, Option.bind_some, Option.map_some, true_and, Mem.byte, hoff.1,
      hoff.2, dirPte]
  · simp only [hP, if_false, Option.bind_none, false_and, Bool.false_eq_true]

/-- **`uvpt[pn]`** is the entry for page `pn`, if there is a table for it. -/
theorem uvpt_eq (hself : Names (x.mem.phys x.dir (PDX UVPT)) x.dir) (hpn : pn < 2 ^ 20) :
    uvpt x pn = if test (x.mem.phys x.dir (pn / 1024)) PTE_P = true ∧
    test (x.mem.phys x.dir (pn / 1024)) PTE_U = true then
      some (dirPte x.mem.phys x.dir pn) else none := by
  rw [uvpt]
  by_cases h : test (x.mem.phys x.dir (pn / 1024)) PTE_P = true ∧
    test (x.mem.phys x.dir (pn / 1024)) PTE_U = true
  · rw [if_pos h]
    refine load_of_bytes fun k hk => ?_
    rw [uvpt_byte hself hpn hk, if_pos h]
  · rw [if_neg h]
    refine load_eq_none ?_
    have h₀ := uvpt_byte hself hpn (by decide : 0 < 4)
    rwa [if_neg h, BitVec.add_zero] at h₀

/-- **`uvpd[i]`** is entry `i` of the page directory. -/
theorem uvpd_eq (hself : Names (x.mem.phys x.dir (PDX UVPT)) x.dir)
    (hU : test (x.mem.phys x.dir (PDX UVPT)) PTE_U = true)
    (hi : i < 1024) : uvpd x i = some (x.mem.phys x.dir i) := by
  have hpn : PGNUM UVPT = PDX UVPT * 1024 := by decide
  have hlt : PGNUM UVPT + i < 2 ^ 20 := by
    rw [show PGNUM UVPT = 0xef400 from by decide]
    omega
  have haddr : UVPT + (UVPT >>> 12) * 4 + BitVec.ofNat 32 i * 4 = UVPT + BitVec.ofNat 32
      (PGNUM UVPT + i) * 4 := by
    have hbase : UVPT >>> 12 = BitVec.ofNat 32 (PGNUM UVPT) := by decide
    rw [hbase, BitVec.ofNat_add, BitVec.add_mul, BitVec.add_assoc]
  have hdiv : (PGNUM UVPT + i) / 1024 = PDX UVPT := by
    rw [hpn]
    omega
  have hmod : (PGNUM UVPT + i) % 1024 = i := by
    rw [hpn]
    omega
  have h := uvpt_eq hself hlt
  rw [uvpt, ← haddr, hdiv, if_pos ⟨hself.1, hU⟩, dirPte, hdiv, if_pos hself.1, hself.2, hmod] at h
  exact h

end JOS
