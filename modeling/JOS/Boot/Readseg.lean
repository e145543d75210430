import JOS.Boot.Main
import JOS.General.Overwrite

/-!
# What the boot loader reads

`readseg` reads whole sectors: from the one in which the segment begins to the one in which it
ends (`sectors`). It ends when that is not the last sector of the address space; behind this one
`pa` is `0` again, and the loop goes round for ever. And no sector may meet the loader itself
(`BootProghdr.Spares`). The loop of `bootmain` reads the segments one after the other
(`phLoop_spec`); the headers that it goes through stay as they are, for no segment is in the
scratch area.
-/

namespace JOS

open General

variable {l : Loader} {disk : ℕ → BitVec 8} {mem mem' : Word → BitVec 8}
  {pa endPa offset ph eph a : Word} {fuel : ℕ}
  {h k : BootProghdr} {phs : List BootProghdr}

/-! ### Sectors -/

theorem drive_bits : ∀ b : BitVec 8, (b ||| 0xE0) &&& 0x0F = b &&& 0x0F := by decide

/-- The four ports hold the number of the sector. -/
theorem lba_toNat (hlt : offset.toNat < 2 ^ 28) :
    ((((offset >>> 24) ||| 0xE0).setWidth 8 &&& (0x0F : BitVec 8)) ++
    (offset >>> 16).setWidth 8 ++ (offset >>> 8).setWidth 8 ++ offset.setWidth 8 : Word).toNat =
        offset.toNat := by
  have hhigh : (((offset >>> 24) ||| 0xE0).setWidth 8 &&& (0x0F : BitVec 8)).toNat =
      offset.toNat / 2 ^ 24 := by
    rw [BitVec.setWidth_or, show (0xE0 : Word).setWidth 8 = (0xE0 : BitVec 8) from rfl, drive_bits,
      BitVec.toNat_and,
      show (0x0F : BitVec 8).toNat = 2 ^ 4 - 1 from rfl, Nat.and_two_pow_sub_one_eq_mod,
      BitVec.toNat_setWidth,
      BitVec.toNat_ushiftRight, Nat.shiftRight_eq_div_pow]
    omega
  simp only [BitVec.toNat_append, BitVec.toNat_setWidth, BitVec.toNat_ushiftRight,
    Nat.shiftRight_eq_div_pow, hhigh]
  rw [← Nat.shiftLeft_add_eq_or_of_lt (by omega), ← Nat.shiftLeft_add_eq_or_of_lt (by omega),
    ← Nat.shiftLeft_add_eq_or_of_lt (by omega)]
  simp only [Nat.shiftLeft_eq]
  omega

theorem readsect_eq (l : Loader) (mem : Word → BitVec 8) (dst : Word)
    (hlt : offset.toNat < 2 ^ 28) :
    readsect l disk mem dst offset = if l.Meets dst then none else
      some fun a => if (a - dst).toNat < 512 then disk (512 * offset.toNat + (a - dst).toNat)
          else mem a := by
  rw [← lba_toNat hlt]
  rfl

/-- No sector from `pa` up to `endPa` meets the loader. -/
def Loader.Spared (l : Loader) (pa endPa : Word) : Prop :=
  ∀ b : Word, b.toNat % 512 = 0 → pa.toNat ≤ b.toNat → b.toNat < endPa.toNat → ¬ l.Meets b

/-- The loop reads the next sector and goes on behind it. -/
theorem readsegLoop_lt (hlt : pa < endPa) : readsegLoop l disk endPa (fuel + 1) pa offset mem =
    (readsect l disk mem pa offset).bind
      (readsegLoop l disk endPa fuel (pa + SECTSIZE) (offset + 1)) := if_pos hlt

theorem readsegLoop_ge (hge : ¬ pa < endPa) :
    readsegLoop l disk endPa (fuel + 1) pa offset mem = some mem := if_neg hge

theorem nextSector_toNat (hpa : pa.toNat < 2 ^ 32 - 512) :
    (pa + SECTSIZE).toNat = pa.toNat + 512 := by
  rw [BitVec.toNat_add, show SECTSIZE.toNat = 512 from rfl, Nat.mod_eq_of_lt (by omega)]

/-- The loop goes on from sector to sector, and what it has read is the disk from sector `offset`
on. -/
theorem readsegLoop_spec (hpa : pa.toNat % 512 = 0) (hend : endPa.toNat ≤ 2 ^ 32 - 512)
    (hoff : offset.toNat + (2 ^ 23 - pa.toNat / 512) < 2 ^ 28)
    (hr : readsegLoop l disk endPa fuel pa offset mem = some mem') (a : Word) :
    mem' a = if pa.toNat ≤ a.toNat ∧ 512 * (a.toNat / 512) < endPa.toNat then
      disk (512 * offset.toNat + (a.toNat - pa.toNat)) else mem a := by
  induction fuel generalizing pa offset mem with
  | zero => cases hr
  | succ fuel ih =>
    have ha := a.isLt
    by_cases hlt : pa < endPa
    · rw [readsegLoop_lt hlt, readsect_eq l mem pa (by omega), Option.bind_eq_some_iff] at hr
      obtain ⟨mem₁, hmem₁, hr⟩ := hr
      rw [BitVec.lt_def] at hlt
      have hnext : (pa + SECTSIZE).toNat = pa.toNat + 512 := nextSector_toNat (by omega)
      have hoffset : (offset + 1).toNat = offset.toNat + 1 := by
        rw [BitVec.toNat_add, show (1 : Word).toNat = 1 from rfl, Nat.mod_eq_of_lt (by omega)]
      split_ifs at hmem₁ with hmeets
      obtain rfl := Option.some.inj hmem₁
      rw [ih (by omega) (by omega) hr, hnext, hoffset]
      rcases Nat.lt_or_ge a.toNat pa.toNat with hbefore | hfrom
      · have hplace : (a - pa).toNat = 2 ^ 32 - pa.toNat + a.toNat := by
          rw [BitVec.toNat_sub, Nat.mod_eq_of_lt (by omega)]
        rw [hplace, if_neg (by omega), if_neg (by omega), if_neg (by omega)]
      · have hplace : (a - pa).toNat = a.toNat - pa.toNat :=
          BitVec.toNat_sub_of_le (BitVec.le_def.mpr hfrom)
        rw [hplace]
        by_cases hhere : a.toNat < pa.toNat + 512
        · rw [if_neg (by omega), if_pos (by omega), if_pos ⟨hfrom, by omega⟩]
        · have hbyte : 512 * (offset.toNat + 1) + (a.toNat - (pa.toNat + 512)) =
              512 * offset.toNat + (a.toNat - pa.toNat) := by
            omega
          rw [if_neg (by omega : ¬ a.toNat - pa.toNat < 512), hbyte]
          exact if_congr (by omega) rfl rfl
    · rw [readsegLoop_ge hlt] at hr
      rw [BitVec.lt_def] at hlt
      rw [if_neg (by omega), Option.some.inj hr]

/-- It ends when the last sector is not needed and the loader is spared. -/
theorem readsegLoop_ends (hpa : pa.toNat % 512 = 0) (hend : endPa.toNat ≤ 2 ^ 32 - 512)
    (hspared : l.Spared pa endPa)
    (hoff : offset.toNat + (2 ^ 23 - pa.toNat / 512) < 2 ^ 28)
    (hfuel : 2 ^ 23 - pa.toNat / 512 < fuel) :
    ∃ mem', readsegLoop l disk endPa fuel pa offset mem = some mem' := by
  induction fuel generalizing pa offset mem with
  | zero => exact absurd hfuel (Nat.not_lt_zero _)
  | succ fuel ih =>
    by_cases hlt : pa < endPa
    · have hhere := hspared pa hpa (Nat.le_refl _) (BitVec.lt_def.mp hlt)
      rw [readsegLoop_lt hlt, readsect_eq l mem pa (by omega), if_neg hhere]
      rw [BitVec.lt_def] at hlt
      have hnext : (pa + SECTSIZE).toNat = pa.toNat + 512 := nextSector_toNat (by omega)
      have hoffset : (offset + 1).toNat = offset.toNat + 1 := by
        rw [BitVec.toNat_add, show (1 : Word).toNat = 1 from rfl, Nat.mod_eq_of_lt (by omega)]
      exact ih (by omega) (fun b hb hfrom hto => hspared b hb (by omega) hto) (by omega) (by omega)
    · exact ⟨mem, readsegLoop_ge hlt⟩

/-- It does not go on when it comes to the loader. -/
theorem readsegLoop_meets (hpa : pa.toNat % 512 = 0) (hend : endPa.toNat ≤ 2 ^ 32 - 512)
    (hoff : offset.toNat + (2 ^ 23 - pa.toNat / 512) < 2 ^ 28) (hspared : ¬ l.Spared pa endPa) :
    readsegLoop l disk endPa fuel pa offset mem = none := by
  induction fuel generalizing pa offset mem with
  | zero => rfl
  | succ fuel ih =>
    by_cases hlt : pa < endPa
    · rw [readsegLoop_lt hlt, readsect_eq l mem pa (by omega)]
      rw [BitVec.lt_def] at hlt
      have hnext : (pa + SECTSIZE).toNat = pa.toNat + 512 := nextSector_toNat (by omega)
      have hoffset : (offset + 1).toNat = offset.toNat + 1 := by
        rw [BitVec.toNat_add, show (1 : Word).toNat = 1 from rfl, Nat.mod_eq_of_lt (by omega)]
      by_cases hhere : l.Meets pa
      · rw [if_pos hhere]
        rfl
      · rw [if_neg hhere]
        refine ih (by omega) (by omega) fun hrest => hspared fun b hb hfrom hto => ?_
        -- the sector at `pa` is spared, and the next one begins at `pa + SECTSIZE`
        by_cases hfirst : b = pa
        · exact hfirst ▸ hhere
        · have hne : b.toNat ≠ pa.toNat := fun heq => hfirst (BitVec.eq_of_toNat_eq heq)
          exact hrest b hb (by omega) hto
    · refine absurd (fun b _ hfrom hto => ?_) hspared
      rw [BitVec.lt_def] at hlt
      omega

/-- Behind the last sector it is at the first one again. -/
theorem readsegLoop_never (hpa : pa.toNat % 512 = 0) (hend : 2 ^ 32 - 512 < endPa.toNat) :
    readsegLoop l disk endPa fuel pa offset mem = none := by
  induction fuel generalizing pa offset mem with
  | zero => rfl
  | succ fuel ih =>
    have hlt := pa.isLt
    have hnext : (pa + SECTSIZE).toNat = (pa.toNat + 512) % 2 ^ 32 := BitVec.toNat_add _ _
    rw [readsegLoop_lt (by rw [BitVec.lt_def]; omega)]
    cases readsect l disk mem pa offset with
    | none => rfl
    | some mem₁ => exact ih (by omega)

/-! ### Segments -/

namespace BootProghdr

/-- The byte at `a` is in the segment. -/
def Has (h : BootProghdr) (a : Word) : Prop := h.pPa.toNat ≤ a.toNat ∧
    a.toNat < h.pPa.toNat + h.pMemsz.toNat

/-- The byte at `a` is in a sector that is read for the segment. -/
def Covers (h : BootProghdr) (a : Word) : Prop :=
  h.pPa.toNat / 512 ≤ a.toNat / 512 ∧ 512 * (a.toNat / 512) < h.pPa.toNat + h.pMemsz.toNat

instance : Decidable (h.Covers a) := inferInstanceAs (Decidable (_ ∧ _))

/-- The segment begins inside the sector of `a`, not where that sector begins. -/
def Opens (h : BootProghdr) (a : Word) : Prop := h.pPa.toNat / 512 = a.toNat / 512 ∧
    h.pPa.toNat % 512 ≠ 0

/-- The place in the image of what is read to `a`. -/
def source (h : BootProghdr) (a : Word) : ℕ :=
  512 * (h.pOffset.toNat / 512) + (a.toNat - 512 * (h.pPa.toNat / 512))

/-- The segment does without the last sector of the address space. -/
def EndsBelow (h : BootProghdr) : Prop := h.pPa.toNat + h.pMemsz.toNat ≤ 2 ^ 32 - 512

/-- No sector that is read for the segment meets the loader. -/
def Spares (h : BootProghdr) (l : Loader) : Prop := ∀ a, h.Covers a → ¬ l.Has a

end BootProghdr

/-- What is read for a segment. -/
def sectors (disk : ℕ → BitVec 8) (h : BootProghdr) (a : Word) : Option (BitVec 8) :=
  if h.Covers a then some (image disk (h.source a)) else none

/-- The segment is not in the scratch area. -/
def BootProghdr.Clear (h : BootProghdr) : Prop :=
  h.pPa.toNat + h.pMemsz.toNat ≤ ELFHDR.toNat ∨ ELFHDR.toNat + PGSIZE.toNat ≤ h.pPa.toNat

/-- Rounding down to the sector boundary. -/
theorem sectorStart_toNat (pa : Word) : (pa &&& ~~~(SECTSIZE - 1)).toNat = 512 *
    (pa.toNat / 512) := by
  rw [and_not_mask pa 9 (by decide), BitVec.toNat_shiftLeft, BitVec.toNat_ushiftRight,
    Nat.shiftLeft_eq, Nat.shiftRight_eq_div_pow]
  have := pa.isLt
  omega

theorem segmentEnd_toNat (hend : h.EndsBelow) :
    (h.pPa + h.pMemsz).toNat = h.pPa.toNat + h.pMemsz.toNat := by
  have hend : h.pPa.toNat + h.pMemsz.toNat ≤ 2 ^ 32 - 512 := hend
  rw [BitVec.toNat_add, Nat.mod_eq_of_lt (by omega)]

theorem firstSector_toNat (pOffset : Word) : (pOffset / SECTSIZE + 1).toNat =
    pOffset.toNat / 512 + 1 := by
  have := pOffset.isLt
  rw [BitVec.toNat_add, BitVec.toNat_udiv, show SECTSIZE.toNat = 512 from rfl,
    show (1 : Word).toNat = 1 from rfl,
    Nat.mod_eq_of_lt (by omega)]

/-- The sectors that are read for a segment, one by one. -/
theorem spared_iff (hend : h.EndsBelow) :
    l.Spared (h.pPa &&& ~~~(SECTSIZE - 1)) (h.pPa + h.pMemsz) ↔ h.Spares l := by
  have hstart : bootStart.toNat = 0x7c00 := rfl
  have hsize : SECTSIZE.toNat = 512 := rfl
  have hbelow := l.below
  rw [Loader.Spared, sectorStart_toNat, segmentEnd_toNat hend]
  constructor
  · rintro hspared a ⟨hfrom, hto⟩ ⟨hstack, hcode⟩
    have hb : (BitVec.ofNat 32 (512 * (a.toNat / 512))).toNat = 512 * (a.toNat / 512) := by
      have := a.isLt
      rw [BitVec.toNat_ofNat, Nat.mod_eq_of_lt (by omega)]
    exact hspared (BitVec.ofNat 32 (512 * (a.toNat / 512))) (by omega) (by omega) (by omega)
      ⟨by omega, by omega⟩
  · rintro hspares b hb hfrom hto ⟨hstack, hcode⟩
    rcases Nat.le_total l.stack.toNat b.toNat with hle | hle
    · exact hspares b ⟨by omega, by omega⟩ ⟨hle, hcode⟩
    · exact hspares l.stack ⟨by omega, by omega⟩ ⟨Nat.le_refl _, by omega⟩

theorem readseg_spec (hend : h.EndsBelow)
    (hr : readseg l disk fuel mem h.pPa h.pMemsz h.pOffset = some mem') :
    mem' = overwrite mem (sectors disk h) := by
  have hendPa := segmentEnd_toNat hend
  have hend : h.pPa.toNat + h.pMemsz.toNat ≤ 2 ^ 32 - 512 := hend
  have hpa := sectorStart_toNat h.pPa
  have hoffset := firstSector_toNat h.pOffset
  funext a
  have hspec := readsegLoop_spec (by omega) (by omega) (by have := h.pOffset.isLt; omega) hr a
  rw [hspec, hpa, hoffset, hendPa, overwrite, sectors]
  by_cases hcov : h.Covers a
  · have hsource : 512 * (h.pOffset.toNat / 512 + 1) + (a.toNat - 512 * (h.pPa.toNat / 512)) =
        SECTSIZE.toNat + h.source a := by
      rw [BootProghdr.source, show SECTSIZE.toNat = 512 from rfl]
      omega
    rw [if_pos hcov, if_pos (by obtain ⟨h₁, h₂⟩ := hcov; omega), hsource]
    rfl
  · rw [if_neg hcov, if_neg (by rw [BootProghdr.Covers] at hcov; omega)]
    rfl

theorem readseg_ends (disk : ℕ → BitVec 8) (mem : Word → BitVec 8) (hend : h.EndsBelow)
    (hspares : h.Spares l)
    (hfuel : 2 ^ 23 < fuel) : ∃ mem', readseg l disk fuel mem h.pPa h.pMemsz h.pOffset =
    some mem' := by
  have hspared := (spared_iff hend).mpr hspares
  have hendPa := segmentEnd_toNat hend
  have hend : h.pPa.toNat + h.pMemsz.toNat ≤ 2 ^ 32 - 512 := hend
  have hpa := sectorStart_toNat h.pPa
  have hoffset := firstSector_toNat h.pOffset
  have hlt := h.pOffset.isLt
  exact readsegLoop_ends (by omega) (by omega) hspared (by omega) (by omega)

/-- It does not come back when the segment needs the last sector, or the loader is in the way. -/
theorem readseg_never (hwrap : h.pPa.toNat + h.pMemsz.toNat < 2 ^ 32)
    (hbad : ¬ (h.EndsBelow ∧ h.Spares l)) :
    readseg l disk fuel mem h.pPa h.pMemsz h.pOffset = none := by
  have hpa := sectorStart_toNat h.pPa
  by_cases hend : h.EndsBelow
  · have hspared : ¬ l.Spared (h.pPa &&& ~~~(SECTSIZE - 1)) (h.pPa + h.pMemsz) := fun hs =>
      hbad ⟨hend, (spared_iff hend).mp hs⟩
    have hendPa := segmentEnd_toNat hend
    have hend : h.pPa.toNat + h.pMemsz.toNat ≤ 2 ^ 32 - 512 := hend
    have hoffset := firstSector_toNat h.pOffset
    have hlt := h.pOffset.isLt
    exact readsegLoop_meets (by omega) (by omega) (by omega) hspared
  · refine readsegLoop_never (by omega) ?_
    rw [BitVec.toNat_add, Nat.mod_eq_of_lt hwrap]
    exact Nat.lt_of_not_le hend

/-! ### The headers -/

theorem halfAt_congr {b : Word}
    (hm : ∀ j < 2, mem' (b + BitVec.ofNat 32 j) = mem (a + BitVec.ofNat 32 j)) :
    halfAt mem' b = halfAt mem a := by
  have hlow : mem' b = mem a := by simpa using hm 0 (by decide)
  exact congrArg₂ (· ++ ·) (hm 1 (by decide)) hlow

theorem wordAt_congr {b : Word}
    (hm : ∀ j < 4, mem' (b + BitVec.ofNat 32 j) = mem (a + BitVec.ofNat 32 j)) :
    wordAt mem' b = wordAt mem a := by
  have hhigh : halfAt mem' (b + 2) = halfAt mem (a + 2) := by
    refine halfAt_congr fun j hj => ?_
    rw [BitVec.add_assoc, BitVec.add_assoc]
    have hj := hm (2 + j) (by omega)
    rwa [BitVec.ofNat_add] at hj
  have hlow : halfAt mem' b = halfAt mem a := halfAt_congr fun j hj => hm j (by omega)
  rw [wordAt, wordAt, hhigh, hlow]

theorem proghdrAt_congr {ph' : Word}
    (hm : ∀ j < 32, mem' (ph' + BitVec.ofNat 32 j) = mem (ph + BitVec.ofNat 32 j)) :
    proghdrAt mem' ph' = proghdrAt mem ph := by
  have hfield : ∀ k, k + 4 ≤ 32 → wordAt mem' (ph' + BitVec.ofNat 32 k) = wordAt mem
      (ph + BitVec.ofNat 32 k) := by
    intro k hk
    refine wordAt_congr fun j hj => ?_
    rw [BitVec.add_assoc, BitVec.add_assoc, ← BitVec.ofNat_add]
    exact hm (k + j) (by omega)
  have hOffset : wordAt mem' (ph' + 4) = wordAt mem (ph + 4) := hfield 4 (by decide)
  have hPa : wordAt mem' (ph' + 12) = wordAt mem (ph + 12) := hfield 12 (by decide)
  have hMemsz : wordAt mem' (ph' + 20) = wordAt mem (ph + 20) := hfield 20 (by decide)
  unfold proghdrAt
  rw [hOffset, hPa, hMemsz]

/-- The program headers `phs` are in memory, one after the other from `ph` on. -/
def HeadersAt (mem : Word → BitVec 8) : Word → List BootProghdr → Prop
  | _, [] => True
  | ph, h :: phs => proghdrAt mem ph = h ∧ HeadersAt mem (ph + sizeofProghdr) phs

/-- Headers are the same in another memory, and at another address. -/
theorem HeadersAt.move {ph' : Word} (hat : HeadersAt mem ph phs)
    (hm : ∀ j < 32 * phs.length, mem' (ph' + BitVec.ofNat 32 j) = mem (ph + BitVec.ofNat 32 j)) :
    HeadersAt mem' ph' phs := by
  induction phs generalizing ph ph' with
  | nil => trivial
  | cons h phs ih =>
    obtain ⟨hh, hphs⟩ := hat
    rw [List.length_cons] at hm
    refine ⟨(proghdrAt_congr fun j hj => hm j (by omega)).trans hh, ih hphs fun j hj => ?_⟩
    have hj := hm (32 + j) (by omega)
    rwa [BitVec.ofNat_add, ← BitVec.add_assoc, ← BitVec.add_assoc] at hj

/-- The headers `phs`, from `ph` to `eph`, in the scratch area. -/
structure HeaderTable (mem : Word → BitVec 8) (ph eph : Word) (phs : List BootProghdr) : Prop where
  headers : HeadersAt mem ph phs
  first : ELFHDR.toNat ≤ ph.toNat
  size : ph.toNat + 32 * phs.length = eph.toNat
  last : eph.toNat ≤ ELFHDR.toNat + PGSIZE.toNat

/-- Reading a segment leaves the scratch area as it is. -/
theorem sectors_scratch (hc : h.Clear) (hfirst : ELFHDR.toNat ≤ a.toNat)
    (hlast : a.toNat < ELFHDR.toNat + PGSIZE.toNat) :
    sectors disk h a = none := by
  refine if_neg ?_
  rintro ⟨h₁, h₂⟩
  have hpage : PGSIZE.toNat = 4096 := rfl
  have helf : ELFHDR.toNat = 0x10000 := rfl
  rcases hc with hc | hc <;> omega

theorem HeaderTable.tail (ht : HeaderTable mem ph eph (h :: phs)) (hc : h.Clear) :
    HeaderTable (overwrite mem (sectors disk h)) (ph + sizeofProghdr) eph phs := by
  have hsize := ht.size
  have hfirst := ht.first
  have hlast := ht.last
  rw [List.length_cons] at hsize
  have hpage : PGSIZE.toNat = 4096 := rfl
  have helf : ELFHDR.toNat = 0x10000 := rfl
  have hnext : (ph + sizeofProghdr).toNat = ph.toNat + 32 := by
    rw [BitVec.toNat_add, show sizeofProghdr.toNat = 32 from rfl, Nat.mod_eq_of_lt (by omega)]
  refine ⟨ht.headers.2.move fun j hj => ?_, by omega, by omega, hlast⟩
  have hplace : (ph + sizeofProghdr + BitVec.ofNat 32 j).toNat = ph.toNat + 32 + j := by
    rw [BitVec.toNat_add, hnext, BitVec.toNat_ofNat]
    omega
  rw [overwrite, sectors_scratch hc (by omega) (by omega), Option.getD_none]

/-! ### The loop over the headers -/

theorem phLoop_nil (ht : HeaderTable mem ph eph []) :
    phLoop l disk eph (fuel + 1) ph mem = some mem :=
  if_neg fun hlt => Nat.lt_irrefl _ ((BitVec.lt_def.mp hlt).trans_eq ht.size.symm)

theorem phLoop_cons (ht : HeaderTable mem ph eph (h :: phs)) : phLoop l disk eph (fuel + 1) ph mem =
    (readseg l disk fuel mem h.pPa h.pMemsz h.pOffset).bind
        (phLoop l disk eph fuel (ph + sizeofProghdr)) := by
  have hlt : ph < eph := by
    have hsize := ht.size
    rw [List.length_cons] at hsize
    rw [BitVec.lt_def]
    omega
  rw [phLoop, if_pos hlt]
  show (readseg l disk fuel mem (proghdrAt mem ph).pPa (proghdrAt mem ph).pMemsz
    (proghdrAt mem ph).pOffset).bind _ = _
  rw [ht.headers.1]

/-- The loop reads the segments one after the other. -/
theorem phLoop_spec (ht : HeaderTable mem ph eph phs) (hclear : ∀ h ∈ phs, h.Clear)
    (hends : ∀ h ∈ phs, h.EndsBelow)
    (hr : phLoop l disk eph fuel ph mem = some mem') :
    mem' = overwrites (sectors disk) mem phs := by
  induction phs generalizing fuel ph mem with
  | nil =>
    cases fuel with
    | zero => cases hr
    | succ fuel =>
      rw [phLoop_nil ht] at hr
      exact (Option.some.inj hr).symm
  | cons h phs ih =>
    cases fuel with
    | zero => cases hr
    | succ fuel =>
      obtain ⟨hc, hclear⟩ := List.forall_mem_cons.mp hclear
      obtain ⟨he, hends⟩ := List.forall_mem_cons.mp hends
      rw [phLoop_cons ht, Option.bind_eq_some_iff] at hr
      obtain ⟨mem₁, hseg, hr⟩ := hr
      obtain rfl := readseg_spec he hseg
      exact ih (ht.tail hc) hclear hends hr

theorem phLoop_ends (disk : ℕ → BitVec 8) (ht : HeaderTable mem ph eph phs)
    (hclear : ∀ h ∈ phs, h.Clear)
    (hends : ∀ h ∈ phs, h.EndsBelow) (hspares : ∀ h ∈ phs, h.Spares l)
    (hfuel : 2 ^ 23 + phs.length < fuel) :
    ∃ mem', phLoop l disk eph fuel ph mem = some mem' := by
  induction phs generalizing fuel ph mem with
  | nil =>
    cases fuel with
    | zero => exact absurd hfuel (Nat.not_lt_zero _)
    | succ fuel => exact ⟨mem, phLoop_nil ht⟩
  | cons h phs ih =>
    cases fuel with
    | zero => exact absurd hfuel (Nat.not_lt_zero _)
    | succ fuel =>
      obtain ⟨hc, hclear⟩ := List.forall_mem_cons.mp hclear
      obtain ⟨he, hends⟩ := List.forall_mem_cons.mp hends
      obtain ⟨hs, hspares⟩ := List.forall_mem_cons.mp hspares
      rw [List.length_cons] at hfuel
      obtain ⟨mem₁, hseg⟩ := readseg_ends disk mem he hs (by omega : 2 ^ 23 < fuel)
      obtain rfl := readseg_spec he hseg
      rw [phLoop_cons ht, hseg]
      exact ih (ht.tail hc) hclear hends hspares (by omega)

/-- A segment that needs the last sector of the address space, or the place of the loader, keeps it
from ending. -/
theorem phLoop_never (ht : HeaderTable mem ph eph phs) (hclear : ∀ h ∈ phs, h.Clear)
    (hwrap : ∀ h ∈ phs, h.pPa.toNat + h.pMemsz.toNat < 2 ^ 32)
    (hbad : ¬ ∀ h ∈ phs, h.EndsBelow ∧ h.Spares l) :
    phLoop l disk eph fuel ph mem = none := by
  induction phs generalizing fuel ph mem with
  | nil => exact absurd (fun h hh => absurd hh List.not_mem_nil) hbad
  | cons h phs ih =>
    cases fuel with
    | zero => rfl
    | succ fuel =>
      obtain ⟨hc, hclear⟩ := List.forall_mem_cons.mp hclear
      obtain ⟨hw, hwrap⟩ := List.forall_mem_cons.mp hwrap
      rw [phLoop_cons ht]
      by_cases hgood : h.EndsBelow ∧ h.Spares l
      · cases hseg : readseg l disk fuel mem h.pPa h.pMemsz h.pOffset with
        | none => rfl
        | some mem₁ =>
          obtain rfl := readseg_spec hgood.1 hseg
          exact ih (ht.tail hc) hclear hwrap fun hall =>
            hbad (List.forall_mem_cons.mpr ⟨hgood, hall⟩)
      · rw [readseg_never hw hgood]
        rfl

end JOS
