import JOS.Boot.Readseg

/-!
# Reading more than asked

A segment brings with it what its first and its last sector hold besides. That it "doesn't
matter -- we load in increasing order" is true of the end of a segment, over which the next one
is written. It is not true of the beginning of the next one, which is written over the end of
the first. `bootmain_loads_iff` says when all segments are in place nevertheless: when the sector
of the image in which a later segment begins has there the same bytes as the earlier one
(`EdgesAgree`), and no sector that is read is the last one of the address space or one of the
loader's own. Segments that are as far apart in memory as in the image spoil none of each other's
bytes (`edgesAgree_of_shift`).
-/

namespace JOS

open General

variable {l : Loader} {disk : ℕ → BitVec 8} {mem mem' : Word → BitVec 8} {ph eph a : Word}
  {fuel : ℕ} {h k : BootProghdr}
  {phs pre post : List BootProghdr}

/-! ### Images and segments -/

/-- The image, as if it were in memory at `0`. -/
def imageMem (disk : ℕ → BitVec 8) (a : Word) : BitVec 8 := image disk a.toNat

/-- The image begins with a header, and the program headers `phs` are in its first page. -/
structure HoldsElf (disk : ℕ → BitVec 8) (phs : List BootProghdr) : Prop where
  magic : wordAt (imageMem disk) 0 = ELF_MAGIC
  phnum : (halfAt (imageMem disk) 44).toNat = phs.length
  inPage : (wordAt (imageMem disk) 28).toNat + 32 * phs.length ≤ PGSIZE.toNat
  headers : HeadersAt (imageMem disk) (wordAt (imageMem disk) 28) phs

/-- Segments that can be loaded. -/
structure Loadable (phs : List BootProghdr) : Prop where
  increasing : phs.Pairwise fun h k => h.pPa.toNat ≤ k.pPa.toNat
  disjoint : phs.Pairwise fun h k => ∀ a, h.Has a → ¬ k.Has a
  noWrap : ∀ h ∈ phs, h.pPa.toNat + h.pMemsz.toNat < 2 ^ 32
  clear : ∀ h ∈ phs, h.Clear
  aligned : ∀ h ∈ phs, h.pPa.toNat % 512 = h.pOffset.toNat % 512

/-- Every segment is in memory. -/
def InPlace (disk : ℕ → BitVec 8) (mem : Word → BitVec 8) (phs : List BootProghdr) : Prop :=
  ∀ h ∈ phs, ∀ a, h.Has a → mem a = image disk (h.pOffset.toNat + (a.toNat - h.pPa.toNat))

/-- Where later segments begin in the sector of a byte, the last of them has the same byte in front
of it. -/
def EdgesAgree (disk : ℕ → BitVec 8) (phs : List BootProghdr) : Prop :=
  ∀ pre h mid k post, phs = pre ++ h :: (mid ++ k :: post) → ∀ a, h.Has a → k.Opens a →
    (∀ l ∈ post, ¬ l.Opens a) →
    image disk (512 * (k.pOffset.toNat / 512) + a.toNat % 512) = image disk
      (h.pOffset.toNat + (a.toNat - h.pPa.toNat))

/-! ### One segment and those behind it -/

/-- Of a segment, a later one covers what lies in the sector that it opens. -/
theorem covers_iff_opens (hle : h.pPa.toNat ≤ k.pPa.toNat) (hdisj : ∀ a, h.Has a → ¬ k.Has a)
    (hh : h.Has a) :
    k.Covers a ↔ k.Opens a := by
  obtain ⟨hfrom, hto⟩ := hh
  rw [BootProghdr.Covers, BootProghdr.Opens]
  by_cases hk : k.pPa.toNat ≤ a.toNat
  · -- only an empty segment begins inside another
    have hempty : k.pMemsz.toNat = 0 := by
      by_contra hne
      exact hdisj k.pPa ⟨hle, by omega⟩ ⟨Nat.le_refl _, by omega⟩
    omega
  · omega

theorem sectors_of_covers (hc : h.Covers a) :
    sectors disk h a = some (image disk (h.source a)) := if_pos hc

theorem sectors_eq_none_iff : sectors disk h a = none ↔ ¬ h.Covers a := by
  simp [sectors]

theorem source_of_opens (ho : k.Opens a) : k.source a = 512 * (k.pOffset.toNat / 512) +
    a.toNat % 512 := by
  rw [BootProghdr.source, ho.1]
  omega

/-- Reading a segment puts it in place. -/
theorem source_of_has (halign : h.pPa.toNat % 512 = h.pOffset.toNat % 512) (hh : h.Has a) :
    h.Covers a ∧ h.source a = h.pOffset.toNat + (a.toNat - h.pPa.toNat) := by
  obtain ⟨hfrom, hto⟩ := hh
  rw [BootProghdr.Covers, BootProghdr.source]
  omega

/-- **A byte of a segment** is in place exactly when the last of the later segments that open its
sector brings it too. -/
theorem segment_iff (hle : ∀ k ∈ post, h.pPa.toNat ≤ k.pPa.toNat)
    (hdisj : ∀ k ∈ post, ∀ a, h.Has a → ¬ k.Has a)
    (halign : h.pPa.toNat % 512 = h.pOffset.toNat % 512) (hh : h.Has a) :
    overwrites (sectors disk) mem (pre ++ h :: post) a = image disk
      (h.pOffset.toNat + (a.toNat - h.pPa.toNat)) ↔
      ∀ mid k rest, post = mid ++ k :: rest → k.Opens a → (∀ l ∈ rest, ¬ l.Opens a) →
        image disk (512 * (k.pOffset.toNat / 512) + a.toNat % 512) = image disk
          (h.pOffset.toNat + (a.toNat - h.pPa.toNat)) := by
  have hopens : ∀ k ∈ post, (k.Covers a ↔ k.Opens a) :=
    fun k hk => covers_iff_opens (hle k hk) (hdisj k hk) hh
  obtain ⟨hcov, hsource⟩ := source_of_has halign hh
  have hhere : overwrite (overwrites (sectors disk) mem pre) (sectors disk h) a =
      image disk (h.pOffset.toNat + (a.toNat - h.pPa.toNat)) := by
    rw [overwrite, sectors_of_covers hcov, Option.getD_some, hsource]
  rw [overwrites_append, overwrites, overwrites_survives_iff hhere]
  constructor
  · rintro hlast mid k rest rfl hk hrest
    have hkc : k.Covers a := (hopens k (List.mem_append_right _ List.mem_cons_self)).mpr hk
    rw [← source_of_opens hk]
    refine hlast mid k rest _ rfl (sectors_of_covers hkc) fun l hl =>
      sectors_eq_none_iff.mpr fun hc => hrest l hl ?_
    exact (hopens l (List.mem_append_right _ (List.mem_cons_of_mem _ hl))).mp hc
  · rintro hlast mid k rest u rfl hu hrest
    have hkc : k.Covers a := by
      by_contra hn
      exact Option.some_ne_none u (hu.symm.trans (sectors_eq_none_iff.mpr hn))
    have hk : k.Opens a := (hopens k (List.mem_append_right _ List.mem_cons_self)).mp hkc
    obtain rfl : image disk (k.source a) = u :=
      Option.some.inj ((sectors_of_covers hkc).symm.trans hu)
    rw [source_of_opens hk]
    refine hlast mid k rest rfl hk fun l hl ho => sectors_eq_none_iff.mp (hrest l hl) ?_
    exact (hopens l (List.mem_append_right _ (List.mem_cons_of_mem _ hl))).mpr ho

/-- **All segments** are in place exactly when their edges agree. -/
theorem inPlace_iff (hl : Loadable phs) : InPlace disk (overwrites (sectors disk) mem phs) phs ↔
    EdgesAgree disk phs := by
  have hbehind : ∀ pre h post, phs = pre ++ h :: post → ∀ a, h.Has a →
      (overwrites (sectors disk) mem phs a = image disk
        (h.pOffset.toNat + (a.toNat - h.pPa.toNat)) ↔
        ∀ mid k rest, post = mid ++ k :: rest → k.Opens a → (∀ l ∈ rest, ¬ l.Opens a) →
          image disk (512 * (k.pOffset.toNat / 512) + a.toNat % 512) = image disk
            (h.pOffset.toNat + (a.toNat - h.pPa.toNat))) := by
    rintro pre h post rfl a hh
    have hle := (List.pairwise_cons.mp (List.pairwise_append.mp hl.increasing).2.1).1
    have hdisj := (List.pairwise_cons.mp (List.pairwise_append.mp hl.disjoint).2.1).1
    exact segment_iff hle hdisj (hl.aligned h (List.mem_append_right _ List.mem_cons_self)) hh
  constructor
  · intro hin pre h mid k post hphs a hh
    have hmem : h ∈ phs := by
      rw [hphs]
      exact List.mem_append_right _ List.mem_cons_self
    exact (hbehind pre h _ hphs a hh).mp (hin h hmem a hh) mid k post rfl
  · intro hedges h hh a ha
    obtain ⟨pre, post, hphs⟩ := List.append_of_mem hh
    refine (hbehind pre h post hphs a ha).mpr fun mid k rest hpost => ?_
    exact hedges pre h mid k rest (by rw [hphs, hpost]) a ha

/-- Edges agree when segments are as far apart in memory as in the image. -/
theorem edgesAgree_of_shift {shift : ℕ}
    (hshift : ∀ h ∈ phs, h.pPa.toNat = h.pOffset.toNat + 512 * shift) :
    EdgesAgree disk phs := by
  intro pre h mid k post hphs a hh hk _
  have hin : h ∈ phs ∧ k ∈ phs := by simp [hphs]
  obtain ⟨hfrom, -⟩ := hh
  obtain ⟨hsector, -⟩ := hk
  have hsh := hshift h hin.1
  have hsk := hshift k hin.2
  congr 1
  omega

/-! ### `bootmain` -/

theorem elfhdr_endsBelow : (⟨0, ELFHDR, SECTSIZE * 8⟩ : BootProghdr).EndsBelow := by
  rw [BootProghdr.EndsBelow]
  decide

/-- After the first `readseg` the page of the headers is in the scratch area. -/
theorem readseg_first (hr : readseg l disk fuel mem ELFHDR (SECTSIZE * 8) 0 = some mem') {j : ℕ}
    (hj : j < 4096) :
    mem' (ELFHDR + BitVec.ofNat 32 j) = imageMem disk (BitVec.ofNat 32 j) := by
  have hplace : (ELFHDR + BitVec.ofNat 32 j).toNat = 0x10000 + j := by
    rw [BitVec.toNat_add, BitVec.toNat_ofNat, show ELFHDR.toNat = 0x10000 from rfl]
    omega
  have hcov : (⟨0, ELFHDR, SECTSIZE * 8⟩ : BootProghdr).Covers (ELFHDR + BitVec.ofNat 32 j) := by
    rw [BootProghdr.Covers, hplace, show ELFHDR.toNat = 0x10000 from rfl,
      show (SECTSIZE * 8).toNat = 4096 from rfl]
    omega
  have hsource : (⟨0, ELFHDR, SECTSIZE * 8⟩ : BootProghdr).source
      (ELFHDR + BitVec.ofNat 32 j) = j := by
    rw [BootProghdr.source, hplace, show ELFHDR.toNat = 0x10000 from rfl,
      show (0 : Word).toNat = 0 from rfl]
    omega
  rw [readseg_spec (h := ⟨0, ELFHDR, SECTSIZE * 8⟩) elfhdr_endsBelow hr, overwrite,
    sectors_of_covers hcov, Option.getD_some, hsource, imageMem,
    BitVec.toNat_ofNat, Nat.mod_eq_of_lt (by omega)]

/-- With a good image `bootmain` comes to the loop, with the headers in the scratch area. -/
theorem bootmain_loop (helf : HoldsElf disk phs)
    (hr : readseg l disk fuel mem ELFHDR (SECTSIZE * 8) 0 = some mem') :
    ∃ ph eph, HeaderTable mem' ph eph phs ∧
      bootmain l disk fuel mem = (phLoop l disk eph fuel ph mem').bind fun m =>
        some (.entry m (wordAt m (ELFHDR + 24))) := by
  have hfield : ∀ k, k + 4 ≤ 4096 → wordAt mem' (ELFHDR + BitVec.ofNat 32 k) = wordAt
      (imageMem disk) (BitVec.ofNat 32 k) := by
    intro k hk
    refine wordAt_congr fun j hj => ?_
    rw [BitVec.add_assoc, ← BitVec.ofNat_add]
    exact readseg_first hr (by omega)
  have hmagic : wordAt mem' ELFHDR = ELF_MAGIC := (hfield 0 (by decide)).trans helf.magic
  have hphoff : wordAt mem' (ELFHDR + 28) = wordAt (imageMem disk) 28 := hfield 28 (by decide)
  have hphnum : halfAt mem' (ELFHDR + 44) = halfAt (imageMem disk) 44 := by
    refine halfAt_congr fun j hj => ?_
    have hj := readseg_first hr (show 44 + j < 4096 by omega)
    rwa [BitVec.ofNat_add, ← BitVec.add_assoc] at hj
  have hinPage := helf.inPage
  have hpage : PGSIZE.toNat = 4096 := rfl
  have helfhdr : ELFHDR.toNat = 0x10000 := rfl
  have hph : (ELFHDR + wordAt mem' (ELFHDR + 28)).toNat = 0x10000 +
      (wordAt (imageMem disk) 28).toNat := by
    rw [hphoff, BitVec.toNat_add, Nat.mod_eq_of_lt (by omega), helfhdr]
  have hsize : ((halfAt mem' (ELFHDR + 44)).setWidth 32 * sizeofProghdr).toNat = 32 *
      phs.length := by
    rw [hphnum, BitVec.toNat_mul, BitVec.toNat_setWidth, helf.phnum,
      show sizeofProghdr.toNat = 32 from rfl]
    omega
  refine ⟨ELFHDR + wordAt mem' (ELFHDR + 28),
    ELFHDR + wordAt mem' (ELFHDR + 28) + (halfAt mem' (ELFHDR + 44)).setWidth 32 * sizeofProghdr,
    ⟨?_, ?_, ?_, ?_⟩, ?_⟩
  · refine helf.headers.move fun j hj => ?_
    have hj := readseg_first hr (show (wordAt (imageMem disk) 28).toNat + j < 4096 by omega)
    rw [BitVec.ofNat_add, BitVec.ofNat_toNat, BitVec.setWidth_eq] at hj
    rw [hphoff, BitVec.add_assoc]
    exact hj
  · omega
  · rw [BitVec.toNat_add _ (_ * _), hph, hsize]
    omega
  · rw [BitVec.toNat_add _ (_ * _), hph, hsize]
    omega
  · unfold bootmain
    rw [hr]
    simp only [Option.bind_eq_bind, Option.bind_some, hmagic, ne_eq, not_true, if_false]
    rfl

/-- What `bootmain` has in memory when it calls the entry point. -/
theorem bootmain_spec (helf : HoldsElf disk phs) (hclear : ∀ h ∈ phs, h.Clear)
    (hends : ∀ h ∈ phs, h.EndsBelow) {eEntry : Word}
    (hb : bootmain l disk fuel mem = some (.entry mem' eEntry)) : ∃ m,
    mem' = overwrites (sectors disk) m phs := by
  cases hr : readseg l disk fuel mem ELFHDR (SECTSIZE * 8) 0 with
  | none =>
    rw [bootmain, hr] at hb
    cases hb
  | some m =>
    obtain ⟨ph, eph, ht, hloop⟩ := bootmain_loop helf hr
    rw [hloop, Option.bind_eq_some_iff] at hb
    obtain ⟨m', hm', hb⟩ := hb
    obtain ⟨rfl, -⟩ := BootEnd.entry.inj (Option.some.inj hb)
    exact ⟨m, phLoop_spec ht hclear hends hm'⟩

/-- The page of the headers is above the loader. -/
theorem elfhdr_spares (l : Loader) : (⟨0, ELFHDR, SECTSIZE * 8⟩ : BootProghdr).Spares l := by
  rintro a ⟨hfrom, -⟩ ⟨-, hto⟩
  have helf : ELFHDR.toNat = 0x10000 := rfl
  have hstart : bootStart.toNat + SECTSIZE.toNat = 0x7e00 := rfl
  rw [helf] at hfrom
  omega

/-- It calls the entry point exactly when no segment needs the last sector of the address space and
all spare the loader. -/
theorem bootmain_ends_iff (l : Loader) (mem : Word → BitVec 8) (helf : HoldsElf disk phs)
    (hclear : ∀ h ∈ phs, h.Clear)
    (hwrap : ∀ h ∈ phs, h.pPa.toNat + h.pMemsz.toNat < 2 ^ 32) :
    (∃ fuel mem' eEntry, bootmain l disk fuel mem = some (.entry mem' eEntry)) ↔ ∀ h ∈ phs,
        h.EndsBelow ∧ h.Spares l := by
  constructor
  · rintro ⟨fuel, mem', eEntry, hb⟩
    by_contra hbad
    cases hr : readseg l disk fuel mem ELFHDR (SECTSIZE * 8) 0 with
    | none =>
      rw [bootmain, hr] at hb
      cases hb
    | some m =>
      obtain ⟨ph, eph, ht, hloop⟩ := bootmain_loop helf hr
      rw [hloop, phLoop_never ht hclear hwrap hbad] at hb
      cases hb
  · intro hgood
    obtain ⟨m, hr⟩ := readseg_ends disk mem elfhdr_endsBelow (elfhdr_spares l)
      (by omega : 2 ^ 23 < 2 ^ 23 + phs.length + 1)
    obtain ⟨ph, eph, ht, hloop⟩ := bootmain_loop helf hr
    obtain ⟨m', hm'⟩ := phLoop_ends disk ht hclear (fun h hh => (hgood h hh).1)
      (fun h hh => (hgood h hh).2)
      (Nat.lt_succ_self (2 ^ 23 + phs.length))
    exact ⟨_, m', _, by rw [hloop, hm']; rfl⟩

/-- A segment at `0x100000`, and one right behind it that has the place `off` in the image. -/
def twoSegments (off : Word) : List BootProghdr := [⟨0x1000, 0x100000, 0x10⟩, ⟨off, 0x100010, 0x10⟩]

/-- A `struct Proghdr` with the low byte of `p_offset` and `p_pa`, and the second byte of
`p_offset`. -/
def proghdrBytes (lo hi : BitVec 8) : List (BitVec 8) :=
  [1, 0, 0, 0] ++ [lo, hi, 0, 0] ++ [0, 0, 0, 0] ++ [lo, 0, 0x10, 0] ++ [0, 0, 0, 0] ++
    [0x10, 0, 0, 0] ++ [0, 0, 0, 0] ++ [0, 0, 0, 0]

/-- The disk of an image with `twoSegments`; in the image there is a byte `1` at `0x1000`. -/
def twoSegmentsDisk (hi : BitVec 8) (j : ℕ) : BitVec 8 :=
  if j = 512 + 0x1000 then 1
  else ([0x7f, 0x45, 0x4c, 0x46] ++ List.replicate 24 0 ++ [52, 0, 0, 0] ++ List.replicate 12 0 ++
    [2, 0] ++ List.replicate 6 0 ++
    proghdrBytes 0 0x10 ++ proghdrBytes 0x10 hi).getD (j - 512) 0

theorem twoSegments_loadable {off : Word} (hoff : off.toNat % 512 = 0x10) :
    Loadable (twoSegments off) where
  increasing := by simp [twoSegments]
  disjoint := by
    simp only [twoSegments, List.pairwise_cons, List.mem_singleton, forall_eq, BootProghdr.Has]
    refine ⟨fun a ha => ?_, by simp⟩
    have hpa : (0x100000 : Word).toNat = 0x100000 := rfl
    have hmemsz : (0x10 : Word).toNat = 0x10 := rfl
    have hpa' : (0x100010 : Word).toNat = 0x100010 := rfl
    omega
  noWrap := by simp [twoSegments]
  clear := by simp [twoSegments, BootProghdr.Clear, ELFHDR, PGSIZE]
  aligned := by simp [twoSegments, hoff]

theorem twoSegments_endsBelow (off : Word) : ∀ h ∈ twoSegments off, h.EndsBelow := by
  simp [twoSegments, BootProghdr.EndsBelow]

theorem twoSegments_spares (off : Word) : ∀ h ∈ twoSegments off, h.Spares l := by
  have hstart : bootStart.toNat + SECTSIZE.toNat = 0x7e00 := rfl
  have hpa : ∀ h ∈ twoSegments off, 0x100000 ≤ h.pPa.toNat := by simp [twoSegments]
  rintro h hh a ⟨hfrom, -⟩ ⟨-, hto⟩
  have := hpa h hh
  omega

/-- A loader with 256 bytes of stack. -/
def bootLoader : Loader := ⟨0x7b00, by decide⟩

/-- A segment in the sector of the loader's stack is not loaded, whatever is on the disk. -/
example (mem : Word → BitVec 8) (helf : HoldsElf disk [⟨0x1000, 0x7a00, 0x10⟩])
    (hl : Loadable [⟨0x1000, 0x7a00, 0x10⟩]) :
    ¬ ∃ fuel mem' eEntry, bootmain bootLoader disk fuel mem = some (.entry mem' eEntry) := by
  rw [bootmain_ends_iff bootLoader mem helf hl.clear hl.noWrap]
  intro hgood
  exact (hgood _ List.mem_cons_self).2 0x7b00 ⟨by decide, by decide⟩ ⟨by decide, by decide⟩

end JOS
