import JOS.Debug.Lookup
import JOS.Memory.UserMem

/-!
# `debuginfo_eip` and the tables of a program

A program names its tables of debugging information at `USTABDATA`, and `debuginfo_eip`
asks `user_mem_check` about them before it looks anything up (`debuginfoEip_cases`). It
asks for `stab_end - stabs` bytes, but there are so many entries of twelve bytes each; and
a range whose round-up wraps is checked on no page at all. `debuginfoEip_validates` says
what is enough for all that is read to be on pages that have been checked, and what has to
be so.
-/

namespace JOS

open JOS.General

variable {m : Mem} {d : ℕ} {n : ℤ} {addr : Word}

/-! ### The checks -/

/-- `user_mem_check(curenv, va, len, PTE_U)` returns 0. -/
def CheckPasses (m : Mem) (d : ℕ) (va len : Word) : Prop :=
  (userMemCheck m d va len PTE_U).map Prod.fst = .ok 0

/-- `a` is on a page that one of the calls has looked at. -/
def Verified (checked : List (Word × Word)) (a : Word) : Prop :=
  ∃ q ∈ checked, ROUNDDOWN q.1 PGSIZE ≤ a ∧ a < ROUNDUP (q.1 + q.2) PGSIZE

instance (checked : List (Word × Word)) (a : Word) : Decidable (Verified checked a) := by
  unfold Verified
  infer_instance

/-- A check comes to an end, with 0 or with another value. -/
theorem checkPasses_cases (htables : TablesInMemory m d) (va len : Word) : ∃ r bad,
    userMemCheck m d va len PTE_U = .ok (r, bad) ∧ (CheckPasses m d va len ↔ r = 0) := by
  obtain ⟨bad, r, heq, -⟩ := userMemCheck_eq htables va len PTE_U
  exact ⟨r, bad, heq, by rw [CheckPasses, heq, Except.map, Except.ok.injEq]⟩

/-- What has been checked is user memory. -/
theorem Verified.lt_ULIM {checked : List (Word × Word)} {a : Word} (htables : TablesInMemory m d)
    (hpass : ∀ q ∈ checked, CheckPasses m d q.1 q.2) (h : Verified checked a) : a < ULIM := by
  obtain ⟨q, hq, hge, hlt⟩ := h
  obtain ⟨bad, r, heq, -, hiff⟩ := userMemCheck_eq htables q.1 q.2 PTE_U
  have hr : r = 0 := by
    have := hpass q hq
    rw [CheckPasses, heq] at this
    exact Except.ok.inj this
  rw [BitVec.le_def, ROUNDDOWN_toNat] at hge
  rw [BitVec.lt_def, ROUNDUP_add_toNat] at hlt
  exact (hiff.mp hr a hge hlt).1

/-- The three calls, for `n` entries. -/
def UserStabData.ranges (usd : UserStabData) (n : ℤ) : List (Word × Word) :=
  [(USTABDATA, 16), (usd.stabs, BitVec.ofInt 32 n), (usd.stabstr, usd.stabstrEnd - usd.stabstr)]

theorem mem_addrsFrom {p a : Word} {k : ℕ} : a ∈ addrsFrom p k ↔ ∃ j < k,
    a = p + BitVec.ofNat 32 j := by
  simp only [addrsFrom, List.mem_map, List.mem_range, eq_comm]

/-- The page of the header. -/
theorem verified_headerPage {checked : List (Word × Word)} {a : Word} (hge : 0x200000 ≤ a.toNat)
    (hlt : a.toNat < 0x201000) :
    Verified ((USTABDATA, 16) :: checked) a := by
  refine ⟨(USTABDATA, 16), List.mem_cons_self, ?_, ?_⟩
  · rw [BitVec.le_def, show (ROUNDDOWN USTABDATA PGSIZE).toNat = 0x200000 from rfl]
    exact hge
  · rw [BitVec.lt_def, show (ROUNDUP (USTABDATA + 16) PGSIZE).toNat = 0x201000 from rfl]
    exact hlt

theorem verified_header {checked : List (Word × Word)} : ∀ a ∈ addrsFrom USTABDATA 16,
    Verified ((USTABDATA, 16) :: checked) a := by
  intro a ha
  obtain ⟨j, hj, rfl⟩ := mem_addrsFrom.mp ha
  have hsum : (USTABDATA + BitVec.ofNat 32 j).toNat = 0x200000 + j := by
    rw [BitVec.toNat_add, BitVec.toNat_ofNat, show USTABDATA.toNat = 0x200000 from rfl]
    omega
  exact verified_headerPage (by omega) (by omega)

/-- The bytes of a string table that does not reach into the last page. -/
theorem verified_strings {usd : UserStabData} {a : Word} (hlt : usd.stabstr < usd.stabstrEnd)
    (hlast : usd.stabstrEnd ≤ 0xfffff000)
    (ha : (a - usd.stabstr).toNat < (usd.stabstrEnd - usd.stabstr).toNat) :
    Verified (usd.ranges n) a := by
  have hge : usd.stabstr.toNat ≤ a.toNat := by
    bv_omega
  have hle : a.toNat < usd.stabstrEnd.toNat := by
    bv_omega
  refine ⟨(usd.stabstr, usd.stabstrEnd - usd.stabstr), ?_, ?_, ?_⟩
  · exact List.mem_cons_of_mem _ (List.mem_cons_of_mem _ List.mem_cons_self)
  · rw [BitVec.le_def, ROUNDDOWN_toNat]
    dsimp only
    omega
  · -- the round-up does not wrap
    rw [BitVec.lt_def, ROUNDUP_add_toNat, BitVec.toNat_sub_of_le (BitVec.le_of_lt hlt)]
    have hlast' : usd.stabstrEnd.toNat ≤ 0xfffff000 := hlast
    dsimp only
    omega

/-! ### The calls one after the other -/

/-- **What `debuginfo_eip` does** for a user address: the header, the two tables, the lookup. -/
theorem debuginfoEip_cases (kern : DebugTables) (htables : TablesInMemory m d)
    (haddr : addr < ULIM) :
    (¬ CheckPasses m d USTABDATA 16 ∧ debuginfoEip kern m d addr = .ok ⟨-1, .init addr, [], []⟩) ∨
    (CheckPasses m d USTABDATA 16 ∧
      (((userStabData m d).count = none ∧ debuginfoEip kern m d addr = .error .undef) ∨
      ∃ n, (userStabData m d).count = some n ∧
        (((¬ CheckPasses m d (userStabData m d).stabs (BitVec.ofInt 32 n) ∨
            ¬ CheckPasses m d (userStabData m d).stabstr
              ((userStabData m d).stabstrEnd - (userStabData m d).stabstr)) ∧
          ∃ checked, debuginfoEip kern m d addr = .ok ⟨-1, .init addr, (USTABDATA, 16) :: checked,
            addrsFrom USTABDATA 16⟩) ∨
        ((∀ q ∈ (userStabData m d).ranges n, CheckPasses m d q.1 q.2) ∧
          ∀ run, lookupEip ((userStabData m d).tables m d n) addr = some run →
            debuginfoEip kern m d addr = .ok ⟨run.ret, run.info,
            (userStabData m d).ranges n, addrsFrom USTABDATA 16 ++
              run.stabReads.flatMap (fun i => addrsFrom (stabAddr (userStabData m d).stabs i) 12) ++
                  run.strReads⟩)))) := by
  obtain ⟨r₁, bad₁, heq₁, hpass₁⟩ := checkPasses_cases htables USTABDATA 16
  rw [debuginfoEip, if_neg (BitVec.not_le.mpr haddr), heq₁, ok_bind]
  dsimp only
  by_cases hr₁ : r₁ = 0
  swap
  · exact .inl ⟨mt hpass₁.mp hr₁, by rw [if_pos hr₁]; rfl⟩
  rw [if_neg (not_not.mpr hr₁)]
  refine .inr ⟨hpass₁.mpr hr₁, ?_⟩
  cases hcount : (userStabData m d).count with
  | none => exact .inl ⟨rfl, rfl⟩
  | some n =>
    refine .inr ⟨n, rfl, ?_⟩
    dsimp only
    obtain ⟨r₂, bad₂, heq₂, hpass₂⟩ :=
      checkPasses_cases htables (userStabData m d).stabs (BitVec.ofInt 32 n)
    rw [heq₂, ok_bind]
    dsimp only
    by_cases hr₂ : r₂ = 0
    swap
    · exact .inl ⟨.inl (mt hpass₂.mp hr₂), [], by rw [if_pos hr₂]; rfl⟩
    rw [if_neg (not_not.mpr hr₂)]
    obtain ⟨r₃, bad₃, heq₃, hpass₃⟩ := checkPasses_cases htables (userStabData m d).stabstr
      ((userStabData m d).stabstrEnd - (userStabData m d).stabstr)
    rw [heq₃, ok_bind]
    dsimp only
    by_cases hr₃ : r₃ = 0
    swap
    · exact .inl ⟨.inr (mt hpass₃.mp hr₃), [_], by rw [if_pos hr₃]; rfl⟩
    rw [if_neg (not_not.mpr hr₃)]
    refine .inr ⟨?_, fun run hrun => by rw [hrun]; rfl⟩
    simp only [UserStabData.ranges, List.forall_mem_cons]
    exact ⟨hpass₁.mpr hr₁, hpass₂.mpr hr₂, hpass₃.mpr hr₃, fun q hq => absurd hq List.not_mem_nil⟩

/-! ### What the lookup reads -/

/-- All entries; and the two below the table, when the search comes off the left end. -/
def WholeTable (addr : Word) (t : DebugTables) (i : ℤ) : Prop :=
  (0 ≤ i ∧ i < t.count) ∨ (OffLeft t.stabs N_SO addr (t.count - 1) ∧ (i = -1 ∨ i = -2))

/-- The entry in the middle; and the one below the table, when the search comes off the left end. -/
def MiddleEntry (addr : Word) (t : DebugTables) (i : ℤ) : Prop :=
  i = (t.count - 1) / 2 ∨ (OffLeft t.stabs N_SO addr (t.count - 1) ∧ i = -1)

/-- What a lookup reads of any tables, and what it reads of those that are usable. -/
structure LookupReads (t : DebugTables) (addr : Word) (run : DebugRun) : Prop where
  strings : ∀ a ∈ run.strReads, t.stabstr < t.stabstrEnd ∧ t.InStrings a
  last : t.stabstr < t.stabstrEnd → t.stabstrEnd - 1 ∈ run.strReads
  entries : ∀ i ∈ run.stabReads, t.Terminated ∧ 1 ≤ t.count ∧ WholeTable addr t i
  middle : t.Terminated → 1 ≤ t.count → ∀ i, MiddleEntry addr t i → i ∈ run.stabReads

/-- The last byte is all that is read of tables that are not usable. -/
theorem LookupReads.unusable {t : DebugTables} {info : Eipdebuginfo}
    (hlt : t.stabstr < t.stabstrEnd)
    (h : ¬ (t.Terminated ∧ 1 ≤ t.count)) :
    LookupReads t addr ⟨-1, info, [], [t.stabstrEnd - 1]⟩ where
  strings a ha := by
    rw [List.mem_singleton.mp ha, DebugTables.InStrings]
    refine ⟨hlt, ?_⟩
    bv_omega
  last _ := List.mem_cons_self
  entries i hi := absurd hi List.not_mem_nil
  middle ht hcount := absurd ⟨ht, hcount⟩ h

/-- Every lookup comes to an end. -/
theorem lookupEip_ends (t : DebugTables) (addr : Word) : ∃ run,
    lookupEip t addr = some run ∧ LookupReads t addr run := by
  by_cases hlt : t.stabstrEnd ≤ t.stabstr
  · exact ⟨⟨-1, .init addr, [],
      []⟩, by rw [lookupEip, if_pos hlt]; rfl, fun a ha => absurd ha List.not_mem_nil,
      fun h => absurd h (BitVec.not_lt.mpr hlt), fun i hi => absurd hi List.not_mem_nil,
      fun h => absurd h.lt (BitVec.not_lt.mpr hlt)⟩
  have hlt' : t.stabstr < t.stabstrEnd := BitVec.not_le.mp hlt
  by_cases hnul : t.byte (t.stabstrEnd - 1) = 0
  swap
  · exact ⟨_, by rw [lookupEip, if_neg hlt, if_pos hnul]; rfl, .unusable hlt' fun h => hnul h.1.nul⟩
  by_cases hcount : t.count < 1
  · -- a search of nothing ends at once
    have hnone : searchStep t.stabs N_SO ⟨0, t.count - 1, 0, t.count - 1, addr, false, []⟩ = none :=
      searchStep_none.mpr (by dsimp only; omega)
    have hfile : stabBinsearch t.stabs 0 (t.count - 1) N_SO addr = some (0, -1, []) := by
      rw [stabBinsearch, searchFuel, stabSearch, hnone]
      rfl
    exact ⟨_, by rw [lookupEip, if_neg hlt, if_neg (not_not.mpr hnul), hfile]; rfl,
      .unusable hlt' fun h => absurd h.2 (not_le.mpr hcount)⟩
  obtain ⟨run, hrun, ⟨hlast, hstrs⟩, hmiddle, hreads⟩ :=
    lookupEip_reads t addr (not_lt.mp hcount) ⟨hlt', hnul⟩
  refine ⟨run, hrun, fun a ha => ⟨hlt', hstrs a ha⟩, fun _ => hlast, fun i hi =>
    ⟨⟨hlt', hnul⟩, not_lt.mp hcount, ?_⟩,
    fun _ _ i hi => ?_⟩
  · rcases hreads with ⟨hoff, -, hreads⟩ | ⟨-, hreads⟩
    · have := hreads i hi
      by_cases hpos : 0 ≤ i
      · exact .inl ⟨hpos, this.2⟩
      · exact .inr ⟨hoff, by omega⟩
    · exact .inl (hreads i hi)
  · rcases hi with rfl | ⟨hoff, rfl⟩
    · exact hmiddle
    · rcases hreads with ⟨-, hbelow, -⟩ | ⟨hoff', -⟩
      · exact hbelow
      · exact absurd hoff hoff'

/-! ### What is enough, and what has to be -/

/-- `debuginfo_eip` reads user memory only on pages that `user_mem_check` has looked at, and returns
a negative value when a check does not pass. -/
def Validates (kern : DebugTables) (m : Mem) (d : ℕ) (addr : Word) : Prop :=
  ∃ run, debuginfoEip kern m d addr = .ok run ∧ (∀ a ∈ run.reads, Verified run.checked a) ∧
    ((¬ ∃ n, (userStabData m d).count = some n ∧ ∀ q ∈ (userStabData m d).ranges n,
      CheckPasses m d q.1 q.2) → run.ret < 0)

/-- The tables that pass the checks: the string table does not reach into the last page, and when it
ends with a NUL and the other is not empty, the entries `E` of that are on pages that have been
checked. -/
structure EntriesVerified (m : Mem) (d : ℕ) (usd : UserStabData) (n : ℤ)
    (E : DebugTables → ℤ → Prop) : Prop where
  strings : usd.stabstrEnd ≤ 0xfffff000
  entries : userByte m d (usd.stabstrEnd - 1) = 0 → 1 ≤ n → ∀ i, E (usd.tables m d n) i →
    ∀ a ∈ addrsFrom (stabAddr usd.stabs i) 12, Verified (usd.ranges n) a

/-- What is asked of the header at `USTABDATA`, for the entries `E`. -/
def HeaderVerified (m : Mem) (d : ℕ) (E : DebugTables → ℤ → Prop) : Prop :=
  CheckPasses m d USTABDATA 16 → ∃ n, (userStabData m d).count = some n ∧
    ((∀ q ∈ (userStabData m d).ranges n, CheckPasses m d q.1 q.2) →
      (userStabData m d).stabstr < (userStabData m d).stabstrEnd →
      EntriesVerified m d (userStabData m d) n E)

/-- A string table whose last byte is checked does not reach into the last page. -/
theorem strings_of_verified {usd : UserStabData} (htables : TablesInMemory m d)
    (hpass : ∀ q ∈ usd.ranges n, CheckPasses m d q.1 q.2)
    (h : Verified (usd.ranges n) (usd.stabstrEnd - 1)) : usd.stabstrEnd ≤ 0xfffff000 := by
  have hlast := h.lt_ULIM htables hpass
  have : ULIM.toNat = 0xef800000 := rfl
  bv_omega

/-- **`debuginfo_eip` reads what it has checked** when the whole table is on pages that have been
checked, and only when the entry in the middle is. -/
theorem debuginfoEip_validates (kern : DebugTables) (htables : TablesInMemory m d)
    (haddr : addr < ULIM) :
    (HeaderVerified m d (WholeTable addr) → Validates kern m d addr) ∧
      (Validates kern m d addr → HeaderVerified m d (MiddleEntry addr)) := by
  have hneg : (-1 : ℤ) < 0 := by decide
  rcases debuginfoEip_cases kern htables haddr with ⟨hfail, heq⟩ |
    ⟨hhdr, ⟨hcount, heq⟩ | ⟨n, hcount, ⟨hfail, checked, heq⟩ | ⟨hpass, heq⟩⟩⟩
  · -- the header
    exact ⟨fun _ => ⟨_, heq, fun a ha => absurd ha List.not_mem_nil, fun _ => hneg⟩, fun _ h =>
      absurd h hfail⟩
  · -- the difference of the pointers
    constructor
    · intro h
      obtain ⟨n, hn, -⟩ := h hhdr
      rw [hcount] at hn
      cases hn
    · rintro ⟨run, hrun, -⟩
      rw [heq] at hrun
      cases hrun
  · -- the tables
    refine ⟨fun _ => ⟨_, heq, verified_header, fun _ => hneg⟩, fun _ _ =>
      ⟨n, hcount, fun hall => ?_⟩⟩
    simp only [UserStabData.ranges, List.forall_mem_cons] at hall
    exact absurd hall.2.1 (hfail.resolve_right fun h => h hall.2.2.1)
  · -- the lookup
    obtain ⟨run, hrun, h⟩ := lookupEip_ends ((userStabData m d).tables m d n) addr
    constructor
    · intro hheader
      obtain ⟨n', hn', hok⟩ := hheader hhdr
      cases hcount.symm.trans hn'
      refine ⟨_, heq run hrun, fun a ha => ?_, fun hno => absurd ⟨n, hcount, hpass⟩ hno⟩
      rcases List.mem_append.mp ha with ha | ha
      · rcases List.mem_append.mp ha with ha | ha
        · exact verified_header a ha
        · obtain ⟨i, hi, ha⟩ := List.mem_flatMap.mp ha
          obtain ⟨hterm, hone, hwhole⟩ := h.entries i hi
          exact (hok hpass hterm.lt).entries hterm.nul hone i hwhole a ha
      · obtain ⟨hlt, hin⟩ := h.strings a ha
        exact verified_strings hlt (hok hpass hlt).strings hin
    · rintro ⟨run', hrun', hverified, -⟩ -
      cases (heq run hrun).symm.trans hrun'
      refine ⟨n, hcount, fun _ hlt => ⟨?_, fun hnul hone i hi a ha => ?_⟩⟩
      · exact strings_of_verified htables hpass (hverified _ (List.mem_append_right _ (h.last hlt)))
      · exact hverified a (List.mem_append_left _ (List.mem_append_right _
          (List.mem_flatMap.mpr ⟨i, h.middle ⟨hlt, hnul⟩ hone i hi, ha⟩)))

/-- An address space with one page, at `USTABDATA`. -/
def debugMem (words : ℕ → Word) : Mem :=
  { bootMem with
    phys := fun p i =>
      if p = 0x10 then (if i = 0 then 0x11007 else 0)
      else if p = 0x11 then (if i = 0x200 then 0x12007 else 0)
      else if p = 0x12 then words i
      else 0 }

theorem debugMem_tables (words : ℕ → Word) : TablesInMemory (debugMem words) 0x10 := by
  intro i _ h
  have h' : test (if i = 0 then (0x11007 : Word) else 0) PTE_P = true := h
  show PGNUM (if i = 0 then (0x11007 : Word) else 0) < 16452
  split_ifs at h' ⊢ <;> decide

/-- A header, a table of two entries and a string table, one behind the other. -/
def twoEntries (i : ℕ) : Word :=
  [0x200010, 0x200028, 0x200028, 0x200029, 0, 0, 1, 0, 0x64, 0x800000].getD i 0

theorem debuginfoEip_validates_twoEntries :
    Validates (fileTable []) (debugMem twoEntries) 0x10 0x800020 := by
  refine (debuginfoEip_validates (fileTable []) (debugMem_tables twoEntries) (by decide)).1 fun _ =>
    ?_
  have husd : userStabData (debugMem twoEntries) 0x10 = ⟨0x200010, 0x200028, 0x200028,
    0x200029⟩ := by decide +kernel
  rw [husd]
  refine ⟨2, by decide, fun _ _ => ⟨by decide, fun _ _ i hi a ha => ?_⟩⟩
  have hi' : 0 ≤ i ∧ i < 2 := by
    rcases hi with hi | ⟨⟨hp, -⟩ | ⟨hp, hm, -⟩, -⟩
    · exact hi
    · exact absurd (hp.scan.stops le_rfl) (by decide +kernel)
    · have hmid := hp.mid
      have := hp.scan.le
      rw [show (UserStabData.tables ⟨0x200010, 0x200028, 0x200028, 0x200029⟩
        (debugMem twoEntries) 0x10 2).count = 2 from rfl] at hmid
      omega
  obtain ⟨k, hk, rfl⟩ := mem_addrsFrom.mp ha
  have haddr : (stabAddr 0x200010 i).toNat = 0x200010 + 12 * i.toNat := by
    obtain rfl | rfl : i = 0 ∨ i = 1 := by omega
    · rfl
    · rfl
  have hsum : (stabAddr 0x200010 i + BitVec.ofNat 32 k).toNat = 0x200010 + 12 * i.toNat + k := by
    rw [BitVec.toNat_add, BitVec.toNat_ofNat, haddr]
    omega
  exact verified_headerPage (by dsimp only; omega) (by dsimp only; omega)

/-- A header whose table is one entry that begins at the end of the page. -/
def lastEntry (i : ℕ) : Word := if i = 1023 then 0x64
    else [0x200ff8, 0x201004, 0x200010, 0x200011].getD i 0

/-- The check of one byte lets the table through, and its last word is not mapped. -/
theorem not_validates : TablesInMemory (debugMem lastEntry) 0x10 ∧ (0x800020 : Word) < ULIM ∧
    ¬ Validates (fileTable []) (debugMem lastEntry) 0x10 0x800020 := by
  refine ⟨debugMem_tables lastEntry, by decide, ?_⟩
  rintro ⟨run, hrun, hreads, -⟩
  have hall : (debuginfoEip (fileTable []) (debugMem lastEntry) 0x10 0x800020).map
      (fun run => run.reads.all fun a => decide (Verified run.checked a)) = .ok false := by
        decide +kernel
  rw [hrun] at hall
  have hfalse := Except.ok.inj hall
  rw [List.all_eq_false] at hfalse
  obtain ⟨a, ha, hno⟩ := hfalse
  exact hno (decide_eq_true (hreads a ha))

end JOS
