import JOS.Print.Backends

/-!
# Printing to a buffer

`sprintputch` writes a character where `buf` points as long as that is before `ebuf`,
the last byte of the buffer, and counts it in any case. What has been written after any
number of characters is as much of them as there is room for (`SprintBuf.Holds`,
`SprintBuf.Holds.foldl`); `vsnprintf` puts a NUL after it (`vsnprintf_truncates`).
-/

namespace JOS

variable {rd : Word → Option (BitVec 8)} {mem mem' : Word → BitVec 8} {buf n : Word}
  {fmt : List (BitVec 8)} {ap cs : List Word}
  {b : SprintBuf}

/-- The `k` bytes of memory at `p`. -/
def bytesAt (mem : Word → BitVec 8) (p : Word) (k : ℕ) : List (BitVec 8) :=
  (List.range k).map fun i => mem (p + BitVec.ofNat 32 i)

theorem bytesAt_succ (mem : Word → BitVec 8) (p : Word) (k : ℕ) :
    bytesAt mem p (k + 1) = bytesAt mem p k ++ [mem (p + BitVec.ofNat 32 k)] := by
  rw [bytesAt, List.range_succ, List.map_append]
  rfl

/-- Bytes before the one that is written stay. -/
theorem bytesAt_update {p : Word} {i : ℕ} (x : BitVec 8) (hi : p.toNat + i < 2 ^ 32) :
    bytesAt (Function.update mem (p + BitVec.ofNat 32 i) x) p i = bytesAt mem p i := by
  refine List.map_congr_left fun j hj => Function.update_of_ne ?_ _ _
  rw [List.mem_range] at hj
  rw [ne_eq, ← BitVec.toNat_inj, BitVec.toNat_add, BitVec.toNat_add, BitVec.toNat_ofNat,
    BitVec.toNat_ofNat]
  omega

/-- After the characters `cs` from an empty buffer of `n` bytes at `buf`. -/
structure SprintBuf.Holds (mem : Word → BitVec 8) (buf n : Word) (cs : List Word)
    (b : SprintBuf) : Prop where
  ebuf : b.ebuf = buf + n - 1
  cnt : b.cnt = BitVec.ofNat 32 cs.length
  /-- `buf` points after what has been written. -/
  at_end : b.buf = buf + BitVec.ofNat 32 (min cs.length (n.toNat - 1))
  written : bytesAt b.mem buf (min cs.length (n.toNat - 1)) = lowBytes (cs.take (n.toNat - 1))
  frame : ∀ a : Word, n.toNat ≤ (a - buf).toNat → b.mem a = mem a

namespace SprintBuf.Holds

theorem nil (mem : Word → BitVec 8) (buf n : Word) :
    Holds mem buf n [] ⟨buf, buf + n - 1, 0, mem⟩ where
  ebuf := rfl
  cnt := rfl
  at_end := by simp
  written := by simp [bytesAt, lowBytes]
  frame _ _ := rfl

/-- There is room for one character more exactly when `buf` is not at the last byte. -/
theorem room (h : Holds mem buf n cs b) (hn : 1 ≤ n.toNat) (hfit : buf.toNat + n.toNat ≤ 2 ^ 32) :
    b.buf < b.ebuf ↔ cs.length < n.toNat - 1 := by
  have hlast : (buf + n - 1).toNat = buf.toNat + (n.toNat - 1) := by
    have hone : BitVec.toNat (1 : Word) = 1 := rfl
    rw [BitVec.toNat_sub, BitVec.toNat_add, hone]
    omega
  rw [h.ebuf, h.at_end, BitVec.lt_def, hlast, BitVec.toNat_add, BitVec.toNat_ofNat]
  omega

/-- One character more. -/
theorem sprintputch (h : Holds mem buf n cs b) (hn : 1 ≤ n.toNat)
    (hfit : buf.toNat + n.toNat ≤ 2 ^ 32) (ch : Word) :
    Holds mem buf n (cs ++ [ch]) (sprintputch ch b) := by
  have hcnt : b.cnt + 1 = BitVec.ofNat 32 (cs ++ [ch]).length := by
    rw [h.cnt, List.length_append, List.length_singleton, BitVec.ofNat_add]
    rfl
  rw [JOS.sprintputch]
  dsimp only
  by_cases hroom : b.buf < b.ebuf
  · have hlen : cs.length < n.toNat - 1 := (h.room hn hfit).mp hroom
    have hmin : min cs.length (n.toNat - 1) = cs.length := by omega
    have hmin' : min (cs ++ [ch]).length (n.toNat - 1) = cs.length + 1 := by
      rw [List.length_append, List.length_singleton]
      omega
    have hend : b.buf = buf + BitVec.ofNat 32 cs.length := hmin ▸ h.at_end
    have hwritten := h.written
    rw [hmin, List.take_of_length_le (by omega)] at hwritten
    rw [if_pos hroom]
    refine ⟨h.ebuf, hcnt, ?_, ?_, fun a ha => ?_⟩
    · rw [hmin', hend, BitVec.ofNat_add, BitVec.add_assoc]
      rfl
    · dsimp only
      rw [hmin', hend, bytesAt_succ, bytesAt_update _ (by omega), Function.update_self, hwritten,
        List.take_of_length_le (by rw [List.length_append, List.length_singleton]; omega), lowBytes,
        lowBytes, List.map_append]
      rfl
    · dsimp only
      rw [Function.update_of_ne _ _ _, h.frame a ha]
      rintro rfl
      rw [hend, BitVec.add_comm, BitVec.add_sub_cancel, BitVec.toNat_ofNat] at ha
      omega
  · have hlen : n.toNat - 1 ≤ cs.length := not_lt.mp fun hlt => hroom ((h.room hn hfit).mpr hlt)
    have hmin : min (cs ++ [ch]).length (n.toNat - 1) = min cs.length (n.toNat - 1) := by
      rw [List.length_append]
      omega
    rw [if_neg hroom]
    refine ⟨h.ebuf, hcnt, hmin ▸ h.at_end, ?_, h.frame⟩
    rw [hmin, h.written, List.take_append_of_le_length hlen]

/-- Any number of characters. -/
theorem foldl (hn : 1 ≤ n.toNat) (hfit : buf.toNat + n.toNat ≤ 2 ^ 32) :
    ∀ (cs cs' : List Word) (b : SprintBuf), Holds mem buf n cs b →
    Holds mem buf n (cs ++ cs') (cs'.foldl (fun d ch => JOS.sprintputch ch d) b) := by
  intro cs cs'
  induction cs' generalizing cs with
  | nil =>
    intro b h
    rwa [List.append_nil]
  | cons ch cs' ih =>
    intro b h
    have hrest := ih (cs ++ [ch]) _ (h.sprintputch hn hfit ch)
    rwa [List.append_assoc] at hrest

end SprintBuf.Holds

/-- What `vsnprintf` is for: of the characters `out`, those there is room for are in the buffer, a
NUL after them, and all of them are counted. -/
structure Truncates (mem : Word → BitVec 8) (buf n : Word) (out : List Word) (r : Word)
    (mem' : Word → BitVec 8) : Prop where
  ret : r = BitVec.ofNat 32 out.length
  written : bytesAt mem' buf (min out.length (n.toNat - 1)) = lowBytes (out.take (n.toNat - 1))
  nul : mem' (buf + BitVec.ofNat 32 (min out.length (n.toNat - 1))) = 0
  frame : ∀ a : Word, n.toNat ≤ (a - buf).toNat → mem' a = mem a
  /-- Where the next character, or the NUL, is written is inside the buffer at any moment. -/
  inside : ∀ cs, cs <+: out →
    ((cs.foldl (fun d ch => sprintputch ch d) ⟨buf, buf + n - 1, 0, mem⟩ : SprintBuf).buf -
      buf).toNat < n.toNat

theorem toNat_pos_of_toInt (hn : 1 ≤ n.toInt) : 1 ≤ n.toNat := by
  by_contra hlt
  have hz : n.toNat = 0 := by omega
  rw [BitVec.toInt_eq_toNat_cond, hz] at hn
  simp at hn

/-- A call with a buffer. -/
theorem vsnprintf_ok (hbuf : buf ≠ 0) (hn : 1 ≤ n.toInt) (hfit : buf.toNat + n.toNat ≤ 2 ^ 32)
    (h : (vprintfmt rd fmt ap).halt = none) :
    ∃ r mem', vsnprintf rd mem buf n fmt ap = .ok (r, mem') ∧
        Truncates mem buf n (vprintfmt rd fmt ap).out r mem' := by
  have hn' : 1 ≤ n.toNat := toNat_pos_of_toInt hn
  have hholds : ∀ cs, SprintBuf.Holds mem buf n cs
    (cs.foldl (fun d ch => sprintputch ch d) ⟨buf, buf + n - 1, 0, mem⟩) :=
    fun cs => SprintBuf.Holds.foldl hn' hfit [] cs _ (SprintBuf.Holds.nil mem buf n)
  have hend := hholds (vprintfmt rd fmt ap).out
  rw [vsnprintf, if_neg (not_or.mpr ⟨hbuf, not_lt.mpr hn⟩), runPutch_ok _ _ h, General.ok_bind]
  refine ⟨_, _, rfl, hend.cnt, ?_, ?_, fun a ha => ?_, fun cs _ => ?_⟩
  · rw [hend.at_end, bytesAt_update _ (by omega), hend.written]
  · rw [hend.at_end, Function.update_self]
  · rw [Function.update_of_ne _ _ _, hend.frame a ha]
    rintro rfl
    rw [hend.at_end, BitVec.add_comm, BitVec.add_sub_cancel, BitVec.toNat_ofNat] at ha
    omega
  · rw [(hholds cs).at_end, BitVec.add_comm, BitVec.add_sub_cancel, BitVec.toNat_ofNat]
    omega

/-- **`vsnprintf` truncates exactly.** -/
theorem vsnprintf_truncates (rd : Word → Option (BitVec 8)) (mem : Word → BitVec 8) (buf n : Word)
    (fmt : List (BitVec 8))
    (ap : List Word) :
    (buf ≠ 0 → 1 ≤ n.toInt → buf.toNat + n.toNat ≤ 2 ^ 32 → (vprintfmt rd fmt ap).halt = none →
      ∃ r mem', vsnprintf rd mem buf n fmt ap = .ok (r, mem') ∧
      Truncates mem buf n (vprintfmt rd fmt ap).out r mem') ∧
    (buf = 0 ∨ n.toInt < 1 → vsnprintf rd mem buf n fmt ap = .ok (-E_INVAL, mem)) :=
  ⟨vsnprintf_ok, fun hinval => by rw [vsnprintf, if_pos hinval]⟩

/-- Two of three characters fit. -/
theorem vsnprintf_truncates_short : ∃ r mem',
    vsnprintf (fun _ => none) (fun _ => 1) 0x1000 3 (bytes "%dab") [7] = .ok (r, mem') ∧
    Truncates (fun _ => 1) 0x1000 3 (chars "7ab") r mem' := by
  have hout : (vprintfmt (fun _ => none) (bytes "%dab") [7]).out = chars "7ab" := by decide
  have h := (vsnprintf_truncates (fun _ => none) (fun _ => 1) 0x1000 3 (bytes "%dab") [7]).1
    (by decide) (by decide) (by decide)
    (by decide)
  rwa [hout] at h

end JOS
