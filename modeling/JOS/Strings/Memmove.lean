import JOS.Lib.String
import Mathlib.Data.BitVec
import Mathlib.Tactic.Ring

/-!
# The two versions of `memmove`

Both copy the range as it was before, whichever way they go and however the ranges overlap
(`memmove_eq`). The invariant of all the loops is `MovedTo`: of the destination the places from `lo`
to `hi` have been written, with what the source had at the beginning. A move reads only places of
the source that have not been written, for moves of any number of bytes; the alignment does not
matter for this.
-/

namespace JOS

variable {mem mem' : Word → BitVec 8} {dst src n : Word} {c k lo hi t len : ℕ}

/-- Places `lo, …, hi - 1` of the destination have what the source had in `mem`; all else is as in
`mem`. -/
def MovedTo (mem : Word → BitVec 8) (dst src : Word) (lo hi : ℕ) (mem' : Word → BitVec 8) : Prop :=
  ∀ a, mem' a = if lo ≤ (a - dst).toNat ∧ (a - dst).toNat < hi then mem (src + (a - dst)) else mem a

theorem MovedTo.refl (mem : Word → BitVec 8) (dst src : Word) (t : ℕ) :
    MovedTo mem dst src t t mem := fun a => by
  rw [if_neg (by omega)]

theorem MovedTo.unique {mem₁ : Word → BitVec 8} (h : MovedTo mem dst src lo hi mem')
    (h₁ : MovedTo mem dst src lo hi mem₁) :
    mem' = mem₁ :=
  funext fun a => (h a).trans (h₁ a).symm

/-- The places a move writes. -/
theorem move_place (a dst : Word) (htc : t + c ≤ 2 ^ 32) :
    (a - (dst + BitVec.ofNat 32 t)).toNat < c ↔ t ≤ (a - dst).toNat ∧ (a - dst).toNat < t + c := by
  have hsub : a - (dst + BitVec.ofNat 32 t) = (a - dst) - BitVec.ofNat 32 t := by ring
  rw [hsub]
  generalize a - dst = x
  by_cases ht : t < 2 ^ 32
  · rw [BitVec.toNat_sub, BitVec.toNat_ofNat, Nat.mod_eq_of_lt ht]
    omega
  · omega

/-- **A move** of the `c` bytes at place `t`, which the source still has. -/
theorem MovedTo.move {s : Movs} (h : MovedTo mem dst src lo hi s.mem)
    (hedi : s.edi = dst + BitVec.ofNat 32 t)
    (hesi : s.esi = src + BitVec.ofNat 32 t) (htc : t + c ≤ 2 ^ 32) {lo' hi' : ℕ}
    (hjoin : ∀ i, lo' ≤ i ∧ i < hi' ↔ (lo ≤ i ∧ i < hi) ∨ (t ≤ i ∧ i < t + c))
    (hread : ∀ x : Word, t ≤ x.toNat → x.toNat < t + c →
    ¬ (lo ≤ (src + x - dst).toNat ∧ (src + x - dst).toNat < hi)) :
    MovedTo mem dst src lo' hi' (s.move c).mem := by
  intro a
  have hsrc : s.esi + (a - s.edi) = src + (a - dst) := by
    rw [hedi, hesi]
    ring
  simp only [Movs.move, hsrc]
  rw [hedi]
  simp only [move_place a dst htc]
  by_cases hin : t ≤ (a - dst).toNat ∧ (a - dst).toNat < t + c
  · rw [if_pos hin, if_pos ((hjoin _).mpr (.inr hin)), h, if_neg (hread (a - dst) hin.1 hin.2)]
  · rw [if_neg hin, h]
    by_cases hold : lo ≤ (a - dst).toNat ∧ (a - dst).toNat < hi
    · rw [if_pos hold, if_pos ((hjoin _).mpr (.inl hold))]
    · rw [if_neg hold, if_neg fun hnew => ((hjoin _).mp hnew).elim hold hin]

/-! ### Upwards -/

/-- Going up, a move reads what lies ahead of the places written, or the ranges are apart. -/
theorem read_up (hsrc : src.toNat + len ≤ 2 ^ 32) (hdst : dst.toNat + len ≤ 2 ^ 32)
    (hdir : dst.toNat ≤ src.toNat ∨ src.toNat + len ≤ dst.toNat) {x : Word} (ht : t ≤ x.toNat)
    (hx : x.toNat < len) :
    ¬ (0 ≤ (src + x - dst).toNat ∧ (src + x - dst).toNat < t) := by
  rw [BitVec.toNat_sub, BitVec.toNat_add]
  omega

theorem rep_up (hsrc : src.toNat + len ≤ 2 ^ 32) (hdst : dst.toNat + len ≤ 2 ^ 32)
    (hdir : dst.toNat ≤ src.toNat ∨ src.toNat + len ≤ dst.toNat) :
    ∀ (k t : ℕ) (s : Movs), t + c * k = len → s.df = false → s.edi = dst + BitVec.ofNat 32 t →
      s.esi = src + BitVec.ofNat 32 t →
      MovedTo mem dst src 0 t s.mem → MovedTo mem dst src 0 len (s.rep c k).mem ∧
      (s.rep c k).df = false := by
  intro k
  induction k with
  | zero =>
    intro t s hlen hdf _ _ h
    have htl : t = len := by omega
    exact ⟨htl ▸ h, hdf⟩
  | succ k ih =>
    intro t s hlen hdf hedi hesi h
    have hck : t + c + c * k = len := by
      rw [← hlen, Nat.mul_succ]
      omega
    have hmove : MovedTo mem dst src 0 (t + c) (s.move c).mem := by
      refine h.move hedi hesi (by omega) (fun i => by omega) fun x ht hx => ?_
      exact read_up hsrc hdst hdir ht (by omega)
    refine ih (t + c) (s.move c) hck hdf ?_ ?_ hmove
    · rw [Movs.move, hdf, hedi, BitVec.ofNat_add]
      exact BitVec.add_assoc _ _ _
    · rw [Movs.move, hdf, hesi, BitVec.ofNat_add]
      exact BitVec.add_assoc _ _ _

/-! ### Downwards -/

/-- Going down, a move reads what lies before the places written. -/
theorem read_down (hdst : dst.toNat + len ≤ 2 ^ 32) (hdir : src.toNat < dst.toNat) {x : Word}
    (hx : x.toNat < hi) :
    ¬ (hi ≤ (src + x - dst).toNat ∧ (src + x - dst).toNat < len) := by
  rw [BitVec.toNat_sub, BitVec.toNat_add]
  omega

theorem rep_down (hdst : dst.toNat + len ≤ 2 ^ 32) (hdir : src.toNat < dst.toNat) :
    ∀ (k : ℕ) (s : Movs), c * k ≤ len → s.df = true →
      s.edi = dst + BitVec.ofNat 32 (c * k) - BitVec.ofNat 32 c →
      s.esi = src + BitVec.ofNat 32 (c * k) - BitVec.ofNat 32 c →
        MovedTo mem dst src (c * k) len s.mem →
        MovedTo mem dst src 0 len (s.rep c k).mem := by
  intro k
  induction k with
  | zero =>
    intro s _ _ _ _ h
    exact h
  | succ k ih =>
    intro s hlen hdf hedi hesi h
    have hck : c * (k + 1) = c * k + c := Nat.mul_succ c k
    have hback : ∀ p : Word, p + BitVec.ofNat 32 (c * (k + 1)) - BitVec.ofNat 32 c = p +
        BitVec.ofNat 32 (c * k) := by
      intro p
      rw [hck, BitVec.ofNat_add, ← BitVec.add_assoc, BitVec.add_sub_cancel]
    rw [hback] at hedi hesi
    rw [hck] at hlen h
    have hmove : MovedTo mem dst src (c * k) len (s.move c).mem := by
      refine h.move hedi hesi (by omega) (fun i => by omega) fun x _ hx => ?_
      exact read_down hdst hdir hx
    refine ih (s.move c) (by omega) hdf ?_ ?_ hmove
    · rw [Movs.move, hdf, hedi]
      rfl
    · rw [Movs.move, hdf, hesi]
      rfl

/-! ### The plain loops -/

theorem move_one (s : Movs) : (s.move 1).mem = Function.update s.mem s.edi (s.mem s.esi) := by
  funext a
  by_cases ha : a = s.edi
  · have hzero : s.edi - s.edi = 0 := BitVec.sub_self _
    have hlt : (s.edi - s.edi).toNat < 1 := by
      rw [hzero]
      decide
    rw [ha, Function.update_self]
    have hmem : (s.move 1).mem s.edi = s.mem (s.esi + (s.edi - s.edi)) := if_pos hlt
    rw [hmem, hzero, BitVec.ofNat_eq_ofNat, BitVec.add_zero]
  · have hne : ¬ (a - s.edi).toNat < 1 := by
      intro hlt
      have hzero : a - s.edi = 0 := BitVec.eq_of_toNat_eq (Nat.lt_one_iff.mp hlt)
      exact ha (sub_eq_zero.mp hzero)
    rw [Function.update_of_ne ha]
    exact if_neg hne

theorem copyUp_eq (k : ℕ) (mem : Word → BitVec 8) (d s : Word) :
    copyUp mem d s k = (Movs.rep 1 k ⟨mem, d, s, false⟩).mem := by
  induction k generalizing mem d s with
  | zero => rfl
  | succ k ih =>
    rw [copyUp, Movs.rep, ih]
    congr 2
    exact (congrArg (fun m => Movs.mk m (d + 1) (s + 1) false) (move_one ⟨mem, d, s, false⟩)).symm

theorem copyDown_eq (k : ℕ) (mem : Word → BitVec 8) (d s : Word) :
    copyDown mem d s k = (Movs.rep 1 k ⟨mem, d - 1, s - 1, true⟩).mem := by
  induction k generalizing mem d s with
  | zero => rfl
  | succ k ih =>
    rw [copyDown, Movs.rep, ih]
    congr 2
    exact (congrArg (fun m => Movs.mk m (d - 1 - 1) (s - 1 - 1) true)
      (move_one ⟨mem, d - 1, s - 1, true⟩)).symm

/-! ### `memmove` -/

/-- A count in words. -/
theorem words_eq (h : n % 4 = 0) : 4 * (n / 4).toNat = n.toNat := by
  have hmod := congrArg BitVec.toNat h
  rw [BitVec.toNat_umod] at hmod
  have hmod : n.toNat % 4 = 0 := hmod
  rw [BitVec.toNat_udiv]
  have hdiv : 4 * (n.toNat / 4) = n.toNat := by omega
  exact hdiv

/-- Downwards, when the source begins below the destination and reaches into it. -/
theorem memmove_down (mem : Word → BitVec 8) (hdst : dst.toNat + n.toNat ≤ 2 ^ 32)
    (hdown : src < dst ∧ src + n > dst) :
    ∃ mem', memmove mem dst src n = (dst, mem', false) ∧ memmovePlain mem dst src n = (dst, mem') ∧
      MovedTo mem dst src 0 n.toNat mem' := by
  have hdir : src.toNat < dst.toNat := BitVec.lt_def.mp hdown.1
  rw [memmove, memmovePlain]
  simp only [if_pos hdown, copyDown_eq]
  -- in moves of `c` bytes
  have hmoved : ∀ c k, c * k = n.toNat → MovedTo mem dst src 0 n.toNat
      (Movs.rep c k ⟨mem, dst + n - BitVec.ofNat 32 c, src + n - BitVec.ofNat 32 c, true⟩).mem := by
    intro c k hck
    have hn : BitVec.ofNat 32 (c * k) = n := by rw [hck, BitVec.ofNat_toNat, BitVec.setWidth_eq]
    refine rep_down hdst hdir k _ hck.le rfl ?_ ?_ (hck ▸ MovedTo.refl mem dst src _)
    · rw [hn]
    · rw [hn]
  have hplain : MovedTo mem dst src 0 n.toNat
    (Movs.rep 1 n.toNat ⟨mem, dst + n - 1, src + n - 1, true⟩).mem :=
    hmoved 1 n.toNat (Nat.one_mul _)
  refine ⟨_, ?_, rfl, hplain⟩
  split_ifs with hw
  · have hwords : MovedTo mem dst src 0 n.toNat
      (Movs.rep 4 (n / 4).toNat ⟨mem, dst + n - 4, src + n - 4, true⟩).mem :=
      hmoved 4 (n / 4).toNat (words_eq hw.2.2)
    rw [hwords.unique hplain]
  · rfl

/-- Upwards, in all other cases. -/
theorem memmove_up (mem : Word → BitVec 8) (dst src n : Word) (hsrc : src.toNat + n.toNat ≤ 2 ^ 32)
    (hdst : dst.toNat + n.toNat ≤ 2 ^ 32)
    (hup : ¬ (src < dst ∧ src + n > dst)) :
    ∃ mem', memmove mem dst src n = (dst, mem', false) ∧ memmovePlain mem dst src n = (dst, mem') ∧
      MovedTo mem dst src 0 n.toNat mem' := by
  have hdir : dst.toNat ≤ src.toNat ∨ src.toNat + n.toNat ≤ dst.toNat := by
    by_contra hoverlap
    push Not at hoverlap
    refine hup ⟨BitVec.lt_def.mpr hoverlap.1, BitVec.lt_def.mpr ?_⟩
    rw [BitVec.toNat_add]
    omega
  rw [memmove, memmovePlain]
  simp only [if_neg hup, copyUp_eq]
  have hmoved : ∀ c k, c * k = n.toNat →
      MovedTo mem dst src 0 n.toNat (Movs.rep c k ⟨mem, dst, src, false⟩).mem ∧
      (Movs.rep c k ⟨mem, dst, src, false⟩).df = false := by
    intro c k hck
    refine rep_up hsrc hdst hdir k 0 _ (by omega) rfl ?_ ?_ (MovedTo.refl mem dst src 0)
    · exact (BitVec.add_zero _).symm
    · exact (BitVec.add_zero _).symm
  have hplain := hmoved 1 n.toNat (Nat.one_mul _)
  refine ⟨_, ?_, rfl, hplain.1⟩
  split_ifs with hw
  · have hwords := hmoved 4 (n / 4).toNat (words_eq hw.2.2)
    rw [hplain.1.unique hwords.1, hwords.2]
  · rw [hplain.2]

/-- **Both versions** of `memmove` copy the source as it was, and change nothing else; the direction
flag is clear. -/
theorem memmove_eq (mem : Word → BitVec 8) (hsrc : src.toNat + n.toNat ≤ 2 ^ 32)
    (hdst : dst.toNat + n.toNat ≤ 2 ^ 32) :
    ∃ mem', memmove mem dst src n = (dst, mem', false) ∧ memmovePlain mem dst src n = (dst, mem') ∧
      MovedTo mem dst src 0 n.toNat mem' := by
  by_cases hdown : src < dst ∧ src + n > dst
  · exact memmove_down mem hdst hdown
  · exact memmove_up mem dst src n hsrc hdst hdown

/-- Eight bytes go up by two. -/
theorem memmove_eq_overlap : ∃ mem', memmove (fun a => a.setWidth 8) 0x1002 0x1000 8 =
    (0x1002, mem', false) ∧
    memmovePlain (fun a => a.setWidth 8) 0x1002 0x1000 8 = (0x1002, mem') ∧
    MovedTo (fun a => a.setWidth 8) 0x1002 0x1000 0 8 mem' :=
  memmove_eq _ (by decide) (by decide)

end JOS
