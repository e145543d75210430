import Mathlib.Data.List.Range

/-!
# A scan around a ring

Places `0, …, n - 1` in circular order. `scan` looks at all of them, from any place on,
for the first that is ready. When it starts behind the last place it found, then on the
way from a place `i` to a ready place `w` it finds only places between the two, until it
finds `w` (`scan_between`): no place gets a second turn before `w` has had one.
-/

namespace JOS.General

variable {n a i p q w : ℕ} {P : ℕ → Bool}

/-- The number of places from `a` to `b`. -/
def ahead (n a b : ℕ) : ℕ := if a ≤ b then b - a else b + n - a

@[simp] theorem ahead_self (n a : ℕ) : ahead n a a = 0 := by simp [ahead]

theorem ahead_pos (hw : i ≠ w) (hi : i < n) : 0 < ahead n i w := by
  rw [ahead]
  split_ifs <;> omega

/-- The first place from `a` on that is ready. -/
def scan (n a : ℕ) (P : ℕ → Bool) : Option ℕ := ((List.range n).map fun k => (a + k) % n).find? P

/-- A place less than one round away. -/
theorem mod_of_lt_round (h : a < 2 * n) : a % n = if a < n then a else a - n := by
  split_ifs with hlt
  · exact Nat.mod_eq_of_lt hlt
  · rw [Nat.mod_eq_sub_mod (by omega), Nat.mod_eq_of_lt (by omega)]

/-- A ready place is a number of places away. -/
theorem exists_scanned (ha : a ≤ n) (hw : w < n) : ∃ k < n, (a + k) % n = w := by
  by_cases haw : a ≤ w
  · refine ⟨w - a, by omega, ?_⟩
    rw [mod_of_lt_round (by omega), if_pos (by omega)]
    omega
  · refine ⟨w + n - a, by omega, ?_⟩
    rw [mod_of_lt_round (by omega), if_neg (by omega)]
    omega

/-- What is found is ready, and no ready place comes before it. -/
theorem scan_eq_some (h : scan n a P = some q) :
    P q = true ∧ ∃ k < n, (a + k) % n = q ∧ ∀ j < k, P ((a + j) % n) = false := by
  rw [scan, List.find?_map, Option.map_eq_some_iff] at h
  obtain ⟨k, hk, rfl⟩ := h
  obtain ⟨hP, hkn, hbefore⟩ := List.find?_range_eq_some.mp hk
  exact ⟨hP, k, List.mem_range.mp hkn, rfl, fun j hj => by simpa using hbefore j hj⟩

/-- A ready place makes the scan find one. -/
theorem scan_isSome (ha : a ≤ n) (hw : w < n) (hP : P w = true) : ∃ q, scan n a P = some q := by
  obtain ⟨k, hk, rfl⟩ := exists_scanned ha hw
  refine Option.isSome_iff_exists.mp (List.find?_isSome.mpr ⟨_, ?_, hP⟩)
  exact List.mem_map.mpr ⟨k, List.mem_range.mpr hk, rfl⟩

/-- **No second turn**: while `w` is ready and ahead of the last place `p`, what is found next is
`w`, or lies between the two. -/
theorem scan_between (hi : i < n) (hp : p < n) (hw : w < n) (hP : P w = true)
    (hpw : ahead n i p < ahead n i w)
    (h : scan n (p + 1) P = some q) (hq : q ≠ w) :
    q < n ∧ ahead n i p < ahead n i q ∧ ahead n i q < ahead n i w := by
  obtain ⟨-, k, hk, hkq, hbefore⟩ := scan_eq_some h
  obtain ⟨j, hj, hjw⟩ := exists_scanned (a := p + 1) (by omega) hw
  have hkj : k < j := by
    refine lt_of_le_of_ne (not_lt.mp fun hjk => ?_) fun hkj => hq ?_
    · have hnot : P w = false := hjw ▸ hbefore j hjk
      rw [hP] at hnot
      cases hnot
    · rw [← hkq, ← hjw, hkj]
  rw [mod_of_lt_round (by omega)] at hkq hjw
  simp only [ahead] at hpw ⊢
  split_ifs at hkq hjw hpw ⊢ <;> omega

end JOS.General
