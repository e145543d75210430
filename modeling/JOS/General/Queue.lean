import JOS.General.Ring

/-!
# A queue in a ring

An array of `n` places with two indices represents a queue: what is in it stands in the places from
the reading index up to the writing one, around the ring (`queue`). Putting something at the writing
index appends to the queue while a place is left over, so that the two indices become equal only
when the queue is empty.
-/

namespace JOS.General

open Function (update)

variable {α : Type*} {n i r w : ℕ} {buf : ℕ → α}

/-- The place after `i`. -/
def next (n i : ℕ) : ℕ := if i + 1 = n then 0 else i + 1

theorem next_lt (hi : i < n) : next n i < n := by
  rw [next]
  split_ifs <;> omega

theorem ahead_eq_zero (hr : r < n) : ahead n r w = 0 ↔ r = w := by
  rw [ahead]
  split_ifs <;> omega

/-- Writing goes one place on. -/
theorem ahead_next (hr : r < n) (hroom : ahead n r w + 1 < n) :
    ahead n r (next n w) = ahead n r w + 1 := by
  simp only [ahead, next] at *
  split_ifs at * <;> omega

/-- Reading goes one place on. -/
theorem next_ahead (hr : r < n) (hw : w < n) (hne : r ≠ w) :
    ahead n r w = ahead n (next n r) w + 1 := by
  simp only [ahead, next]
  split_ifs <;> omega

/-- `k` elements, from place `r` on. -/
def elements (n : ℕ) (buf : ℕ → α) : ℕ → ℕ → List α
  | _, 0 => []
  | r, k + 1 => buf r :: elements n buf (next n r) k

@[simp] theorem length_elements (n : ℕ) (buf : ℕ → α) (r k : ℕ) :
    (elements n buf r k).length = k := by
  induction k generalizing r with
  | zero => rfl
  | succ k ih => rw [elements, List.length_cons, ih]

/-- The element after the last is put where the writing index is. -/
theorem elements_update (hr : r < n) (hw : w < n) (x : α) {k : ℕ} (hk : k = ahead n r w) :
    elements n (update buf w x) r (k + 1) = elements n buf r k ++ [x] := by
  induction k generalizing r with
  | zero =>
    have hrw : r = w := (ahead_eq_zero hr).mp hk.symm
    rw [hrw, elements, elements, elements, Function.update_self, List.nil_append]
  | succ k ih =>
    have hne : r ≠ w := by
      rintro rfl
      rw [ahead_self] at hk
      omega
    have hk' : k = ahead n (next n r) w := by
      have := next_ahead hr hw hne
      omega
    rw [elements, ih (next_lt hr) hk', Function.update_of_ne hne, elements, List.cons_append]

/-- What is in the queue, the oldest first. -/
def queue (n : ℕ) (buf : ℕ → α) (r w : ℕ) : List α := elements n buf r (ahead n r w)

@[simp] theorem length_queue (n : ℕ) (buf : ℕ → α) (r w : ℕ) :
    (queue n buf r w).length = ahead n r w := length_elements n buf r _

@[simp] theorem queue_self (n : ℕ) (buf : ℕ → α) (r : ℕ) : queue n buf r r = [] := by
  rw [queue, ahead_self]
  rfl

/-- **Putting** appends, while a place is left over. -/
theorem queue_put (hr : r < n) (hw : w < n) (x : α) (hroom : (queue n buf r w).length + 1 < n) :
    queue n (update buf w x) r (next n w) = queue n buf r w ++ [x] := by
  rw [length_queue] at hroom
  rw [queue, ahead_next hr hroom, elements_update hr hw x rfl, queue]

/-- **Taking** removes the oldest. -/
theorem queue_take (hr : r < n) (hw : w < n) (hne : r ≠ w) :
    queue n buf r w = buf r :: queue n buf (next n r) w := by
  rw [queue, next_ahead hr hw hne, elements, queue]

end JOS.General
