import Mathlib.Data.List.Basic

/-!
# Overwriting

A write gives values to some places of a memory and leaves the others. After several writes
the last one to a place counts (`overwrites_last`), so a value survives exactly when the last
write to its place gives it again (`overwrites_survives_iff`).
-/

namespace JOS.General

variable {β κ ν : Type*} {f : β → κ → Option ν} {m : κ → ν} {xs pre post : List β} {x : β}
  {a : κ} {u v : ν}

/-- A write, to the places for which it has a value. -/
def overwrite (m : κ → ν) (w : κ → Option ν) : κ → ν := fun a => (w a).getD (m a)

/-- The writes of `xs`, one after the other. -/
def overwrites (f : β → κ → Option ν) : (κ → ν) → List β → κ → ν
  | m, [] => m
  | m, x :: xs => overwrites f (overwrite m (f x)) xs

theorem overwrites_append (m : κ → ν) (xs ys : List β) :
    overwrites f m (xs ++ ys) = overwrites f (overwrites f m xs) ys := by
  induction xs generalizing m with
  | nil => rfl
  | cons x xs ih => exact ih _

/-- A place to which nothing is written. -/
theorem overwrites_none (h : ∀ x ∈ xs, f x a = none) : overwrites f m xs a = m a := by
  induction xs generalizing m with
  | nil => rfl
  | cons x xs ih =>
    obtain ⟨hx, hxs⟩ := List.forall_mem_cons.mp h
    rw [overwrites, ih hxs, overwrite, hx, Option.getD_none]

/-- **The last write** to a place counts. -/
theorem overwrites_last (hx : f x a = some v) (hpost : ∀ y ∈ post, f y a = none) :
    overwrites f m (pre ++ x :: post) a = v := by
  rw [overwrites_append, overwrites, overwrites_none hpost, overwrite, hx, Option.getD_some]

/-- If a place is written to, then there is a last time. -/
theorem exists_last_write : ∀ xs : List β, (∀ x ∈ xs, f x a = none) ∨
    ∃ pre x post v, xs = pre ++ x :: post ∧ f x a = some v ∧ ∀ y ∈ post, f y a = none := by
  intro xs
  induction xs with
  | nil => exact .inl fun x hx => absurd hx List.not_mem_nil
  | cons x xs ih =>
    obtain hnone | ⟨pre, y, post, v, rfl, hy, hpost⟩ := ih
    · cases hx : f x a with
      | none => exact .inl (List.forall_mem_cons.mpr ⟨hx, hnone⟩)
      | some v => exact .inr ⟨[], x, xs, v, rfl, hx, hnone⟩
    · exact .inr ⟨x :: pre, y, post, v, rfl, hy, hpost⟩

/-- **A value survives** exactly when the last write to its place gives it again. -/
theorem overwrites_survives_iff (hm : m a = v) : overwrites f m xs a = v ↔
    ∀ pre x post u, xs = pre ++ x :: post → f x a = some u →
        (∀ y ∈ post, f y a = none) → u = v := by
  constructor
  · rintro h pre x post u rfl hx hpost
    exact (overwrites_last hx hpost).symm.trans h
  · intro h
    obtain hnone | ⟨pre, x, post, u, rfl, hx, hpost⟩ := exists_last_write (f := f) (a := a) xs
    · exact (overwrites_none hnone).trans hm
    · exact (overwrites_last hx hpost).trans (h pre x post u rfl hx hpost)

end JOS.General
