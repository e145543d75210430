import Mathlib.Data.List.Basic

/-!
# Logged runs

A machine whose operations are named by labels: `act p a` is what operation `a` makes
of the state `p`, and `ok p a` is when it may happen. `Log act ok p as q` says that
the operations `as`, the latest first, lead from `p` to `q`, each of them when it may
happen. What a program did between two states can be shown by such a log; what holds
of the end, or when one of the operations happened, then follows from the effects of
single operations (`Log.invariant`, `Log.of_mem`).
-/

namespace JOS.General

variable {σ α : Type*} {act : σ → α → σ} {ok ok' : σ → α → Prop} {p q r : σ}
  {as bs : List α} {a : α}

/-- The operations `as`, latest first, lead from `p` to `q`. -/
inductive Log (act : σ → α → σ) (ok : σ → α → Prop) (p : σ) : List α → σ → Prop where
  /-- Nothing happened. -/
  | nil : Log act ok p [] p
  /-- One more operation. -/
  | cons {q : σ} {as : List α} {a : α} : Log act ok p as q → ok q a →
    Log act ok p (a :: as) (act q a)

namespace Log

theorem single (h : ok p a) : Log act ok p [a] (act p a) := .cons .nil h

theorem trans (h : Log act ok p as q) (h' : Log act ok q bs r) : Log act ok p (bs ++ as) r := by
  induction h' with
  | nil => exact h
  | cons _ ha ih => exact .cons ih ha

/-- **The invariant rule**: what the operations in the log keep holds at the end. -/
theorem invariant {I : σ → Prop} (h : Log act ok p as q) (h₀ : I p)
    (hact : ∀ r, ∀ a ∈ as, I r → ok r a → I (act r a)) : I q := by
  induction h with
  | nil => exact h₀
  | @cons r as a _ ha ih =>
    exact hact r a List.mem_cons_self (ih fun r b hb => hact r b (List.mem_cons_of_mem _ hb)) ha

/-- An operation in the log happened in a state in which the invariant held. -/
theorem of_mem {I : σ → Prop} (h : Log act ok p as q) (h₀ : I p)
    (hact : ∀ r, ∀ a ∈ as, I r → ok r a → I (act r a)) (ha : a ∈ as) : ∃ r, I r ∧ ok r a := by
  induction h with
  | nil => exact absurd ha List.not_mem_nil
  | @cons r as b hlog hb ih =>
    have hact' : ∀ r, ∀ a ∈ as, I r → ok r a → I (act r a) :=
      fun r c hc => hact r c (List.mem_cons_of_mem _ hc)
    rcases List.mem_cons.mp ha with rfl | ha
    · exact ⟨r, hlog.invariant h₀ hact', hb⟩
    · exact ih hact' ha

theorem mono (h : Log act ok p as q) (himp : ∀ r a, ok r a → ok' r a) : Log act ok' p as q := by
  induction h with
  | nil => exact .nil
  | cons _ ha ih => exact .cons ih (himp _ _ ha)

end Log

end JOS.General
