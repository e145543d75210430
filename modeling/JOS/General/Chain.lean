import Mathlib.Logic.Function.Basic
import Mathlib.Data.List.Nodup

/-!
# Intrusive linked lists

A list threaded through its own elements: every element `a` stores its successor
`next a`, and a head pointer says where the list begins. `Chain next o l` says that
following `next` from `o` visits exactly the elements of `l`, in order, and then
stops at a null pointer. In particular the list is finite.

The two operations of a stack of this kind are `Chain.push` and `Chain.pop`; an
update of `next` outside the list does not disturb it (`Chain.congr`).
-/

namespace JOS.General

variable {α : Type*}

/-- `Chain next o l`: from the pointer `o`, `next` leads through `l` to null. -/
inductive Chain (next : α → Option α) : Option α → List α → Prop where
  /-- The null pointer is the empty list. -/
  | nil : Chain next none []
  /-- A pointer to `a` is `a` followed by what `a` points to. -/
  | cons {a : α} {l : List α} : Chain next (next a) l → Chain next (some a) (a :: l)

namespace Chain

variable {next next' : α → Option α} {o : Option α} {a : α} {l l' : List α}

/-- The list a pointer leads to is determined. -/
theorem unique (h : Chain next o l) (h' : Chain next o l') : l = l' := by
  induction h generalizing l' with
  | nil => cases h'; rfl
  | cons _ ih => cases h' with | cons h' => rw [ih h']

/-- Only the links of the list's own elements matter. -/
theorem congr (h : Chain next o l) (hn : ∀ a ∈ l, next' a = next a) : Chain next' o l := by
  induction h with
  | nil => exact .nil
  | @cons a l _ ih =>
    refine .cons ?_
    rw [hn a List.mem_cons_self]
    exact ih fun b hb => hn b (List.mem_cons_of_mem _ hb)

theorem nil_of_none (h : Chain next none l) : l = [] := by cases h; rfl

/-- The pointer to a list that is not empty. -/
theorem head_eq (h : Chain next o (a :: l)) : o = some a := by cases h; rfl

/-- What a non-null pointer leads to. -/
theorem of_some (h : Chain next (some a) l) : ∃ t, l = a :: t ∧ Chain next (next a) t := by
  cases h with | cons h => exact ⟨_, rfl, h⟩

/-- The list goes on from each of its elements. -/
theorem of_mem (h : Chain next o l) (ha : a ∈ l) : ∃ t, Chain next (some a) (a :: t) ∧
    t.length < l.length := by
  induction h with
  | nil => exact absurd ha List.not_mem_nil
  | @cons b l h ih =>
    rcases List.mem_cons.mp ha with rfl | ha
    · exact ⟨l, .cons h, Nat.lt_succ_self _⟩
    · obtain ⟨t, ht, hlt⟩ := ih ha
      exact ⟨t, ht, Nat.lt_succ_of_lt hlt⟩

/-- What comes after an element of the list is on it. -/
theorem next_mem {b : α} (h : Chain next o l) (ha : a ∈ l) (hb : next a = some b) : b ∈ l := by
  induction h with
  | nil => exact absurd ha List.not_mem_nil
  | @cons a' l h ih =>
    rcases List.mem_cons.mp ha with rfl | ha
    · rw [hb] at h
      obtain ⟨t, rfl, -⟩ := h.of_some
      exact List.mem_cons_of_mem _ List.mem_cons_self
    · exact List.mem_cons_of_mem _ (ih ha)

/-- A list that comes to an end does not come back to an element. -/
theorem nodup (h : Chain next o l) : l.Nodup := by
  induction h with
  | nil => exact List.nodup_nil
  | @cons a l h ih =>
    refine List.nodup_cons.mpr ⟨fun ha => ?_, ih⟩
    obtain ⟨t, ht, hlt⟩ := h.of_mem ha
    have := congrArg List.length (ht.unique (.cons h))
    simp only [List.length_cons] at this
    omega

/-- Pushing an element that is not on the list yet. -/
theorem push (h : Chain next o l) (ha : next' a = o) (hn : ∀ b ∈ l, next' b = next b) :
    Chain next' (some a) (a :: l) := .cons (by rw [ha]; exact h.congr hn)

/-- The last element of a list is the one that leads nowhere. -/
theorem next_eq_none_iff (h : Chain next o l) (ha : a ∈ l) : next a = none ↔ ∃ t, l = t ++ [a] := by
  induction h with
  | nil => exact absurd ha List.not_mem_nil
  | @cons b l h ih =>
    rcases List.mem_cons.mp ha with rfl | hal
    · constructor
      · intro hn
        rw [hn] at h
        exact ⟨[], by rw [h.nil_of_none]; rfl⟩
      · rintro ⟨t, ht⟩
        cases t with
        | nil =>
          obtain ⟨-, rfl⟩ := List.cons.inj ht
          cases hn : next a with
          | none => rfl
          | some b =>
            rw [hn] at h
            cases h
        | cons b t =>
          -- the element would be on the list twice
          obtain ⟨-, rfl⟩ := List.cons.inj ht
          exact absurd (List.mem_append_right t List.mem_cons_self)
            (List.nodup_cons.mp (nodup (.cons h))).1
    · rw [ih hal]
      constructor
      · rintro ⟨t, rfl⟩
        exact ⟨b :: t, rfl⟩
      · rintro ⟨t, ht⟩
        cases t with
        | nil =>
          obtain ⟨-, rfl⟩ := List.cons.inj ht
          exact absurd hal List.not_mem_nil
        | cons c t => exact ⟨t, (List.cons.inj ht).2⟩

/-- Links that agree outside `a` lead to `a`, if it was the last element. -/
theorem mem_of_agree {t : List α} (h : Chain next o (t ++ [a])) (hn : ∀ b, b ≠ a → next' b = next b)
    (h' : Chain next' o l) : a ∈ l := by
  induction t generalizing o l with
  | nil =>
    cases h
    obtain ⟨l', rfl, -⟩ := h'.of_some
    exact List.mem_cons_self
  | cons b t ih =>
    cases h with
    | cons h =>
      obtain ⟨l', rfl, hl'⟩ := h'.of_some
      by_cases hba : b = a
      · rw [hba]
        exact List.mem_cons_self
      · rw [hn b hba] at hl'
        exact List.mem_cons_of_mem _ (ih h hl')

/-- **Pushing the last element** makes a circle: from it the links do not come to an end. -/
theorem push_last {t : List α} (h : Chain next o (t ++ [a])) (ha : next' a = o)
    (hn : ∀ b, b ≠ a → next' b = next b) :
    ¬ ∃ l, Chain next' (some a) l := by
  rintro ⟨l, hl⟩
  have hnodup := hl.nodup
  obtain ⟨l', rfl, hl'⟩ := hl.of_some
  rw [ha] at hl'
  exact (List.nodup_cons.mp hnodup).1 (h.mem_of_agree hn hl')

/-- An element on the list is the head or comes later. -/
theorem ne_none_of_mem (h : Chain next o l) (ha : a ∈ l) : o ≠ none := by
  rintro rfl
  rw [h.nil_of_none] at ha
  exact absurd ha List.not_mem_nil

end Chain

/-- The elements on the list that starts at `o`. -/
def OnChain (next : α → Option α) (o : Option α) (a : α) : Prop := ∃ l, Chain next o l ∧ a ∈ l

theorem Chain.onChain_iff {next : α → Option α} {o : Option α} {a : α} {l : List α}
    (h : Chain next o l) : OnChain next o a ↔ a ∈ l :=
  ⟨fun ⟨_, h', ha⟩ => h.unique h' ▸ ha, fun ha => ⟨l, h, ha⟩⟩

end JOS.General
