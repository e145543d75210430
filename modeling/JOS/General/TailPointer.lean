import JOS.General.Chain

/-!
# Lists built at a tail pointer

A linked list can be built from its front: next to the head there is a pointer to the
place where the next element has to be stored, which is the head itself while the list is
empty and the link of the last element after that. `Built next head tail l` says that the
elements of `l` have been put there. What the place holds does not matter before something
is stored there, an element that makes the list longer or the head of another list that
completes it; after that the list leads to what has been stored (`Built.seg_of_store`).
-/

namespace JOS.General

open Function (update)

variable {α : Type*} {next next' : α → Option α} {o head : Option α} {a b : α} {l l' : List α}

/-! ### Segments -/

/-- `Seg next o l p`: from the pointer `o`, `next` leads through `l` to the pointer `p`. -/
inductive Seg (next : α → Option α) : Option α → List α → Option α → Prop where
  | nil {p : Option α} : Seg next p [] p
  | cons {a : α} {l : List α} {p : Option α} : Seg next (next a) l p → Seg next (some a) (a :: l) p

namespace Seg

variable {p q : Option α}

theorem snoc (h : Seg next o l (some a)) : Seg next o (l ++ [a]) (next a) := by
  generalize hp : some a = p at h
  induction h with
  | nil => exact hp ▸ .cons .nil
  | cons _ ih => exact .cons (ih hp)

theorem congr (h : Seg next o l p) (hn : ∀ b ∈ l, next' b = next b) : Seg next' o l p := by
  induction h with
  | nil => exact .nil
  | @cons a l p _ ih =>
    refine .cons ?_
    rw [hn a List.mem_cons_self]
    exact ih fun b hb => hn b (List.mem_cons_of_mem _ hb)

/-- A segment in front of a list. -/
theorem chain_append (h : Seg next o l p) (h' : Chain next p l') : Chain next o (l ++ l') := by
  induction h with
  | nil => exact h'
  | cons _ ih => exact .cons (ih h')

end Seg

/-! ### The place to store -/

/-- A list that is being built; `tail` is the element whose link the next element is stored to, if
it is not the head. -/
inductive Built (next : α → Option α) (head : Option α) : Option α → List α → Prop where
  | empty : Built next head none []
  | upTo {l : List α} {a : α} : Seg next head l (some a) → Built next head (some a) (l ++ [a])

namespace Built

variable {tail : Option α}

/-- The element whose link comes next is the last one. -/
theorem tail_mem (h : Built next head (some a) l) : a ∈ l := by
  cases h with
  | upTo _ => exact List.mem_append_right _ List.mem_cons_self

/-- The link of the last element does not matter. -/
theorem congr (h : Built next head tail l) (hnodup : l.Nodup)
    (hn : ∀ b ∈ l, tail ≠ some b → next' b = next b) :
    Built next' head tail l := by
  cases h with
  | empty => exact .empty
  | @upTo l a h =>
    refine .upTo (h.congr fun b hb => hn b (List.mem_append_left _ hb) fun heq => ?_)
    have hlast := (List.nodup_append.mp hnodup).2.2 b hb a List.mem_cons_self
    exact hlast (Option.some.inj heq).symm

/-- What has been stored at the end is what the list leads to. -/
theorem seg_of_store [DecidableEq α] (h : Built next head (some a) l) (hnodup : l.Nodup) :
    Seg (update next a o) head l o := by
  cases h with
  | @upTo l _ h =>
    have hseg : Seg (update next a o) head l (some a) := h.congr fun b hb => by
      have hne := (List.nodup_append.mp hnodup).2.2 b hb a List.mem_cons_self
      rw [Function.update_of_ne hne]
    have := hseg.snoc
    rwa [Function.update_self] at this

end Built

end JOS.General
