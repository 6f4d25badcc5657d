import Mathlib.Data.List.Sort
import Mathlib.Tactic

/-! # Sorting by a comparison

A sort of the standard library that is not stable promises two things: the
result is a permutation, and no element is less than one in front of it. Which
of the permutations with that property it returns is left open.
-/

namespace RabbitmqLite.Collections

variable {α : Type*}

/-- The comparisons a sort accepts: asymmetric, and with a transitive complement. -/
structure StrictWeak (less : α → α → Bool) : Prop where
  asymm : ∀ a b, less a b = true → less b a = false
  negTrans : ∀ a b c, less a b = false → less b c = false → less a c = false

/-- A sort that is not stable. -/
structure SliceSort (α : Type*) where
  sort : (α → α → Bool) → List α → List α
  perm : ∀ less l, (sort less l).Perm l
  sorted : ∀ less l, StrictWeak less → (sort less l).Pairwise (fun a b => less b a = false)

/-- Insertion sort is one of them. -/
def SliceSort.insertion : SliceSort α where
  sort less l := l.insertionSort (fun a b => less b a = false)
  perm less l := List.perm_insertionSort _ l
  sorted less l h := by
    have htotal : Std.Total (fun a b : α => less b a = false) := by
      refine ⟨fun a b => ?_⟩
      cases hab : less b a with
      | false => exact Or.inl rfl
      | true => exact Or.inr (h.asymm b a hab)
    have htrans : IsTrans α (fun a b => less b a = false) :=
      ⟨fun a b c hab hbc => h.negTrans c b a hbc hab⟩
    exact List.pairwise_insertionSort _ l

end RabbitmqLite.Collections
