import Mathlib.Tactic

/-! # Ranks in a sorted list

In a sorted list the elements that are not above a bound are its first ones, so
that counting them tells on which side of the bound the element of a given rank
lies.
-/

namespace RabbitmqLite.Collections

variable {α : Type*} [LinearOrder α]

theorem countP_le_eq_zero {l : List α} {a bound : α} (h : ∀ b ∈ l, a ≤ b) (ha : bound < a) :
    l.countP (· ≤ bound) = 0 := by
  rw [List.countP_eq_zero]
  intro b hb
  rw [decide_eq_true_eq, not_le]
  exact ha.trans_le (h b hb)

theorem getElem_le_iff {l : List α} (hs : l.Pairwise (· ≤ ·)) (bound : α) {i : ℕ}
    (hi : i < l.length) : l[i] ≤ bound ↔ i < l.countP (· ≤ bound) := by
  induction l generalizing i with
  | nil => simp at hi
  | cons a l ih =>
    rw [List.pairwise_cons] at hs
    rw [List.countP_cons]
    rcases le_or_gt a bound with ha | ha
    · cases i with
      | zero => simp [ha]
      | succ i =>
        rw [List.getElem_cons_succ, ih hs.2 (by simpa using hi)]
        simp [ha]
    · have hnone := countP_le_eq_zero hs.1 ha
      cases i with
      | zero => simp [hnone, ha.not_ge]
      | succ i =>
        rw [List.getElem_cons_succ, ih hs.2 (by simpa using hi)]
        simp [hnone, ha.not_ge]

end RabbitmqLite.Collections
