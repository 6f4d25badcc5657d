import Mathlib.Data.List.Sort
import Mathlib.Tactic

/-! # When sorting leaves the first elements where they are

Insertion sort is stable, so the first `n` elements of a sorted list are the
first `n` of the list itself exactly if those are in order and none of the
later ones has to come before one of them. Sorting also commutes with a map
between relations that agree on every element and the elements behind it.
-/

namespace RabbitmqLite.Collections

variable {α β : Type*} {r : α → α → Prop} [DecidableRel r]

theorem orderedInsert_of_forall {a : α} {l : List α} (h : ∀ b ∈ l, r a b) :
    l.orderedInsert r a = a :: l := by
  cases l with
  | nil => rfl
  | cons b l => exact List.orderedInsert_cons_of_le r l (h b List.mem_cons_self)

/-- The first `n` elements are in order, and in front of all the others. -/
def PrefixSorted (r : α → α → Prop) (n : ℕ) (l : List α) : Prop :=
  (l.take n).Pairwise r ∧ ∀ a ∈ l.take n, ∀ b ∈ l.drop n, r a b

instance (n : ℕ) (l : List α) : Decidable (PrefixSorted r n l) := by
  unfold PrefixSorted
  infer_instance

theorem insertionSort_of_prefixSorted {n : ℕ} {l : List α} (h : PrefixSorted r n l) :
    l.insertionSort r = l.take n ++ (l.drop n).insertionSort r := by
  induction l generalizing n with
  | nil => simp
  | cons a l ih =>
    cases n with
    | zero => simp
    | succ n =>
      obtain ⟨hp, hc⟩ := h
      simp only [List.take_succ_cons, List.drop_succ_cons, List.pairwise_cons] at hp hc
      have hrest : PrefixSorted r n l :=
        ⟨hp.2, fun x hx => hc x (List.mem_cons_of_mem a hx)⟩
      rw [List.insertionSort_cons, orderedInsert_of_forall, ih hrest]
      · simp
      · intro b hb
        rw [List.mem_insertionSort, ← List.take_append_drop n l, List.mem_append] at hb
        rcases hb with hb | hb
        · exact hp.1 b hb
        · exact hc a List.mem_cons_self b hb

/-- Sorting keeps the first `n` elements exactly if they are a sorted prefix. -/
theorem take_insertionSort_eq_take_iff [Std.Total r] [IsTrans α r] (n : ℕ) (l : List α) :
    (l.insertionSort r).take n = l.take n ↔ PrefixSorted r n l := by
  constructor
  · intro h
    have hsorted := List.pairwise_insertionSort r l
    rw [← List.take_append_drop n (l.insertionSort r), h, List.pairwise_append] at hsorted
    have hperm : ((l.insertionSort r).drop n).Perm (l.drop n) := by
      rw [← List.perm_append_left_iff (l.take n), List.take_append_drop]
      nth_rewrite 1 [← h]
      rw [List.take_append_drop]
      exact List.perm_insertionSort r l
    exact ⟨hsorted.1, fun a ha b hb => hsorted.2.2 a ha b (hperm.mem_iff.mpr hb)⟩
  · intro h
    rw [insertionSort_of_prefixSorted h]
    rcases Nat.le_total n l.length with hn | hn
    · rw [List.take_append_of_le_length (by simp [hn]), List.take_take, min_self]
    · simp [List.drop_eq_nil_of_le hn]

theorem orderedInsert_append {a : α} {l m : List α} (h : ∀ b ∈ m, r a b) :
    (l ++ m).orderedInsert r a = l.orderedInsert r a ++ m := by
  induction l with
  | nil => exact orderedInsert_of_forall h
  | cons b l ih =>
    by_cases hb : r a b
    · rw [List.cons_append, List.orderedInsert_cons_of_le r _ hb,
        List.orderedInsert_cons_of_le r _ hb]
      rfl
    · rw [List.cons_append, List.orderedInsert_of_not_le r _ hb,
        List.orderedInsert_of_not_le r _ hb, ih]
      rfl

/-- What is in order and behind everything else stays at the end. -/
theorem insertionSort_append {l m : List α} (hm : m.Pairwise r) (h : ∀ a ∈ l, ∀ b ∈ m, r a b) :
    (l ++ m).insertionSort r = l.insertionSort r ++ m := by
  induction l with
  | nil => exact hm.insertionSort_eq
  | cons a l ih =>
    rw [List.cons_append, List.insertionSort_cons, List.insertionSort_cons,
      ih (fun x hx => h x (List.mem_cons_of_mem a hx))]
    exact orderedInsert_append (h a List.mem_cons_self)

theorem map_orderedInsert {q : β → β → Prop} [DecidableRel q] {f : α → β} {a : α} {l : List α}
    (h : ∀ b ∈ l, r a b ↔ q (f a) (f b)) :
    (l.orderedInsert r a).map f = (l.map f).orderedInsert q (f a) := by
  induction l with
  | nil => rfl
  | cons b l ih =>
    have hb := h b List.mem_cons_self
    by_cases hr : r a b
    · rw [List.orderedInsert_cons_of_le r l hr, List.map_cons, List.map_cons,
        List.orderedInsert_cons_of_le q _ (hb.mp hr)]
    · rw [List.orderedInsert_of_not_le r l hr, List.map_cons, List.map_cons,
        List.orderedInsert_of_not_le q _ (fun hq => hr (hb.mpr hq)),
        ih (fun c hc => h c (List.mem_cons_of_mem b hc))]

/-- Sorting commutes with a map under which the order of an element and those
behind it is the same. -/
theorem map_insertionSort {q : β → β → Prop} [DecidableRel q] {f : α → β} {l : List α}
    (h : l.Pairwise (fun a b => r a b ↔ q (f a) (f b))) :
    (l.insertionSort r).map f = (l.map f).insertionSort q := by
  induction l with
  | nil => rfl
  | cons a l ih =>
    obtain ⟨ha, hl⟩ := List.pairwise_cons.mp h
    rw [List.insertionSort_cons, List.map_cons, List.insertionSort_cons, ← ih hl]
    exact map_orderedInsert (fun b hb => ha b (by simpa using hb))

/-- In a list that is sorted by a key, the elements up to a bound stand at the front. -/
theorem filter_prefix_of_pairwise {α : Type*} (f : α → ℤ) (bound : ℤ) {l : List α}
    (h : l.Pairwise (fun a b => f a ≤ f b)) : l.filter (fun a => decide (f a ≤ bound)) <+: l := by
  induction l with
  | nil => exact List.prefix_refl []
  | cons a l ih =>
    obtain ⟨hfirst, hrest⟩ := List.pairwise_cons.mp h
    by_cases ha : f a ≤ bound
    · rw [List.filter_cons_of_pos (by simpa using ha)]
      exact List.cons_prefix_cons.mpr ⟨rfl, ih hrest⟩
    · have hnone : (a :: l).filter (fun a => decide (f a ≤ bound)) = [] := by
        rw [List.filter_eq_nil_iff]
        intro b hb
        rcases List.mem_cons.mp hb with rfl | hb
        · simpa using ha
        · have hab := hfirst b hb
          simp only [decide_eq_true_eq]
          omega
      rw [hnone]
      exact List.nil_prefix

/-- What is left of a list without the elements at its front. -/
theorem filter_notMem_append {α β : Type*} [DecidableEq β] {f : α → β} {l l' : List α}
    (h : ((l ++ l').map f).Nodup) : (l ++ l').filter (fun a => f a ∉ l.map f) = l' := by
  rw [List.map_append] at h
  have hdisj : ∀ b ∈ l.map f, ∀ b' ∈ l'.map f, b ≠ b' := (List.nodup_append.mp h).2.2
  have hl : l.filter (fun a => f a ∉ l.map f) = [] := by
    rw [List.filter_eq_nil_iff]
    intro a ha
    simpa using ⟨a, ha, rfl⟩
  have hl' : l'.filter (fun a => f a ∉ l.map f) = l' := by
    rw [List.filter_eq_self]
    intro a ha
    rw [decide_eq_true_eq]
    exact fun hm => hdisj _ hm _ (List.mem_map_of_mem ha) rfl
  rw [List.filter_append, hl, hl', List.nil_append]

end RabbitmqLite.Collections
