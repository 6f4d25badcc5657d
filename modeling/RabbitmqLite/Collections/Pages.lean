import Mathlib.Tactic

/-! # Pages of a list

A list is read page by page: a size, and for every page the number of elements
to skip. The pages put together are the list, and only the last one may be
shorter than the size. A page of only some of the elements takes those that
all pages want in the order of the list.
-/

namespace RabbitmqLite.Collections

variable {α : Type*}

/-- The sequence of pages partitions the list: `n` pages, none of them empty and all but the last
one full, with nothing behind them. -/
structure Paged (size : ℕ) (l : List α) (page : ℕ → List α) (n : ℕ) : Prop where
  whole : ((List.range n).map page).flatten = l
  full : ∀ k, k + 1 < n → (page k).length = size
  last : ∀ k, k < n → page k ≠ [] ∧ (page k).length ≤ size
  behind : ∀ k, n ≤ k → page k = []

theorem flatten_slices (size : ℕ) (l : List α) (n : ℕ) :
    ((List.range n).map (fun k => (l.drop (k * size)).take size)).flatten = l.take (n * size) := by
  induction n with
  | zero => simp
  | succ n ih =>
    rw [List.range_succ, List.map_append, List.flatten_append, ih, List.map_singleton,
      List.flatten_singleton, Nat.succ_mul, List.take_add]

/-- Slices of a positive size are pages. -/
theorem paged_slices {size : ℕ} (hs : 0 < size) (l : List α) :
    Paged size l (fun k => (l.drop (k * size)).take size) ((l.length + size - 1) / size) := by
  have hcount : ∀ k, k < (l.length + size - 1) / size ↔ k * size < l.length := by
    intro k
    rw [Nat.lt_iff_add_one_le, Nat.le_div_iff_mul_le hs, Nat.succ_mul]
    omega
  refine ⟨?_, fun k hk => ?_, fun k hk => ⟨?_, ?_⟩, fun k hk => ?_⟩
  · rw [flatten_slices]
    have hlast := (hcount ((l.length + size - 1) / size)).not.mp (lt_irrefl _)
    exact List.take_of_length_le (not_lt.mp hlast)
  · have hnext := (hcount (k + 1)).mp hk
    rw [Nat.succ_mul] at hnext
    rw [List.length_take, List.length_drop]
    omega
  · have hstart := (hcount k).mp hk
    rw [← List.length_pos_iff, List.length_take, List.length_drop]
    omega
  · rw [List.length_take]
    exact min_le_left _ _
  · have hstart := not_lt.mp ((hcount k).not.mp (not_lt.mpr hk))
    rw [List.drop_eq_nil_of_le hstart, List.take_nil]

/-- The first `n` of those that are offered are taken. Where all marked ones are offered, the
marked ones that are taken come before the marked ones that are left. -/
theorem filter_take_append [DecidableEq α] {l : List α} (hn : l.Nodup) {offered marked : α → Bool}
    (h : ∀ a ∈ l, marked a = true → offered a = true) (n : ℕ) :
    ((l.filter offered).take n).filter marked ++
      l.filter (fun a => marked a && decide (a ∉ (l.filter offered).take n)) =
        l.filter marked := by
  obtain ⟨taken, left, hsplit, htaken⟩ : ∃ taken left, l.filter offered = taken ++ left ∧
      (l.filter offered).take n = taken :=
    ⟨_, _, (List.take_append_drop n _).symm, rfl⟩
  have hmarked : l.filter marked = (l.filter offered).filter marked := by
    rw [List.filter_filter]
    refine List.filter_congr (fun a ha => ?_)
    cases hm : marked a with
    | false => rfl
    | true => simp [h a ha hm]
  have hdisjoint : ∀ a ∈ left, a ∉ taken := by
    have hsub := hn.filter offered
    rw [hsplit] at hsub
    exact fun a hl ht => List.disjoint_of_nodup_append hsub ht hl
  have hrest : l.filter (fun a => marked a && decide (a ∉ taken)) = left.filter marked := by
    have hswap : l.filter (fun a => marked a && decide (a ∉ taken)) =
        (l.filter marked).filter (fun a => decide (a ∉ taken)) := by
      rw [List.filter_filter]
      exact List.filter_congr (fun a _ => Bool.and_comm _ _)
    rw [hswap, hmarked, hsplit, List.filter_append, List.filter_append,
      List.filter_eq_nil_iff.mpr (fun a ha => by simp [(List.mem_filter.mp ha).1]),
      List.filter_eq_self.mpr (fun a ha => by simp [hdisjoint a (List.mem_filter.mp ha).1]),
      List.nil_append]
  rw [htaken, hrest, hmarked, hsplit, List.filter_append]

end RabbitmqLite.Collections
