import Mathlib.Data.List.Nodup
import Mathlib.Tactic

/-! # Compaction of a list with dead entries

A list that is only ever extended at its end collects entries that are dead
and stay dead. Dropping the dead entries at the front, or all of them, keeps
the list of live ones, and two lists with the same live entries stay so while
entries die.
-/

namespace RabbitmqLite.Collections

variable {α : Type*} {dead dead' : α → Bool}

theorem drop_takeWhile_length (dead : α → Bool) (l : List α) :
    l.drop (l.takeWhile dead).length = l.dropWhile dead := by
  induction l with
  | nil => rfl
  | cons a l ih => by_cases ha : dead a = true <;> simp [ha, ih]

theorem filter_dropWhile (dead : α → Bool) (l : List α) :
    (l.dropWhile dead).filter (fun a => !dead a) = l.filter (fun a => !dead a) := by
  induction l with
  | nil => rfl
  | cons a l ih => by_cases ha : dead a = true <;> simp [ha, ih]

theorem countP_takeWhile (dead : α → Bool) (l : List α) :
    (l.takeWhile dead).countP dead = (l.takeWhile dead).length := by
  induction l with
  | nil => rfl
  | cons a l ih => by_cases ha : dead a = true <;> simp [ha, ih]

/-- The dead entries left after the front was dropped. -/
theorem countP_dropWhile (dead : α → Bool) (l : List α) :
    (l.dropWhile dead).countP dead + (l.takeWhile dead).length = l.countP dead := by
  conv_rhs => rw [← List.takeWhile_append_dropWhile (p := dead) (l := l), List.countP_append,
    countP_takeWhile]
  omega

/-- Lists with the same live entries keep them in common while entries die. -/
theorem filter_eq_of_imp {live live' : α → Bool} {l k : List α}
    (h : l.filter live = k.filter live) (hd : ∀ a, live' a = true → live a = true) :
    l.filter live' = k.filter live' := by
  have hfilter (m : List α) : m.filter live' = (m.filter live).filter live' := by
    rw [List.filter_filter]
    apply List.filter_congr
    intro a _
    cases ha : live' a with
    | false => rfl
    | true => simp [hd a ha]
  rw [hfilter l, hfilter k, h]

/-- One entry of a duplicate-free list dies. -/
theorem countP_of_dies [DecidableEq α] {l : List α} {a : α} (hn : l.Nodup) (ha : a ∈ l)
    (hlive : dead a = false) (hdead : dead' a = true) (h : ∀ b, b ≠ a → dead' b = dead b) :
    l.countP dead' = l.countP dead + 1 := by
  obtain ⟨before, later, rfl⟩ := List.append_of_mem ha
  have hne : ∀ b ∈ before ++ later, b ≠ a := by
    intro b hb hba
    subst hba
    exact (List.nodup_middle.mp hn).notMem hb
  have hb : before.countP dead' = before.countP dead :=
    List.countP_congr (fun b hm => by rw [h b (hne b (by simp [hm]))])
  have hl : later.countP dead' = later.countP dead :=
    List.countP_congr (fun b hm => by rw [h b (hne b (by simp [hm]))])
  simp [hb, hl, hlive, hdead]
  omega

end RabbitmqLite.Collections
