import Mathlib.Tactic

/-! # Cutting a list at a separator

A list in which a separator stands is the part in front of the first one, the
separator, and the rest. If the separator is in neither of two front parts, the
parts are read off what was put together from them.
-/

namespace RabbitmqLite.Collections
variable {α : Type*} {a : α} {l l' m m' : List α}

theorem append_cons_inj (h : a ∉ l) (h' : a ∉ l') (heq : l ++ a :: m = l' ++ a :: m') :
    l = l' ∧ m = m' := by
  induction l generalizing l' with
  | nil =>
    cases l' with
    | nil => exact ⟨rfl, (List.cons.inj heq).2⟩
    | cons b l' => exact absurd (List.cons.inj heq).1 (fun hab => h' (hab ▸ List.mem_cons_self))
  | cons b l ih =>
    cases l' with
    | nil => exact absurd (List.cons.inj heq).1.symm (fun hab => h (hab ▸ List.mem_cons_self))
    | cons c l' =>
      obtain ⟨rfl, htail⟩ := List.cons.inj heq
      obtain ⟨rfl, rfl⟩ := ih (fun hm => h (List.mem_cons_of_mem b hm))
        (fun hm => h' (List.mem_cons_of_mem b hm)) htail
      exact ⟨rfl, rfl⟩

section FirstSeparator
variable [DecidableEq α]

theorem takeWhile_append_cons (h : a ∈ l) :
    l.takeWhile (· != a) ++ a :: (l.dropWhile (· != a)).tail = l := by
  induction l with
  | nil => cases h
  | cons b l ih =>
    by_cases hb : b = a
    · simp [hb]
    · have hl : a ∈ l := (List.mem_cons.mp h).resolve_left (Ne.symm hb)
      simpa [hb] using ih hl

theorem notMem_takeWhile (a : α) (l : List α) : a ∉ l.takeWhile (· != a) := by
  intro hmem
  simpa using List.all_eq_true.mp (List.all_takeWhile (p := (· != a))) a hmem

end FirstSeparator

end RabbitmqLite.Collections
