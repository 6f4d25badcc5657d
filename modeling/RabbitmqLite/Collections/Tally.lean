import Mathlib.Data.List.Perm.Subperm
import Mathlib.Tactic

/-! # Counting over a list in which one element changes

Each element of a list contributes a number, or some items, to a whole. When an
element is replaced, the whole changes by the difference of the contributions.
The other elements stay at their places, also when the list is extended.
-/

namespace RabbitmqLite.Collections
variable {α β : Type*}

theorem sum_map_set (f : α → ℕ) {l : List α} {i : ℕ} {a : α} (h : l[i]? = some a) (b : α) :
    ((l.set i b).map f).sum + f a = (l.map f).sum + f b := by
  induction l generalizing i with
  | nil => simp at h
  | cons x l ih =>
    cases i with
    | zero =>
      obtain rfl : x = a := by simpa using h
      simp only [List.set_cons_zero, List.map_cons, List.sum_cons]
      omega
    | succ i =>
      have hrest := ih (i := i) (by simpa using h)
      simp only [List.set_cons_succ, List.map_cons, List.sum_cons]
      omega

theorem sum_map_le_length {f : α → ℕ} (hf : ∀ a, f a ≤ 1) (l : List α) :
    (l.map f).sum ≤ l.length := by
  have hsum := List.sum_le_card_nsmul (l.map f) 1 (by simpa using fun a _ => hf a)
  simpa using hsum

theorem countP_flatMap_set (f : α → List β) (p : β → Bool) {l : List α} {i : ℕ} {a : α}
    (h : l[i]? = some a) (b : α) :
    ((l.set i b).flatMap f).countP p + (f a).countP p =
      (l.flatMap f).countP p + (f b).countP p := by
  simp only [List.countP_flatMap]
  exact sum_map_set (fun x => (f x).countP p) h b

/-- A list around one of its elements. -/
theorem exists_split_at {l : List α} {i : ℕ} {a : α} (h : l[i]? = some a) :
    ∃ front back, l = front ++ a :: back ∧ l.eraseIdx i = front ++ back ∧
      ∀ b, l.set i b = front ++ b :: back := by
  induction l generalizing i with
  | nil => simp at h
  | cons x l ih =>
    cases i with
    | zero =>
      obtain rfl : x = a := by simpa using h
      exact ⟨[], l, rfl, rfl, fun b => rfl⟩
    | succ i =>
      obtain ⟨front, back, hl, he, hs⟩ := ih (i := i) (by simpa using h)
      refine ⟨x :: front, back, by rw [hl]; rfl, ?_, fun b => ?_⟩
      · rw [List.eraseIdx_cons_succ, he]
        rfl
      · rw [List.set_cons_succ, hs b]
        rfl

theorem getElem?_set_of_some {l : List α} {i : ℕ} {a : α} (h : l[i]? = some a) (b : α) (j : ℕ) :
    (l.set i b)[j]? = if i = j then some b else l[j]? := by
  obtain ⟨hi, -⟩ := List.getElem?_eq_some_iff.mp h
  rw [List.getElem?_set, if_pos hi]

theorem set_eq_self_iff {l : List α} {i : ℕ} {a b : α} (h : l[i]? = some a) :
    l.set i b = l ↔ b = a := by
  constructor
  · intro hset
    have hself : (l.set i b)[i]? = some b := (getElem?_set_of_some h b i).trans (if_pos rfl)
    rw [hset, h] at hself
    exact (Option.some.inj hself).symm
  · rintro rfl
    obtain ⟨hi, rfl⟩ := List.getElem?_eq_some_iff.mp h
    exact List.set_getElem_self hi

theorem mem_set_self {l : List α} {i : ℕ} {a : α} (h : l[i]? = some a) (b : α) : b ∈ l.set i b :=
  List.mem_of_getElem? ((getElem?_set_of_some h b i).trans (if_pos rfl))

/-- Only the replaced element may be missing afterwards. -/
theorem mem_set_or_eq {l : List α} {i : ℕ} {a x : α} (h : l[i]? = some a) (b : α) (hx : x ∈ l) :
    x ∈ l.set i b ∨ x = a := by
  obtain ⟨j, hj⟩ := List.mem_iff_getElem?.mp hx
  by_cases hij : i = j
  · subst hij
    exact Or.inr (Option.some.inj (hj.symm.trans h))
  · left
    apply List.mem_of_getElem? (i := j)
    rw [getElem?_set_of_some h, if_neg hij, hj]

theorem mem_of_mem_set {l : List α} {i : ℕ} {x b : α} (h : x ∈ l.set i b) (hne : x ≠ b) : x ∈ l :=
  (List.mem_or_eq_of_mem_set h).resolve_right hne

theorem mem_of_lookup [BEq α] [LawfulBEq α] {l : List (α × β)} {k : α} {v : β}
    (h : l.lookup k = some v) : (k, v) ∈ l := by
  obtain ⟨front, back, rfl, -⟩ := List.lookup_eq_some_iff.mp h
  exact List.mem_append_right front List.mem_cons_self

/-- An element of an extended list is an old one or the last. -/
theorem getElem?_snoc {l : List α} {a x : α} {j : ℕ} (h : (l ++ [a])[j]? = some x) :
    l[j]? = some x ∨ j = l.length ∧ x = a := by
  rcases Nat.lt_or_ge j l.length with hlt | hge
  · rw [List.getElem?_append_left hlt] at h
    exact Or.inl h
  · rw [List.getElem?_append_right hge, List.getElem?_singleton] at h
    split_ifs at h with hzero
    exact Or.inr ⟨by omega, (Option.some.inj h).symm⟩

/-- An element that is not among the others is the last one. -/
theorem eq_append_of_notMem_dropLast {l : List α} {i : ℕ} {x : α} (hi : l[i]? = some x)
    (hx : x ∉ l.dropLast) : ∃ front, l = front ++ [x] ∧ ∀ y, l.set i y = front ++ [y] := by
  rcases l.eq_nil_or_concat' with rfl | ⟨front, last, rfl⟩
  · simp at hi
  · rw [List.dropLast_concat] at hx
    rcases getElem?_snoc hi with hi | ⟨rfl, rfl⟩
    · exact absurd (List.mem_of_getElem? hi) hx
    · refine ⟨front, rfl, fun y => ?_⟩
      rw [List.set_append_right _ _ le_rfl, Nat.sub_self]
      rfl

theorem length_flatMap_le {f : α → List β} {l : List α} (h : ∀ a, (f a).length ≤ 1) :
    (l.flatMap f).length ≤ l.length := by
  induction l with
  | nil => exact le_rfl
  | cons x l ih =>
    have hx := h x
    simp only [List.flatMap_cons, List.length_append, List.length_cons]
    omega

theorem flatMap_filter_singleton {names : List α} (hn : names.Nodup) {b : β}
    {p : α → β → Bool} {a : α} (ha : a ∈ names) (h : ∀ a' ∈ names, (p a' b = true ↔ a' = a)) :
    names.flatMap (fun a => [b].filter (p a)) = [b] := by
  have hnone : ∀ l : List α, (∀ x ∈ l, ¬ p x b = true) →
      l.flatMap (fun a => [b].filter (p a)) = [] := by
    intro l hl
    rw [List.flatMap_eq_nil_iff]
    exact fun x hx => List.filter_cons_of_neg (hl x hx)
  obtain ⟨before, later, rfl⟩ := List.append_of_mem ha
  obtain ⟨hbefore, hlater⟩ : a ∉ before ∧ a ∉ later := by
    have hnodup := List.nodup_middle.mp hn
    rw [List.nodup_cons, List.mem_append, not_or] at hnodup
    exact hnodup.1
  have hother : ∀ l : List α, (∀ x ∈ l, x ∈ before ++ a :: later) → a ∉ l →
      ∀ x ∈ l, ¬ p x b = true :=
    fun l hsub hal x hx hp => hal ((h x (hsub x hx)).mp hp ▸ hx)
  rw [List.flatMap_append, List.flatMap_cons,
    hnone before (hother before (fun x hx => by simp [hx]) hbefore),
    hnone later (hother later (fun x hx => by simp [hx]) hlater)]
  simp [(h a ha).mpr rfl]

/-- Sorting a list under names leaves every element once, if it belongs to one name. -/
theorem perm_flatMap_filter {names : List α} (hn : names.Nodup) {l : List β}
    {p : α → β → Bool} (h : ∀ b ∈ l, ∃ a ∈ names, ∀ a' ∈ names, (p a' b = true ↔ a' = a)) :
    (names.flatMap (fun a => l.filter (p a))).Perm l := by
  induction l with
  | nil => simp
  | cons b l ih =>
    rw [List.forall_mem_cons] at h
    obtain ⟨⟨a, ha, hb⟩, hl⟩ := h
    have hsplit : ∀ a, (b :: l).filter (p a) = [b].filter (p a) ++ l.filter (p a) :=
      fun a => List.filter_append [b] l
    simp only [hsplit]
    refine (List.flatMap_append_perm _ _ _).symm.trans ?_
    rw [flatMap_filter_singleton hn ha hb]
    exact (ih hl).cons b

end RabbitmqLite.Collections
