import Mathlib.Order.Bounds.Basic
import Mathlib.Tactic

/-! # The earliest of the things that were seen

Things happen one after the other, each at its time, and somebody sees some of
them. What was seen first happened at the earliest time of what was seen, and
this is the earliest time of all only if nothing that was not seen happened
before.
-/

namespace RabbitmqLite.Collections
variable {α τ : Type*} [PartialOrder τ] {time : α → τ} {Seen : α → Prop}

/-- The time noted for the first of the things that were seen, if there was one. -/
def FirstSeen (time : α → τ) (Seen : α → Prop) (xs : List α) : Option τ → Prop
  | none => ∀ x ∈ xs, ¬ Seen x
  | some t => IsLeast {t | ∃ x ∈ xs, Seen x ∧ time x = t} t

theorem FirstSeen.nil (time : α → τ) (Seen : α → Prop) : FirstSeen time Seen [] none :=
  fun _ hx => absurd hx List.not_mem_nil

/-- Something happens and is not seen. -/
theorem FirstSeen.skip {xs : List α} {noted : Option τ} (h : FirstSeen time Seen xs noted) {x : α}
    (hx : ¬ Seen x) : FirstSeen time Seen (xs ++ [x]) noted := by
  have hsame : ∀ y, y ∈ xs ++ [x] → Seen y → y ∈ xs := by
    intro y hy hs
    rcases List.mem_append.mp hy with hy | hy
    · exact hy
    · exact absurd (List.mem_singleton.mp hy ▸ hs) hx
  cases noted with
  | none => exact fun y hy hs => h y (hsame y hy hs) hs
  | some t =>
    obtain ⟨⟨first, hm, hs, ht⟩, hleast⟩ := h
    refine ⟨⟨first, List.mem_append_left [x] hm, hs, ht⟩, ?_⟩
    rintro _ ⟨y, hy, hys, rfl⟩
    exact hleast ⟨y, hsame y hy hys, hys, rfl⟩

/-- Something happens and is seen: it is noted if it is the first. -/
theorem FirstSeen.snoc {xs : List α} {noted : Option τ} (h : FirstSeen time Seen xs noted) {x : α}
    (hx : Seen x) (hlast : ∀ y ∈ xs, time y ≤ time x) :
    FirstSeen time Seen (xs ++ [x]) (noted.or (some (time x))) := by
  cases noted with
  | none =>
    refine ⟨⟨x, List.mem_append_right xs (List.mem_singleton_self x), hx, rfl⟩, ?_⟩
    rintro _ ⟨y, hy, hs, rfl⟩
    rcases List.mem_append.mp hy with hy | hy
    · exact absurd hs (h y hy)
    · exact (congrArg time (List.mem_singleton.mp hy)).ge
  | some t =>
    obtain ⟨⟨first, hm, hs, rfl⟩, hleast⟩ := h
    refine ⟨⟨first, List.mem_append_left [x] hm, hs, rfl⟩, ?_⟩
    rintro _ ⟨y, hy, hys, rfl⟩
    rcases List.mem_append.mp hy with hy | hy
    · exact hleast ⟨y, hy, hys, rfl⟩
    · rw [List.mem_singleton.mp hy]
      exact hlast first hm

/-- What was seen first is the earliest of all exactly if one of the earliest was seen. -/
theorem isLeast_iff_of_seen {xs : List α} {t : τ}
    (h : IsLeast {t | ∃ x ∈ xs, Seen x ∧ time x = t} t) :
    IsLeast {t | ∃ x ∈ xs, time x = t} t ↔ ∃ x ∈ xs, Seen x ∧ ∀ y ∈ xs, time x ≤ time y := by
  obtain ⟨⟨first, hm, hs, rfl⟩, hleast⟩ := h
  constructor
  · intro hall
    exact ⟨first, hm, hs, fun y hy => hall.2 ⟨y, hy, rfl⟩⟩
  · rintro ⟨x, hx, hxs, hmin⟩
    have hsame : time first = time x := le_antisymm (hleast ⟨x, hx, hxs, rfl⟩) (hmin first hm)
    refine ⟨⟨first, hm, rfl⟩, ?_⟩
    rintro _ ⟨y, hy, rfl⟩
    exact hsame.le.trans (hmin y hy)

end RabbitmqLite.Collections
