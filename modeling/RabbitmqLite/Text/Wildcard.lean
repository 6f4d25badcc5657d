import Mathlib.Data.List.Forall2
import Mathlib.Tactic

/-! # Patterns of words with two wildcards

A pattern is a list of words, two of which are wildcards: one stands for a
single arbitrary word, the other for any finite sequence of words. What a
pattern can become is decided from its first word and the first word of the
text, so it can be tabulated from the ends.
-/

namespace RabbitmqLite.Text

variable {α : Type*} {single multi : α}

/-- What may replace one word of a pattern. -/
def Replaces (single multi word : α) (piece : List α) : Prop :=
  word = multi ∨ word ≠ multi ∧ word = single ∧ piece.length = 1 ∨
    word ≠ multi ∧ word ≠ single ∧ piece = [word]

/-- The text is the pattern with every word replaced. -/
def Obtains (single multi : α) (pattern text : List α) : Prop :=
  ∃ pieces, List.Forall₂ (Replaces single multi) pattern pieces ∧ pieces.flatten = text

theorem obtains_nil {text : List α} : Obtains single multi [] text ↔ text = [] := by
  constructor
  · rintro ⟨pieces, hpieces, rfl⟩
    cases hpieces
    rfl
  · rintro rfl
    exact ⟨[], .nil, rfl⟩

theorem obtains_cons {word : α} {pattern text : List α} :
    Obtains single multi (word :: pattern) text ↔
      ∃ piece rest, Replaces single multi word piece ∧ Obtains single multi pattern rest ∧
        piece ++ rest = text := by
  constructor
  · rintro ⟨pieces, hpieces, rfl⟩
    cases hpieces with
    | @cons _ piece _ pieces hpiece hrest =>
      exact ⟨piece, pieces.flatten, hpiece, ⟨pieces, hrest, rfl⟩, rfl⟩
  · rintro ⟨piece, _, hpiece, ⟨pieces, hpieces, rfl⟩, rfl⟩
    exact ⟨piece :: pieces, .cons hpiece hpieces, rfl⟩

/-- A wildcard for many words takes none, or one more. -/
theorem obtains_multi_cons {pattern text : List α} {head : α} :
    Obtains single multi (multi :: pattern) (head :: text) ↔
      Obtains single multi pattern (head :: text) ∨
        Obtains single multi (multi :: pattern) text := by
  rw [obtains_cons, obtains_cons]
  constructor
  · rintro ⟨_ | ⟨first, piece⟩, rest, -, hrest, htext⟩
    · rw [List.nil_append] at htext
      exact Or.inl (htext ▸ hrest)
    · exact Or.inr ⟨piece, rest, Or.inl rfl, hrest, (List.cons.inj htext).2⟩
  · rintro (hrest | ⟨piece, rest, -, hrest, rfl⟩)
    · exact ⟨[], head :: text, Or.inl rfl, hrest, rfl⟩
    · exact ⟨head :: piece, rest, Or.inl rfl, hrest, rfl⟩

theorem obtains_multi_nil {pattern : List α} :
    Obtains single multi (multi :: pattern) [] ↔ Obtains single multi pattern [] := by
  rw [obtains_cons]
  constructor
  · rintro ⟨piece, rest, -, hrest, htext⟩
    rwa [(List.append_eq_nil_iff.mp htext).2] at hrest
  · intro hrest
    exact ⟨[], [], Or.inl rfl, hrest, rfl⟩

/-- Any other word takes exactly one word of the text. -/
theorem obtains_word_cons {word head : α} {pattern text : List α} (hm : word ≠ multi) :
    Obtains single multi (word :: pattern) (head :: text) ↔
      (word = single ∨ word = head) ∧ Obtains single multi pattern text := by
  rw [obtains_cons]
  constructor
  · rintro ⟨piece, rest, heq | ⟨-, hs, hlength⟩ | ⟨-, -, rfl⟩, hrest, htext⟩
    · exact absurd heq hm
    · obtain ⟨first, rfl⟩ := List.length_eq_one_iff.mp hlength
      exact ⟨Or.inl hs, (List.cons.inj htext).2 ▸ hrest⟩
    · exact ⟨Or.inr (List.cons.inj htext).1, (List.cons.inj htext).2 ▸ hrest⟩
  · rintro ⟨hword, hrest⟩
    refine ⟨[head], text, ?_, hrest, rfl⟩
    by_cases hs : word = single
    · exact Or.inr (Or.inl ⟨hm, hs, rfl⟩)
    · exact Or.inr (Or.inr ⟨hm, hs, by rw [hword.resolve_left hs]⟩)

theorem not_obtains_word_nil {word : α} {pattern : List α} (hm : word ≠ multi) :
    ¬ Obtains single multi (word :: pattern) [] := by
  rw [obtains_cons]
  rintro ⟨piece, rest, heq | ⟨-, -, hlength⟩ | ⟨-, -, rfl⟩, -, htext⟩
  · exact hm heq
  · rw [(List.append_eq_nil_iff.mp htext).1] at hlength
    cases hlength
  · cases htext

end RabbitmqLite.Text
