import RabbitmqLite.Broker.Registry
import RabbitmqLite.Text.Wildcard

/-! # Topic matching

The matching table has a row for every rest of the pattern and a column for
every rest of the key. Filled in from the last row and from the last column of
each row, an entry says whether the one rest can be obtained from the other.
-/

namespace RabbitmqLite.Broker
open Text

/-- The rest of a key can be obtained from the rest of a pattern. -/
abbrev Matches (pattern key : List String) : Prop :=
  Obtains wildcardSingle wildcardMulti pattern key

/-- The row of a rest of the pattern: one entry for every rest of the key. -/
def RowOf (pattern key : List String) (row : List Bool) : Prop :=
  List.Forall₂ (fun rest entry => entry = true ↔ Matches pattern rest) key.tails row

theorem rowOf_nil {pattern : List String} {row : List Bool} :
    RowOf pattern [] row ↔ ∃ entry, row = [entry] ∧ (entry = true ↔ Matches pattern []) := by
  unfold RowOf
  rw [List.tails]
  constructor
  · rintro ⟨⟩
    rename_i entry row hentry hrow
    cases hrow
    exact ⟨entry, rfl, hentry⟩
  · rintro ⟨entry, rfl, hentry⟩
    exact .cons hentry .nil

theorem rowOf_cons {pattern key : List String} {k : String} {row : List Bool} :
    RowOf pattern (k :: key) row ↔
      ∃ entry right, row = entry :: right ∧ (entry = true ↔ Matches pattern (k :: key)) ∧
        RowOf pattern key right := by
  unfold RowOf
  rw [List.tails_cons]
  constructor
  · rintro ⟨⟩
    rename_i entry right hentry hright
    exact ⟨entry, right, rfl, hentry, hright⟩
  · rintro ⟨entry, right, rfl, hentry, hright⟩
    exact .cons hentry hright

theorem RowOf.headD {pattern key : List String} {row : List Bool} (h : RowOf pattern key row) :
    row.headD false = true ↔ Matches pattern key := by
  cases key with
  | nil =>
    obtain ⟨entry, rfl, hentry⟩ := rowOf_nil.mp h
    exact hentry
  | cons k key =>
    obtain ⟨entry, right, rfl, hentry, -⟩ := rowOf_cons.mp h
    exact hentry

theorem rowOf_lastRow (key : List String) : RowOf [] key (lastRow key) := by
  induction key with
  | nil => exact rowOf_nil.mpr ⟨true, rfl, by simp [obtains_nil]⟩
  | cons k key ih => exact rowOf_cons.mpr ⟨false, lastRow key, rfl, by simp [obtains_nil], ih⟩

/-- A row is right if the row below it is. -/
theorem rowOf_matchRow {segment : String} {pattern key : List String} {below : List Bool}
    (h : RowOf pattern key below) :
    RowOf (segment :: pattern) key (matchRow segment key below) := by
  induction key generalizing below with
  | nil =>
    refine rowOf_nil.mpr ⟨_, rfl, ?_⟩
    by_cases hm : segment = wildcardMulti
    · subst hm
      simpa [obtains_multi_nil] using h.headD
    · simp [hm, not_obtains_word_nil hm]
  | cons k key ih =>
    obtain ⟨entry, right, rfl, hentry, hright⟩ := rowOf_cons.mp h
    have hnext := ih hright
    refine rowOf_cons.mpr ⟨_, _, rfl, ?_, hnext⟩
    by_cases hm : segment = wildcardMulti
    · subst hm
      rw [if_pos rfl, Matches, obtains_multi_cons, Bool.or_eq_true]
      exact or_congr hentry hnext.headD
    · rw [if_neg hm, Matches, obtains_word_cons hm]
      split_ifs with hword
      · simpa [hword] using hright.headD
      · simp [hword]

theorem rowOf_foldr (pattern key : List String) :
    RowOf pattern key
      (pattern.foldr (fun segment below => matchRow segment key below) (lastRow key)) := by
  induction pattern with
  | nil => exact rowOf_lastRow key
  | cons segment pattern ih => exact rowOf_matchRow ih

theorem matchSegments_iff (pattern key : List String) :
    matchSegments pattern key = true ↔ Matches pattern key :=
  (rowOf_foldr pattern key).headD

theorem split_wildcardMulti : split wildcardMulti = [wildcardMulti] := by decide

/-- The wildcard for many words alone can become anything. -/
theorem matches_wildcardMulti (key : List String) : Matches [wildcardMulti] key := by
  induction key with
  | nil => exact obtains_multi_nil.mpr (obtains_nil.mpr rfl)
  | cons k key ih => exact obtains_multi_cons.mpr (Or.inr ih)

/-- The shortcut gives the answer of the table. -/
theorem matchTopic_eq (pattern routingKey : String) :
    matchTopic pattern routingKey = matchSegments (split pattern) (split routingKey) := by
  unfold matchTopic
  split_ifs with hmulti
  · subst hmulti
    rw [split_wildcardMulti, eq_comm, matchSegments_iff]
    exact matches_wildcardMulti _
  · rfl

/-- A routing key matches a pattern exactly if its segments can be obtained from those of the
pattern by replacing each `*` with one segment, each `#` with any sequence of segments, and
leaving the others as they are; the shortcut for the pattern `#` agrees with the table. -/
theorem matchTopic_iff (pattern routingKey : String) :
    (matchTopic pattern routingKey = true ↔
      ∃ pieces, List.Forall₂ (Replaces wildcardSingle wildcardMulti) (split pattern) pieces ∧
        pieces.flatten = split routingKey) ∧
    matchTopic pattern routingKey = matchSegments (split pattern) (split routingKey) := by
  refine ⟨?_, matchTopic_eq pattern routingKey⟩
  rw [matchTopic_eq]
  exact matchSegments_iff _ _

end RabbitmqLite.Broker
