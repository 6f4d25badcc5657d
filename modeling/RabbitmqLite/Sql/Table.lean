import Mathlib.Data.List.Dedup
import Mathlib.Data.List.Sort
import Mathlib.Tactic

/-! # Tables as lists of rows

The SQL statements a program runs against a single table, over rows of any
type: a selection with an order and a limit, an update and a deletion of the
rows that meet a condition, an insertion under a unique key, an insertion that
overwrites on conflict, and a count by group.
-/

namespace RabbitmqLite.Sql

variable {ρ κ γ : Type*}

/-- `ORDER BY`, for a relation that compares rows. -/
def orderBy (before : ρ → ρ → Prop) [DecidableRel before] (rows : List ρ) : List ρ :=
  rows.insertionSort before

/-- `LIMIT`; a negative limit is no limit. -/
def limit (n : ℤ) (rows : List ρ) : List ρ := if n < 0 then rows else rows.take n.toNat

/-- `OFFSET`; a negative offset is none. -/
def offset (n : ℤ) (rows : List ρ) : List ρ := rows.drop n.toNat

/-- `UPDATE ... SET ... WHERE`. -/
def update (cond : ρ → Bool) (set : ρ → ρ) (rows : List ρ) : List ρ :=
  rows.map (fun row => if cond row then set row else row)

/-- `DELETE ... WHERE`. -/
def delete (cond : ρ → Bool) (rows : List ρ) : List ρ := rows.filter (fun row => !cond row)

/-- `INSERT` into a table with a unique key; `none` is a violation of it. -/
def insertUnique [DecidableEq κ] (key : ρ → κ) (row : ρ) (rows : List ρ) : Option (List ρ) :=
  if rows.any (fun other => key other = key row) then none else some (rows ++ [row])

/-- `INSERT ... ON CONFLICT DO UPDATE`; `merge` combines the old row with the new one. -/
def upsert [DecidableEq κ] (key : ρ → κ) (merge : ρ → ρ → ρ) (row : ρ) (rows : List ρ) : List ρ :=
  if rows.any (fun other => key other = key row) then
    update (fun other => key other = key row) (fun old => merge old row) rows
  else rows ++ [row]

/-- `SELECT group, COUNT(*) ... GROUP BY group`. -/
def groupCount [DecidableEq γ] (group : ρ → γ) (rows : List ρ) : List (γ × ℕ) :=
  (rows.map group).dedup.map (fun g => (g, (rows.map group).count g))

/-- The row under a key. -/
def byKey [DecidableEq κ] (key : ρ → κ) (k : κ) (rows : List ρ) : Option ρ :=
  rows.find? (fun row => key row = k)

section Keys
variable {key : ρ → κ} {rows : List ρ}

theorem byKey_eq_some [DecidableEq κ] (hn : (rows.map key).Nodup) {k : κ} {row : ρ} :
    byKey key k rows = some row ↔ row ∈ rows ∧ key row = k := by
  constructor
  · intro h
    exact ⟨List.mem_of_find?_eq_some h, by simpa using List.find?_some h⟩
  · rintro ⟨hm, hk⟩
    cases hf : byKey key k rows with
    | none =>
      have hnone := List.find?_eq_none.mp hf row hm
      simp [hk] at hnone
    | some other =>
      have hmo := List.mem_of_find?_eq_some hf
      have hko : key other = k := by simpa using List.find?_some hf
      rw [List.inj_on_of_nodup_map hn hmo hm (hko.trans hk.symm)]

theorem byKey_eq_none [DecidableEq κ] {k : κ} : byKey key k rows = none ↔ k ∉ rows.map key := by
  simp [byKey, List.find?_eq_none]

/-- An update that keeps the keys keeps the list of keys. -/
theorem map_key_update {cond : ρ → Bool} {set : ρ → ρ}
    (h : ∀ row, cond row = true → key (set row) = key row) :
    (update cond set rows).map key = rows.map key := by
  simp only [update, List.map_map]
  apply List.map_congr_left
  intro row _
  simp only [Function.comp_apply]
  split_ifs with hc
  · exact h row hc
  · rfl

theorem mem_keys_upsert [DecidableEq κ] {merge : ρ → ρ → ρ} {row : ρ}
    (h : ∀ old, key (merge old row) = key row) {k : κ} :
    k ∈ (upsert key merge row rows).map key ↔ k = key row ∨ k ∈ rows.map key := by
  unfold upsert
  split_ifs with hany
  · have hkey : ∀ old, decide (key old = key row) = true → key (merge old row) = key old :=
      fun old ho => (h old).trans (of_decide_eq_true ho).symm
    rw [map_key_update hkey]
    refine ⟨Or.inr, ?_⟩
    rintro (rfl | hk)
    · obtain ⟨other, hm, hk⟩ := List.any_eq_true.mp hany
      exact List.mem_map.mpr ⟨other, hm, by simpa using hk⟩
    · exact hk
  · simp [or_comm]

/-- The rows after an insertion that overwrites on conflict. -/
theorem mem_upsert [DecidableEq κ] {merge : ρ → ρ → ρ} {row other : ρ} :
    other ∈ upsert key merge row rows →
      other ∈ rows ∧ key other ≠ key row ∨
        (∃ old ∈ rows, key old = key row ∧ other = merge old row) ∨
        other = row ∧ key row ∉ rows.map key := by
  unfold upsert
  split_ifs with hany
  · intro hother
    obtain ⟨old, hold, rfl⟩ := List.mem_map.mp hother
    by_cases hkey : key old = key row
    · exact Or.inr (Or.inl ⟨old, hold, hkey, by simp [hkey]⟩)
    · exact Or.inl (by simpa [hkey] using hold)
  · have hnew : key row ∉ rows.map key := by simpa using hany
    intro hother
    rcases List.mem_append.mp hother with hother | hother
    · refine Or.inl ⟨hother, fun hkey => hnew ?_⟩
      exact hkey ▸ List.mem_map_of_mem hother
    · exact Or.inr (Or.inr ⟨List.mem_singleton.mp hother, hnew⟩)

theorem nodup_upsert [DecidableEq κ] {merge : ρ → ρ → ρ} {row : ρ} (hn : (rows.map key).Nodup)
    (h : ∀ old, key (merge old row) = key row) : ((upsert key merge row rows).map key).Nodup := by
  unfold upsert
  split_ifs with hany
  · have hkey : ∀ old, decide (key old = key row) = true → key (merge old row) = key old :=
      fun old ho => (h old).trans (of_decide_eq_true ho).symm
    rwa [map_key_update hkey]
  · have hnew : key row ∉ rows.map key := by simpa using hany
    rw [List.map_append]
    exact hn.append (List.nodup_singleton _) (List.disjoint_singleton.mpr hnew)

theorem nodup_delete {cond : ρ → Bool} (hn : (rows.map key).Nodup) :
    ((delete cond rows).map key).Nodup := hn.sublist (List.filter_sublist.map key)

end Keys

/-- The total over the groups that meet a condition counts the rows that meet it. -/
theorem sum_groupCount [DecidableEq γ] (group : ρ → γ) (rows : List ρ) (cond : γ → Bool) :
    (((groupCount group rows).filter (fun g => cond g.1)).map Prod.snd).sum =
      rows.countP (fun row => cond (group row)) := by
  have h := List.sum_map_count_dedup_filter_eq_countP cond (rows.map group)
  rw [List.countP_map] at h
  rw [groupCount, List.filter_map, List.map_map]
  exact h

end RabbitmqLite.Sql
