import Mathlib.Data.List.Forall2
import RabbitmqLite.Collections.FiniteMap
import RabbitmqLite.Sql.Table

/-! # A map that is recorded in a table

A program keeps values in a map and writes those that are to last into a table,
one row for each name. Reading the table gives back what fits the map, and a
new map filled from the table is recorded in it.
-/

namespace RabbitmqLite.Sql
open Collections

variable {ρ β ε : Type} {rowName : ρ → String} {name : β → String} {scan : ρ → Except ε β}
  {lasting : β → Bool} {Fits : β → β → Prop}

/-- Every row is the record of a value in the map, and every value that is to last has a row. -/
structure Recorded (rowName : ρ → String) (scan : ρ → Except ε β) (lasting : β → Bool)
    (Fits : β → β → Prop) (m : Map String β) (rows : List ρ) : Prop where
  distinct : (rows.map rowName).Nodup
  read : ∀ row ∈ rows, ∃ v stored, scan row = .ok stored ∧ m.lookup (rowName row) = some v ∧
    Fits v stored
  kept : ∀ k v, m.lookup k = some v → lasting v = true → k ∈ rows.map rowName

/-- A value is entered in the map, unless it is there, and written to the table. -/
theorem Recorded.enter {m m' : Map String β} {rows : List ρ}
    (h : Recorded rowName scan lasting Fits m rows) {merge : ρ → ρ → ρ} {k : String} {v : β}
    {row : ρ} (hk : rowName row = k) (hm : m.lookup k = none ∨ m.lookup k = some v)
    (hsame : m'.lookup k = some v) (hother : ∀ k', k' ≠ k → m'.lookup k' = m.lookup k')
    (hname : ∀ old, rowName (merge old row) = k)
    (hmerge : lasting v = true → ∀ old stored, scan old = .ok stored →
      ∃ stored', scan (merge old row) = .ok stored' ∧ Fits v stored')
    (hnew : lasting v = true → m.lookup k = none →
      ∃ stored, scan row = .ok stored ∧ Fits v stored) :
    Recorded rowName scan lasting Fits m'
      (if lasting v then upsert rowName merge row rows else rows) := by
  subst hk
  split_ifs with hlasting
  · refine ⟨nodup_upsert h.distinct hname, fun other ho => ?_, fun k' v' hv' hl' => ?_⟩
    · rcases mem_upsert ho with ⟨hmem, hne⟩ | ⟨old, hold, -, rfl⟩ | ⟨rfl, hnone⟩
      · rw [hother _ hne]
        exact h.read other hmem
      · obtain ⟨_, stored, hscan, -, -⟩ := h.read old hold
        obtain ⟨stored', hscan', hfits⟩ := hmerge hlasting old stored hscan
        exact ⟨v, stored', hscan', by rw [hname]; exact hsame, hfits⟩
      · have habsent := hm.resolve_right (fun hv => hnone (h.kept _ v hv hlasting))
        obtain ⟨stored, hscan, hfits⟩ := hnew hlasting habsent
        exact ⟨v, stored, hscan, hsame, hfits⟩
    · rw [mem_keys_upsert hname]
      by_cases hk' : k' = rowName row
      · exact Or.inl hk'
      · exact Or.inr (h.kept k' v' (by rwa [hother _ hk'] at hv') hl')
  · refine ⟨h.distinct, fun other ho => ?_, fun k' v' hv' hl' => ?_⟩
    · by_cases hk' : rowName other = rowName row
      · obtain ⟨v', stored, hscan, hv', hfits⟩ := h.read other ho
        rw [hk'] at hv' ⊢
        rcases hm with hm | hm
        · rw [hv'] at hm
          cases hm
        · rw [hv'] at hm
          exact ⟨v', stored, hscan, hsame.trans hm.symm, hfits⟩
      · rw [hother _ hk']
        exact h.read other ho
    · by_cases hk' : k' = rowName row
      · rw [hk', hsame] at hv'
        cases hv'
        exact absurd hl' hlasting
      · exact h.kept k' v' (by rwa [hother _ hk'] at hv') hl'

section Refill
variable {rows listed : List ρ} {values : List β}

theorem mem_values (hread : List.Forall₂ (fun row v => scan row = .ok v) rows values) {v : β} :
    v ∈ values ↔ ∃ row ∈ rows, scan row = .ok v := by
  induction hread with
  | nil => simp
  | @cons row u rows values hscan _ ih =>
    rw [List.mem_cons, ih, List.exists_mem_cons_iff, hscan, Except.ok.injEq, eq_comm]

theorem map_name_of_forall₂ (hread : List.Forall₂ (fun row v => scan row = .ok v) rows values)
    (hname : ∀ row v, scan row = .ok v → name v = rowName row) :
    values.map name = rows.map rowName := by
  induction hread with
  | nil => rfl
  | cons hscan _ ih => rw [List.map_cons, List.map_cons, hname _ _ hscan, ih]

/-- What is found in a map that was filled from the rows of a table, in any order. -/
theorem lookup_refilled (hn : (rows.map rowName).Nodup) (hp : listed.Perm rows)
    (hread : List.Forall₂ (fun row v => scan row = .ok v) listed values)
    (hname : ∀ row v, scan row = .ok v → name v = rowName row) {k : String} {v : β} :
    (insertAll name ∅ values).lookup k = some v ↔
      ∃ row ∈ rows, rowName row = k ∧ scan row = .ok v := by
  have hkeys := map_name_of_forall₂ hread hname
  have hvalues : (values.map name).Nodup := by
    rw [hkeys]
    exact (hp.map rowName).nodup_iff.mpr hn
  constructor
  · intro hv
    have hmem : k ∈ values.map name := by
      by_contra hnot
      rw [lookup_insertAll_of_notMem name ∅ values k hnot] at hv
      cases hv
    obtain ⟨u, hu, hk, hl⟩ := lookup_insertAll_of_mem name ∅ values k hmem
    cases hv.symm.trans hl
    obtain ⟨row, hrow, hscan⟩ := (mem_values hread).mp hu
    exact ⟨row, hp.mem_iff.mp hrow, (hname row v hscan).symm.trans hk, hscan⟩
  · rintro ⟨row, hrow, rfl, hscan⟩
    rw [← hname row v hscan]
    apply lookup_insertAll_of_nodup name ∅ values hvalues
    exact (mem_values hread).mpr ⟨row, hp.mem_iff.mpr hrow, hscan⟩

/-- A map filled from a table is recorded in it. -/
theorem recorded_refilled (hn : (rows.map rowName).Nodup) (hp : listed.Perm rows)
    (hread : List.Forall₂ (fun row v => scan row = .ok v) listed values)
    (hname : ∀ row v, scan row = .ok v → name v = rowName row)
    (hfits : ∀ row v, scan row = .ok v → Fits v v) :
    Recorded rowName scan lasting Fits (insertAll name ∅ values) rows := by
  refine ⟨hn, fun row hrow => ?_, fun k v hv _ => ?_⟩
  · obtain ⟨v, hscan⟩ : ∃ v, scan row = .ok v := by
      have hrow' := hp.mem_iff.mpr hrow
      clear hp hn
      induction hread with
      | nil => cases hrow'
      | @cons _ u _ _ hu _ ih =>
        rcases List.mem_cons.mp hrow' with rfl | hrow'
        · exact ⟨u, hu⟩
        · exact ih hrow'
    exact ⟨v, v, hscan, (lookup_refilled hn hp hread hname).mpr ⟨row, hrow, rfl, hscan⟩,
      hfits row v hscan⟩
  · obtain ⟨row, hrow, rfl, -⟩ := (lookup_refilled hn hp hread hname).mp hv
    exact List.mem_map_of_mem hrow

end Refill
end RabbitmqLite.Sql
