import RabbitmqLite.Collections.FiniteMap

/-! # A map and the order of its keys

A program that needs the order in which values were added keeps a slice of keys
beside the map. Both describe one list of values with distinct keys, which grows
at its end, and every change of the two keeps them in step.
-/

namespace RabbitmqLite.Collections

variable {α β : Type*} [LinearOrder α]

/-- The values of the list are found under their keys, and the slice has the keys in order. -/
structure Enumerated (key : β → α) (l : List β) (m : Map α β) (order : List α) : Prop where
  nodup : (l.map key).Nodup
  order_eq : order = l.map key
  lookup : ∀ a v, m.lookup a = some v ↔ v ∈ l ∧ key v = a

namespace Enumerated
variable {key : β → α} {l : List β} {m : Map α β} {order : List α}

theorem empty (key : β → α) : Enumerated key [] ∅ [] :=
  ⟨List.nodup_nil, rfl, fun a v => by simp⟩

theorem lookup_eq_none (h : Enumerated key l m order) {a : α} :
    m.lookup a = none ↔ a ∉ l.map key := by
  rw [Option.eq_none_iff_forall_ne_some, List.mem_map, not_exists]
  exact forall_congr' (fun v => not_congr (h.lookup a v))

theorem mem_order (h : Enumerated key l m order) {a : α} : a ∈ order ↔ a ∈ m := by
  rw [h.order_eq, ← not_iff_not, ← h.lookup_eq_none, Finmap.lookup_eq_none]

theorem insert (h : Enumerated key l m order) {v : β} (hnew : m.lookup (key v) = none) :
    Enumerated key (l ++ [v]) (m.insert (key v) v) (order ++ [key v]) where
  nodup := by
    rw [List.map_append, List.map_singleton, ← List.concat_eq_append]
    exact h.nodup.concat (h.lookup_eq_none.mp hnew)
  order_eq := by rw [h.order_eq, List.map_append, List.map_singleton]
  lookup a u := by
    rw [lookup_insert_eq, List.mem_append, List.mem_singleton]
    split_ifs with ha
    · constructor
      · intro hu
        obtain rfl := Option.some.inj hu
        exact ⟨Or.inr rfl, ha.symm⟩
      · rintro ⟨hu | rfl, hk⟩
        · exact absurd (List.mem_map.mpr ⟨u, hu, hk.trans ha⟩) (h.lookup_eq_none.mp hnew)
        · rfl
    · rw [h.lookup]
      refine and_congr_left (fun hk => (or_iff_left ?_).symm)
      rintro rfl
      exact ha hk.symm

/-- A value is replaced by another one with the same key. -/
theorem update (h : Enumerated key l m order) {f : β → β} (hf : ∀ v, key (f v) = key v) {a : α}
    {v : β} (hv : m.lookup a = some v) :
    Enumerated key (l.map (fun u => if key u = a then f u else u)) (m.insert a (f v)) order := by
  have hkey : ∀ u, key (if key u = a then f u else u) = key u := by
    intro u
    split_ifs
    · exact hf u
    · rfl
  have hkeys : (l.map (fun u => if key u = a then f u else u)).map key = l.map key := by
    rw [List.map_map]
    exact List.map_congr_left (fun u _ => hkey u)
  obtain ⟨hmem, rfl⟩ := (h.lookup a v).mp hv
  refine ⟨hkeys ▸ h.nodup, hkeys ▸ h.order_eq, fun b u => ?_⟩
  rw [lookup_insert_eq, List.mem_map]
  constructor
  · split_ifs with hb
    · intro hu
      obtain rfl := Option.some.inj hu
      exact ⟨⟨v, hmem, if_pos rfl⟩, (hf v).trans hb.symm⟩
    · intro hu
      obtain ⟨hin, rfl⟩ := (h.lookup b u).mp hu
      exact ⟨⟨u, hin, if_neg hb⟩, rfl⟩
  · rintro ⟨⟨u, hu, rfl⟩, rfl⟩
    rw [hkey u]
    split_ifs with hk
    · rw [List.inj_on_of_nodup_map h.nodup hu hmem hk]
    · exact (h.lookup _ u).mpr ⟨hu, rfl⟩

theorem erase (h : Enumerated key l m order) (a : α) :
    Enumerated key (l.filter (fun v => key v ≠ a)) (m.erase a) (order.erase a) := by
  have hkeys : (l.filter (fun v => key v ≠ a)).map key = (l.map key).erase a := by
    rw [h.nodup.erase_eq_filter, List.filter_map]
    congr 1
    exact List.filter_congr (fun v _ => by simp [bne, beq_eq_decide])
  refine ⟨hkeys ▸ h.nodup.erase a, by rw [h.order_eq, hkeys], fun b v => ?_⟩
  rw [lookup_erase_eq, List.mem_filter, decide_eq_true_eq]
  split_ifs with hb
  · refine iff_of_false (by simp) ?_
    rintro ⟨⟨-, hne⟩, rfl⟩
    exact hne hb
  · rw [h.lookup]
    constructor
    · rintro ⟨hv, rfl⟩
      exact ⟨⟨hv, hb⟩, rfl⟩
    · rintro ⟨⟨hv, -⟩, hk⟩
      exact ⟨hv, hk⟩

/-- Looking up the keys of the slice gives the list back. -/
theorem filterMap_lookup (h : Enumerated key l m order) : order.filterMap m.lookup = l := by
  rw [h.order_eq, List.filterMap_map]
  conv_rhs => rw [← List.filterMap_some (l := l)]
  exact List.filterMap_congr (fun v hv => (h.lookup (key v) v).mpr ⟨hv, rfl⟩)

/-- Any other enumeration of the values is a permutation of the list. -/
theorem values_perm (h : Enumerated key l m order) :
    ((sortedKeys m).filterMap m.lookup).Perm l := by
  have hkeys : (sortedKeys m).Perm order := by
    rw [List.perm_ext_iff_of_nodup (sortedKeys_nodup m) (h.order_eq ▸ h.nodup)]
    intro a
    rw [mem_sortedKeys, h.mem_order]
  have hperm := hkeys.filterMap m.lookup
  rwa [h.filterMap_lookup] at hperm

end Enumerated
end RabbitmqLite.Collections
