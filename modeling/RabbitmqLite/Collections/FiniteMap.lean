import Mathlib.Data.Finmap
import Mathlib.Data.List.Sort
import Mathlib.Data.String.Basic
import Mathlib.Tactic

/-! # Ordered enumeration and bulk changes of a finite map

A finite map has no order of its own. A program that walks one and sorts what
it met sees the keys in increasing order, whatever the order of the walk; the
enumeration below is that list. Bulk insertion and deletion are characterised
by what a later lookup returns.
-/

namespace RabbitmqLite.Collections

variable {α : Type*} {β : Type*} [LinearOrder α]

abbrev Map (α : Type*) (β : Type*) := Finmap (fun _ : α => β)

/-- The keys in increasing order, by insertion sort of any enumeration. -/
def sortedKeys (m : Map α β) : List α :=
  Quot.liftOn m.keys.val (List.insertionSort (· ≤ ·)) (fun l₁ l₂ h =>
    (((List.perm_insertionSort (· ≤ ·) l₁).trans h).trans
      (List.perm_insertionSort (· ≤ ·) l₂).symm).eq_of_pairwise'
      (List.pairwise_insertionSort (· ≤ ·) l₁) (List.pairwise_insertionSort (· ≤ ·) l₂))

theorem coe_sortedKeys (m : Map α β) : (sortedKeys m : Multiset α) = m.keys.val := by
  unfold sortedKeys
  induction m.keys.val using Quot.inductionOn with
  | h l => exact Multiset.coe_eq_coe.mpr (List.perm_insertionSort (· ≤ ·) l)

theorem mem_sortedKeys {m : Map α β} {a : α} : a ∈ sortedKeys m ↔ a ∈ m := by
  rw [← Multiset.mem_coe, coe_sortedKeys, Finset.mem_val, Finmap.mem_keys]

theorem sortedKeys_nodup (m : Map α β) : (sortedKeys m).Nodup := by
  rw [← Multiset.coe_nodup, coe_sortedKeys]
  exact m.keys.nodup

/-- Maps with the same keys are enumerated alike. -/
theorem sortedKeys_congr {γ : Type*} {m : Map α β} {n : Map α γ} (h : ∀ a, a ∈ m ↔ a ∈ n) :
    sortedKeys m = sortedKeys n := by
  have hk : m.keys = n.keys := by
    ext a
    rw [Finmap.mem_keys, Finmap.mem_keys, h a]
  unfold sortedKeys
  rw [hk]

theorem lookup_insert_eq (m : Map α β) (a b : α) (v : β) :
    (m.insert a v).lookup b = if b = a then some v else m.lookup b := by
  split_ifs with h
  · subst h
    exact Finmap.lookup_insert m
  · exact Finmap.lookup_insert_of_ne m h

theorem lookup_erase_eq (m : Map α β) (a b : α) :
    (m.erase a).lookup b = if b = a then none else m.lookup b := by
  split_ifs with h
  · subst h
    exact Finmap.lookup_erase b m
  · exact Finmap.lookup_erase_ne h

theorem mem_iff_lookup {m : Map α β} {a : α} : a ∈ m ↔ ∃ v, m.lookup a = some v := by
  rw [← Finmap.lookup_isSome, Option.isSome_iff_exists]

/-- Delete every key of a list. -/
def eraseAll (m : Map α β) (keys : List α) : Map α β := keys.foldl (fun m a => m.erase a) m

theorem lookup_eraseAll (m : Map α β) (keys : List α) (a : α) :
    (eraseAll m keys).lookup a = if a ∈ keys then none else m.lookup a := by
  induction keys generalizing m with
  | nil => simp [eraseAll]
  | cons k keys ih =>
    change (eraseAll (m.erase k) keys).lookup a = _
    rw [ih, lookup_erase_eq]
    by_cases hk : a = k <;> by_cases hm : a ∈ keys <;> simp [hk, hm]

/-- Change the value under every key of a list, where there is one. -/
def adjustAll (f : β → β) (m : Map α β) (keys : List α) : Map α β :=
  keys.foldl (fun m a =>
    match m.lookup a with
    | none => m
    | some v => m.insert a (f v)) m

theorem lookup_adjustAll (f : β → β) (m : Map α β) {keys : List α} (hn : keys.Nodup) (a : α) :
    (adjustAll f m keys).lookup a = if a ∈ keys then (m.lookup a).map f else m.lookup a := by
  induction keys generalizing m with
  | nil => simp [adjustAll]
  | cons k keys ih =>
    obtain ⟨hk, hn⟩ := List.nodup_cons.mp hn
    cases hl : m.lookup k with
    | none =>
      have hstep : adjustAll f m (k :: keys) = adjustAll f m keys := by simp [adjustAll, hl]
      rw [hstep, ih m hn]
      by_cases ha : a = k
      · subst ha
        simp [hk, hl]
      · simp [ha]
    | some v =>
      have hstep : adjustAll f m (k :: keys) = adjustAll f (m.insert k (f v)) keys := by
        simp [adjustAll, hl]
      rw [hstep, ih _ hn, lookup_insert_eq]
      by_cases ha : a = k
      · subst ha
        simp [hk, hl]
      · simp [ha]

/-- Insert every value of a list under the key it carries; a later one wins. -/
def insertAll (key : β → α) (m : Map α β) (values : List β) : Map α β :=
  values.foldl (fun m v => m.insert (key v) v) m

theorem lookup_insertAll_of_notMem (key : β → α) (m : Map α β) (values : List β) (a : α)
    (h : a ∉ values.map key) : (insertAll key m values).lookup a = m.lookup a := by
  induction values generalizing m with
  | nil => rfl
  | cons v values ih =>
    simp only [List.map_cons, List.mem_cons, not_or] at h
    change (insertAll key (m.insert (key v) v) values).lookup a = _
    rw [ih _ h.2, lookup_insert_eq, if_neg h.1]

theorem lookup_insertAll_of_mem (key : β → α) (m : Map α β) (values : List β) (a : α)
    (h : a ∈ values.map key) :
    ∃ v ∈ values, key v = a ∧ (insertAll key m values).lookup a = some v := by
  induction values generalizing m with
  | nil => cases h
  | cons u values ih =>
    by_cases ha : a ∈ values.map key
    · obtain ⟨v, hv, hk, hl⟩ := ih (m.insert (key u) u) ha
      exact ⟨v, List.mem_cons_of_mem u hv, hk, hl⟩
    · have hu : a = key u := by simpa [ha] using h
      refine ⟨u, List.mem_cons_self, hu.symm, ?_⟩
      change (insertAll key (m.insert (key u) u) values).lookup a = _
      rw [lookup_insertAll_of_notMem key _ _ _ ha, lookup_insert_eq, if_pos hu]

/-- With distinct keys every listed value is found under its own key. -/
theorem lookup_insertAll_of_nodup (key : β → α) (m : Map α β) (values : List β)
    (hn : (values.map key).Nodup) {v : β} (hv : v ∈ values) :
    (insertAll key m values).lookup (key v) = some v := by
  obtain ⟨u, hu, hk, hl⟩ :=
    lookup_insertAll_of_mem key m values (key v) (List.mem_map_of_mem hv)
  rw [hl, List.inj_on_of_nodup_map hn hu hv hk]

/-- The values of a map, each of which knows its own key. -/
theorem map_key_values (key : β → α) {m : Map α β}
    (hk : ∀ a v, m.lookup a = some v → key v = a) :
    ((sortedKeys m).filterMap m.lookup).map key = sortedKeys m := by
  rw [List.map_filterMap]
  conv_rhs => rw [← List.filterMap_some (l := sortedKeys m)]
  apply List.filterMap_congr
  intro a ha
  obtain ⟨v, hv⟩ := mem_iff_lookup.mp (mem_sortedKeys.mp ha)
  rw [hv, Option.map_some, hk a v hv]

/-- A map that is rebuilt from its values is the same map. -/
theorem lookup_insertAll_values (key : β → α) {m : Map α β}
    (hk : ∀ a v, m.lookup a = some v → key v = a) (a : α) :
    (insertAll key ∅ ((sortedKeys m).filterMap m.lookup)).lookup a = m.lookup a := by
  by_cases ha : a ∈ ((sortedKeys m).filterMap m.lookup).map key
  · obtain ⟨v, hv, rfl, hl⟩ := lookup_insertAll_of_mem key ∅ _ a ha
    obtain ⟨b, -, hb⟩ := List.mem_filterMap.mp hv
    rw [hl, hk b v hb, hb]
  · rw [lookup_insertAll_of_notMem key ∅ _ a ha, Finmap.lookup_empty]
    rw [map_key_values key hk, mem_sortedKeys] at ha
    exact (Finmap.lookup_eq_none.mpr ha).symm

end RabbitmqLite.Collections
