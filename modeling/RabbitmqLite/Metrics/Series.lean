import RabbitmqLite.Collections.Cuts
import RabbitmqLite.Metrics.Registry

/-! # Series and their texts

Two series have the same text only if they have the same name and the same
labels, whatever the values of the labels are. All that is needed is that names
of metrics have no opening brace and names of labels no equals sign.
-/

namespace RabbitmqLite.Metrics
open Collections Text

/-! ## Labels -/

/-- No label is named with an equals sign. -/
def CleanLabels (labels : Labels) : Prop := ∀ name ∈ labels, '=' ∉ name.toList

def CleanName (name : String) : Prop := '\x7b' ∉ name.toList

instance (name : String) : Decidable (CleanName name) := inferInstanceAs (Decidable (¬ _))

theorem mem_pairs {labels : Labels} {name value : String} :
    (name, value) ∈ Labels.pairs labels ↔ labels.lookup name = some value := by
  rw [Labels.pairs, List.mem_filterMap]
  constructor
  · rintro ⟨a, -, ha⟩
    obtain ⟨v, hv, heq⟩ := Option.map_eq_some_iff.mp ha
    obtain ⟨rfl, rfl⟩ := Prod.mk.inj heq
    exact hv
  · intro h
    exact ⟨name, mem_sortedKeys.mpr (mem_iff_lookup.mpr ⟨value, h⟩), by rw [h]; rfl⟩

theorem pairs_inj {labels labels' : Labels} (h : Labels.pairs labels = Labels.pairs labels') :
    labels = labels' := by
  refine Finmap.ext_lookup (fun name => Option.ext (fun value => ?_))
  rw [← mem_pairs, h, mem_pairs]

theorem CleanLabels.pairs {labels : Labels} (h : CleanLabels labels) :
    ∀ pair ∈ Labels.pairs labels, '=' ∉ pair.1.toList := by
  rintro ⟨name, value⟩ hmem
  exact h name (mem_iff_lookup.mpr ⟨value, mem_pairs.mp hmem⟩)

/-! ## Texts -/

section Render
variable {isPrint : Char → Bool}

/-- What follows the first pair. -/
def renderRest (isPrint : Char → Bool) : List (String × String) → List Char
  | [] => []
  | pair :: pairs => ',' :: renderPairs isPrint (pair :: pairs)

theorem renderPairs_cons (pair : String × String) (pairs : List (String × String)) :
    renderPairs isPrint (pair :: pairs) = renderPair isPrint pair ++ renderRest isPrint pairs := by
  cases pairs with
  | nil => simp [renderPairs, renderRest]
  | cons next pairs => simp [renderPairs, renderRest]

theorem renderPair_inj {pair pair' : String × String} {x y : List Char}
    (hp : '=' ∉ pair.1.toList) (hp' : '=' ∉ pair'.1.toList)
    (h : renderPair isPrint pair ++ x = renderPair isPrint pair' ++ y) : pair = pair' ∧ x = y := by
  simp only [renderPair, List.append_assoc, List.cons_append] at h
  obtain ⟨hname, hrest⟩ := append_cons_inj hp hp' h
  obtain ⟨hvalue, hxy⟩ := quoted_append_inj hrest
  exact ⟨Prod.ext (String.toList_injective hname) (String.toList_injective hvalue), hxy⟩

theorem renderPairs_inj {pairs pairs' : List (String × String)}
    (hp : ∀ pair ∈ pairs, '=' ∉ pair.1.toList) (hp' : ∀ pair ∈ pairs', '=' ∉ pair.1.toList)
    (h : renderPairs isPrint pairs = renderPairs isPrint pairs') : pairs = pairs' := by
  have hne : ∀ pair rest, renderPairs isPrint (pair :: rest) ≠ [] := by
    intro pair rest
    simp [renderPairs_cons, renderPair]
  induction pairs generalizing pairs' with
  | nil =>
    cases pairs' with
    | nil => rfl
    | cons pair' pairs' => exact absurd h.symm (hne _ _)
  | cons pair pairs ih =>
    cases pairs' with
    | nil => exact absurd h (hne _ _)
    | cons pair' pairs' =>
      rw [List.forall_mem_cons] at hp hp'
      rw [renderPairs_cons, renderPairs_cons] at h
      obtain ⟨rfl, hrest⟩ := renderPair_inj hp.1 hp'.1 h
      cases pairs with
      | nil =>
        cases pairs' with
        | nil => rfl
        | cons next' pairs' => cases hrest
      | cons next pairs =>
        cases pairs' with
        | nil => cases hrest
        | cons next' pairs' => rw [ih hp.2 hp'.2 (List.cons.inj hrest).2]

theorem renderLabels_inj {labels labels' : Labels} (hl : CleanLabels labels)
    (hl' : CleanLabels labels') (h : renderLabels isPrint labels = renderLabels isPrint labels') :
    labels = labels' :=
  pairs_inj (renderPairs_inj hl.pairs hl'.pairs (String.ofList_injective h))

theorem toList_seriesKey (name : String) (labels : Labels) :
    (seriesKey isPrint name labels).toList =
      name.toList ++ '\x7b' :: ((renderLabels isPrint labels).toList ++ ['\x7d']) := by
  simp [seriesKey]

/-- Different series are kept under different keys. -/
theorem seriesKey_inj (isPrint : Char → Bool) {name name' : String} {labels labels' : Labels}
    (hn : CleanName name) (hn' : CleanName name') (hl : CleanLabels labels)
    (hl' : CleanLabels labels') :
    seriesKey isPrint name labels = seriesKey isPrint name' labels' ↔
      name = name' ∧ labels = labels' := by
  constructor
  · intro h
    have hlist := congrArg String.toList h
    rw [toList_seriesKey, toList_seriesKey] at hlist
    obtain ⟨hname, hrest⟩ := append_cons_inj hn hn' hlist
    have hrender := String.toList_injective ((List.append_left_inj _).mp hrest)
    exact ⟨String.toList_injective hname, renderLabels_inj hl hl' hrender⟩
  · rintro ⟨rfl, rfl⟩
    rfl

end Render
end RabbitmqLite.Metrics
