import RabbitmqLite.Collections.FiniteMap

/-! # Maps that are filled on demand

A value is asked for under its key and made on the first occasion; whoever has
asked for it may change it afterwards. If every value is asked for before it is
changed, what is found under a key is the value made first with all its changes
in order, whatever happened under other keys in between.
-/

namespace RabbitmqLite.Collections

variable {α β : Type*} [LinearOrder α]

/-- The map in which there is a value under the key. -/
def askFor (m : Map α β) (key : α) (fresh : β) : Map α β :=
  match m.lookup key with
  | some _ => m
  | none => m.insert key fresh

/-- Change the value under a key. -/
def changeAt (m : Map α β) (key : α) (f : β → β) : Map α β :=
  match m.lookup key with
  | some v => m.insert key (f v)
  | none => m

theorem lookup_askFor (m : Map α β) (key a : α) (fresh : β) :
    (askFor m key fresh).lookup a =
      if a = key then some ((m.lookup key).getD fresh) else m.lookup a := by
  unfold askFor
  cases h : m.lookup key with
  | some v =>
    dsimp only
    split_ifs with ha
    · rw [ha, h]
      rfl
    · rfl
  | none => exact lookup_insert_eq m key a fresh

theorem lookup_changeAt (m : Map α β) (key a : α) (f : β → β) :
    (changeAt m key f).lookup a = if a = key then (m.lookup key).map f else m.lookup a := by
  unfold changeAt
  cases h : m.lookup key with
  | some v => exact lookup_insert_eq m key a (f v)
  | none =>
    dsimp only
    split_ifs with ha
    · rw [ha, h]
      rfl
    · rfl

/-- What is done to the map. -/
inductive Touch (α β : Type*) where
  | ask (key : α) (fresh : β)
  | change (key : α) (f : β → β)

def Touch.apply (m : Map α β) : Touch α β → Map α β
  | .ask key fresh => askFor m key fresh
  | .change key f => changeAt m key f

def touched (ts : List (Touch α β)) : Map α β := ts.foldl Touch.apply ∅

/-- The value a touch makes under a key, if there is none yet. -/
def Touch.fresh (key : α) : Touch α β → Option β
  | .ask k fresh => if k = key then some fresh else none
  | .change _ _ => none

/-- The change a touch makes under a key. -/
def Touch.change? (key : α) : Touch α β → Option (β → β)
  | .ask _ _ => none
  | .change k f => if k = key then some f else none

/-- Every value is asked for before it is changed. -/
def Asked (ts : List (Touch α β)) : Prop :=
  ∀ before key f later, ts = before ++ .change key f :: later → ∃ fresh, .ask key fresh ∈ before

omit [LinearOrder α] in
theorem Asked.of_append {ts us : List (Touch α β)} (h : Asked (ts ++ us)) : Asked ts := by
  rintro before key f later rfl
  exact h before key f (later ++ us) (by simp)

theorem findSome_fresh {ts : List (Touch α β)} {key : α} {fresh : β} (h : .ask key fresh ∈ ts) :
    ts.findSome? (Touch.fresh key) ≠ none := by
  rw [ne_eq, List.findSome?_eq_none_iff]
  intro hnone
  simpa [Touch.fresh] using hnone _ h

/-- Nothing is changed under a key that nobody has asked for. -/
theorem Asked.change_eq_nil {ts : List (Touch α β)} (h : Asked ts) {key : α}
    (hkey : ts.findSome? (Touch.fresh key) = none) : ts.filterMap (Touch.change? key) = [] := by
  rw [List.filterMap_eq_nil_iff]
  intro t ht
  cases t with
  | ask => rfl
  | change k f =>
    refine if_neg (fun hk => ?_)
    subst hk
    obtain ⟨before, later, rfl⟩ := List.append_of_mem ht
    obtain ⟨fresh, hfresh⟩ := h before k f later rfl
    exact findSome_fresh (List.mem_append_left _ hfresh) hkey

/-- What is found under a key. -/
theorem lookup_touched {ts : List (Touch α β)} (h : Asked ts) (key : α) :
    (touched ts).lookup key = (ts.findSome? (Touch.fresh key)).map
      (fun fresh => (ts.filterMap (Touch.change? key)).foldl (fun v f => f v) fresh) := by
  induction ts using List.reverseRecOn with
  | nil => simp [touched]
  | append_singleton ts t ih =>
    have hbefore := ih h.of_append
    rw [touched, List.foldl_append, ← touched, List.findSome?_append, List.filterMap_append]
    cases t with
    | ask k fresh =>
      have hnone : [Touch.ask k fresh].filterMap (Touch.change? key) = [] := rfl
      rw [hnone, List.append_nil]
      change (askFor (touched ts) k fresh).lookup key = _
      rw [lookup_askFor]
      split_ifs with hk
      · subst hk
        rw [hbefore]
        cases hfind : ts.findSome? (Touch.fresh key) with
        | some v => rfl
        | none => simp [h.of_append.change_eq_nil hfind, Touch.fresh]
      · rw [hbefore]
        simp [Touch.fresh, Ne.symm hk]
    | change k f =>
      have hfresh : [Touch.change k f].findSome? (Touch.fresh key) = none := rfl
      rw [hfresh, Option.or_none]
      change (changeAt (touched ts) k f).lookup key = _
      rw [lookup_changeAt]
      split_ifs with hk
      · subst hk
        rw [hbefore, Option.map_map]
        refine Option.map_congr (fun v _ => ?_)
        simp [Touch.change?, List.foldl_append]
      · rw [hbefore]
        simp [Touch.change?, Ne.symm hk]

end RabbitmqLite.Collections
