import RabbitmqLite.Broker.Registry
import RabbitmqLite.Collections.Cuts

/-! # What a registry routes to

The queues a routing key reaches depend on the set of bindings only, not on
their order, and the answer is a strictly increasing list of names. Bindings
with valid names are told apart by their keys.
-/

namespace RabbitmqLite.Broker
open Collections

/-! ## Keys -/

/-- The zero byte that separates the parts of a key is in no valid name. -/
theorem nul_notMem_of_validateName {field value : String} (h : validateName field value = .ok ()) :
    '\x00' ∉ value.toList := by
  unfold validateName at h
  split_ifs at h with hempty hlong hpattern
  intro hmem
  cases hl : value.toList with
  | nil => simp [hl] at hmem
  | cons c cs =>
    have hchars : isNameStart c = true ∧ ∀ x ∈ cs, isNameChar x = true := by
      simpa [namePattern, hl] using hpattern
    rw [hl] at hmem
    rcases List.mem_cons.mp hmem with rfl | hmem
    · exact absurd hchars.1 (by decide)
    · exact absurd (hchars.2 _ hmem) (by decide)

/-- Both names of a binding pass the check. -/
def BindingSpec.Named (s : BindingSpec) : Prop :=
  validateName "exchange name" s.exchange = .ok () ∧ validateName "queue name" s.queue = .ok ()

theorem BindingSpec.toList_key (s : BindingSpec) :
    s.key.toList =
      s.exchange.toList ++ '\x00' :: (s.queue.toList ++ '\x00' :: s.routingKey.toList) := by
  simp [BindingSpec.key]

theorem BindingSpec.key_injective {s t : BindingSpec} (hs : s.Named) (ht : t.Named)
    (h : s.key = t.key) : s = t := by
  have hlist := congrArg String.toList h
  rw [toList_key, toList_key] at hlist
  obtain ⟨hexchange, hrest⟩ := append_cons_inj (nul_notMem_of_validateName hs.1)
    (nul_notMem_of_validateName ht.1) hlist
  obtain ⟨hqueue, hkey⟩ := append_cons_inj (nul_notMem_of_validateName hs.2)
    (nul_notMem_of_validateName ht.2) hrest
  cases s
  cases t
  simp only [BindingSpec.mk.injEq]
  exact ⟨String.toList_injective hexchange, String.toList_injective hqueue,
    String.toList_injective hkey⟩

/-- A specification passes its check only with valid names. -/
theorem BindingSpec.named_of_validate {s : BindingSpec} {kind : ExchangeKind}
    (h : s.validate kind = .ok ()) : s.Named := by
  unfold BindingSpec.validate at h
  unfold BindingSpec.Named
  cases he : validateName "exchange name" s.exchange with
  | error e => simp [he, bind, Except.bind] at h
  | ok u =>
    cases hq : validateName "queue name" s.queue with
    | error e => simp [he, hq, bind, Except.bind] at h
    | ok v => exact ⟨rfl, rfl⟩

namespace Registry

/-! ## Lists of bindings -/

theorem bindingsFor_setBindings (r : Registry) (exchange : String) (bindings : List Binding)
    (e : String) :
    (r.setBindings exchange bindings).bindingsFor e =
      if e = exchange then bindings else r.bindingsFor e := by
  unfold bindingsFor setBindings
  rw [lookup_insert_eq]
  split_ifs <;> rfl

theorem bindingsFor_restoreBindings (r : Registry) (bindings : List Binding) (e : String) :
    (r.restoreBindings bindings).bindingsFor e =
      r.bindingsFor e ++ bindings.filter (fun b => b.exchange = e) := by
  induction bindings generalizing r with
  | nil => simp [restoreBindings]
  | cons b bindings ih =>
    rw [restoreBindings, ih, bindingsFor_setBindings]
    by_cases hb : b.exchange = e
    · subst hb
      simp
    · simp [hb, Ne.symm hb]

@[simp] theorem exchanges_restoreBindings (r : Registry) (bindings : List Binding) :
    (r.restoreBindings bindings).exchanges = r.exchanges := by
  induction bindings generalizing r with
  | nil => rfl
  | cons b bindings ih => exact ih _

@[simp] theorem queues_restoreBindings (r : Registry) (bindings : List Binding) :
    (r.restoreBindings bindings).queues = r.queues := by
  induction bindings generalizing r with
  | nil => rfl
  | cons b bindings ih => exact ih _

theorem mem_bindingGroups {r : Registry} {b : Binding} :
    b ∈ r.bindingGroups ↔ ∃ e, b ∈ r.bindingsFor e := by
  unfold bindingGroups
  rw [List.mem_flatMap]
  constructor
  · rintro ⟨e, -, hb⟩
    exact ⟨e, hb⟩
  · rintro ⟨e, hb⟩
    refine ⟨e, ?_, hb⟩
    rw [mem_sortedKeys, mem_iff_lookup]
    unfold bindingsFor at hb
    cases hl : r.bindings.lookup e with
    | none => simp [hl] at hb
    | some bindings => exact ⟨bindings, rfl⟩

theorem queueReferences_eq_zero {r : Registry} {queue : String} :
    r.queueReferences queue = 0 ↔ ∀ e, ∀ b ∈ r.bindingsFor e, b.queue ≠ queue := by
  unfold queueReferences
  rw [List.countP_eq_zero]
  simp only [mem_bindingGroups, decide_eq_true_eq]
  exact ⟨fun h e b hb => h b ⟨e, hb⟩, fun h b ⟨e, hb⟩ => h e b hb⟩

/-! ## Routing -/

/-- The queue is declared and a binding of the exchange leads the key to it. -/
def Reaches (r : Registry) (exchange : Exchange) (routingKey name : String) : Prop :=
  r.queueExists name = true ∧ ∃ b ∈ r.bindingsFor exchange.name, b.queue = name ∧
    bindingMatches exchange.kind b.routingKey routingKey = true

theorem mem_routeLoop (kind : ExchangeKind) (routingKey : String) (deliverable : String → Bool)
    (bindings : List Binding) (matched : List String) (name : String) :
    name ∈ routeLoop kind routingKey deliverable bindings matched ↔
      name ∈ matched ∨ deliverable name = true ∧
        ∃ b ∈ bindings, b.queue = name ∧ bindingMatches kind b.routingKey routingKey = true := by
  induction bindings generalizing matched with
  | nil => simp [routeLoop]
  | cons b bindings ih =>
    unfold routeLoop
    split_ifs with hseen hdeliver hmatch
    · rw [ih]
      by_cases hb : b.queue = name
      · subst hb
        simp [hseen]
      · simp [hb]
    · rw [ih]
      by_cases hb : b.queue = name
      · subst hb
        simp only [Bool.not_eq_true'] at hdeliver
        simp [hdeliver]
      · simp [hb]
    · rw [ih]
      simp only [Bool.not_eq_true'] at hmatch
      simp [hmatch]
    · rw [ih]
      by_cases hb : b.queue = name
      · subst hb
        simp_all
      · simp [hb, Ne.symm hb]

theorem nodup_routeLoop (kind : ExchangeKind) (routingKey : String) (deliverable : String → Bool)
    (bindings : List Binding) {matched : List String} (h : matched.Nodup) :
    (routeLoop kind routingKey deliverable bindings matched).Nodup := by
  induction bindings generalizing matched with
  | nil => exact h
  | cons b bindings ih =>
    unfold routeLoop
    split_ifs with hseen hdeliver hmatch
    · exact ih h
    · exact ih h
    · exact ih h
    · apply ih
      exact h.append (List.nodup_singleton _) (List.disjoint_singleton.mpr hseen)

theorem mem_routeNames {r : Registry} {exchange : Exchange} {routingKey name : String} :
    name ∈ r.routeNames exchange routingKey ↔ r.Reaches exchange routingKey name := by
  unfold routeNames Reaches
  rw [List.mem_insertionSort, mem_routeLoop]
  simp

theorem sortedLT_routeNames (r : Registry) (exchange : Exchange) (routingKey : String) :
    (r.routeNames exchange routingKey).Pairwise (· < ·) := by
  have hn : (r.routeNames exchange routingKey).Nodup :=
    (List.perm_insertionSort _ _).nodup_iff.mpr (nodup_routeLoop _ _ _ _ List.nodup_nil)
  exact ((List.pairwise_insertionSort (· ≤ ·) _).and hn).imp
    (fun ⟨hle, hne⟩ => lt_of_le_of_ne hle hne)

/-- If a registry reaches the queues of another that meet a condition, then it routes to
them in the same order. -/
theorem routeNames_eq_filter {r r' : Registry} {exchange : Exchange} {routingKey : String}
    (p : String → Bool)
    (h : ∀ name, r'.Reaches exchange routingKey name ↔
      r.Reaches exchange routingKey name ∧ p name = true) :
    r'.routeNames exchange routingKey = (r.routeNames exchange routingKey).filter p := by
  have hsorted := (r.sortedLT_routeNames exchange routingKey).filter p
  apply List.Perm.eq_of_pairwise' (r := (· < ·)) _ hsorted
  · rw [List.perm_ext_iff_of_nodup]
    · intro name
      rw [mem_routeNames, List.mem_filter, mem_routeNames, h]
    · exact (r'.sortedLT_routeNames exchange routingKey).imp ne_of_lt
    · exact hsorted.imp ne_of_lt
  · exact r'.sortedLT_routeNames exchange routingKey

end Registry
end RabbitmqLite.Broker
