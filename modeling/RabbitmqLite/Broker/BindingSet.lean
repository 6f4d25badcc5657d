import RabbitmqLite.Broker.RouteTable

/-! # The bindings as a set of specifications

Only `Bind` adds a binding to a running registry, and it checks the names first.
Two of its bindings therefore never share a key. `Unbind` checks nothing: a
queue name with a zero byte in it can spell the key of a binding that has the
byte in its routing key.
-/

namespace RabbitmqLite.Broker
open Collections Atomic

namespace Registry

/-- The calls of a running broker: everything but the restoring at its start. -/
def Call.Running : Call → Prop
  | .restore .. => False
  | _ => True

instance : DecidablePred Call.Running := fun c => by
  cases c <;> unfold Call.Running <;> infer_instance

/-! ## Specifications are distinct and have valid names -/

/-- The list of one exchange: valid names, and no specification twice. -/
structure Distinct (bindings : List Binding) : Prop where
  named : ∀ b ∈ bindings, b.toBindingSpec.Named
  nodup : (bindings.map Binding.toBindingSpec).Nodup

theorem distinct_nil : Distinct [] := ⟨by simp, List.nodup_nil⟩

theorem Distinct.snoc {bindings : List Binding} (h : Distinct bindings) {spec : BindingSpec}
    (hn : spec.Named) (hnew : ∀ b ∈ bindings, b.key ≠ spec.key) (now : Time) :
    Distinct (bindings ++ [⟨spec, now⟩]) := by
  constructor
  · intro b hb
    rcases List.mem_append.mp hb with hb | hb
    · exact h.named b hb
    · rw [List.mem_singleton.mp hb]
      exact hn
  · rw [List.map_append]
    refine h.nodup.append (List.nodup_singleton _) (List.disjoint_singleton.mpr (fun hmem => ?_))
    obtain ⟨b, hb, heq⟩ := List.mem_map.mp hmem
    exact hnew b hb (congrArg BindingSpec.key heq)

theorem Distinct.sublist {bindings kept : List Binding} (h : Distinct bindings)
    (hs : kept.Sublist bindings) : Distinct kept :=
  ⟨fun b hb => h.named b (hs.subset hb), h.nodup.sublist (hs.map _)⟩

structure Orderly (r : Registry) : Prop extends r.Filed where
  distinct : ∀ e, Distinct (r.bindingsFor e)

theorem distinct_setBindings {r : Registry} (h : ∀ e, Distinct (r.bindingsFor e))
    {exchange : String} {bindings : List Binding} (hb : Distinct bindings) (e : String) :
    Distinct ((r.setBindings exchange bindings).bindingsFor e) := by
  rw [bindingsFor_setBindings]
  split_ifs
  · exact hb
  · exact h e

theorem Orderly.exec {r : Registry} (h : r.Orderly) {c : Call} (hc : c.Running) :
    (exec c r).2.Orderly := by
  refine ⟨h.toFiled.exec c, fun e => ?_⟩
  cases c with
  | declareExchange spec now =>
    rcases r.declareExchange_cases spec now with ⟨_, heq⟩ | ⟨_, -, heq⟩ | ⟨-, heq⟩ <;>
      (rw [Registry.exec, heq]; exact h.distinct e)
  | declareQueue spec now =>
    rcases r.declareQueue_cases spec now with ⟨_, heq⟩ | ⟨_, -, heq⟩ | ⟨-, heq⟩ <;>
      (rw [Registry.exec, heq]; exact h.distinct e)
  | deleteQueue name =>
    rcases r.deleteQueue_cases name with ⟨_, heq⟩ | ⟨-, -, heq⟩ <;>
      (rw [Registry.exec, heq]; exact h.distinct e)
  | bind spec now =>
    rcases r.bind_cases spec now with ⟨_, heq⟩ | ⟨_, -, -, heq⟩ | ⟨hb, heq⟩
    · rw [Registry.exec, heq]
      exact h.distinct e
    · rw [Registry.exec, heq]
      exact h.distinct e
    · rw [Registry.exec, heq]
      obtain ⟨_, -, hvalid⟩ := hb.valid
      have hnamed := BindingSpec.named_of_validate hvalid
      exact distinct_setBindings h.distinct
        ((h.distinct spec.exchange).snoc hnamed hb.unused now) e
  | unbind spec =>
    rcases r.unbind_cases spec with ⟨-, heq⟩ | ⟨before, b, later, hsplit, -, heq⟩
    · rw [Registry.exec, heq]
      exact h.distinct e
    · rw [Registry.exec, heq]
      refine distinct_setBindings h.distinct ((h.distinct spec.exchange).sublist ?_) e
      rw [hsplit]
      exact (List.sublist_cons_self b later).append_left before
  | restore => cases hc

theorem reached_orderly {cs : List Call} (hcs : ∀ c ∈ cs, c.Running) : (reached cs).Orderly := by
  induction cs using List.reverseRecOn with
  | nil => exact ⟨newRegistry_filed, fun _ => distinct_nil⟩
  | append_singleton cs c ih =>
    rw [reached, after_append, after_singleton]
    exact (ih (fun d hd => hcs d (by simp [hd]))).exec (hcs c (by simp))

end Registry

/-! ## Keys that collide -/

/-- The specification with the same key whose queue name ends at the first zero byte. -/
def BindingSpec.cutQueue (s : BindingSpec) : BindingSpec where
  exchange := s.exchange
  queue := String.ofList (s.queue.toList.takeWhile (· != '\x00'))
  routingKey :=
    String.ofList ((s.queue.toList.dropWhile (· != '\x00')).tail) ++ "\x00" ++ s.routingKey

theorem BindingSpec.key_cutQueue {s : BindingSpec} (h : '\x00' ∈ s.queue.toList) :
    s.cutQueue.key = s.key := by
  apply String.toList_injective
  rw [toList_key, toList_key]
  conv_rhs => rw [← takeWhile_append_cons h]
  simp [cutQueue]

/-- A binding with valid names has the key of a specification on its exchange only if it is the
same, or if the queue name of the specification has a zero byte in it. -/
theorem BindingSpec.Named.key_eq_iff {s t : BindingSpec} (ht : t.Named)
    (he : t.exchange = s.exchange) :
    t.key = s.key ↔ t = s ∨ '\x00' ∈ s.queue.toList ∧ t = s.cutQueue := by
  have hnul := nul_notMem_of_validateName ht.2
  constructor
  · intro hkey
    have hlist := congrArg String.toList hkey
    rw [toList_key, toList_key, he] at hlist
    have hrest := (List.cons.inj (List.append_cancel_left hlist)).2
    by_cases hs : '\x00' ∈ s.queue.toList
    · rw [← takeWhile_append_cons hs, List.append_assoc, List.cons_append] at hrest
      obtain ⟨hqueue, hkey⟩ := append_cons_inj hnul (notMem_takeWhile _ _) hrest
      refine Or.inr ⟨hs, ?_⟩
      cases t
      simp only [cutQueue, BindingSpec.mk.injEq]
      refine ⟨he, String.toList_injective ?_, String.toList_injective ?_⟩
      · simpa using hqueue
      · simpa using hkey
    · obtain ⟨hqueue, hkey⟩ := append_cons_inj hnul hs hrest
      left
      cases s
      cases t
      simp only [BindingSpec.mk.injEq]
      exact ⟨he, String.toList_injective hqueue, String.toList_injective hkey⟩
  · rintro (rfl | ⟨hs, rfl⟩)
    · rfl
    · exact key_cutQueue hs

/-- A specification with a zero byte in its queue name is never bound. -/
theorem BindingSpec.Named.nul_notMem {s : BindingSpec} (h : s.Named) : '\x00' ∉ s.queue.toList :=
  nul_notMem_of_validateName h.2

namespace Registry

theorem Orderly.named {r : Registry} (h : r.Orderly) {spec : BindingSpec} (hs : spec ∈ r.specs) :
    spec.Named := by
  obtain ⟨e, b, hb, rfl⟩ := mem_specs.mp hs
  exact (h.distinct e).named b hb

/-! ## What the methods do to the set -/

theorem mem_specs_setBindings {r : Registry} {exchange : String} {bindings : List Binding}
    {spec : BindingSpec} :
    spec ∈ (r.setBindings exchange bindings).specs ↔
      (∃ b ∈ bindings, b.toBindingSpec = spec) ∨
        ∃ e, e ≠ exchange ∧ ∃ b ∈ r.bindingsFor e, b.toBindingSpec = spec := by
  rw [mem_specs]
  constructor
  · rintro ⟨e, b, hb, rfl⟩
    rw [bindingsFor_setBindings] at hb
    split_ifs at hb with he
    · exact Or.inl ⟨b, hb, rfl⟩
    · exact Or.inr ⟨e, he, b, hb, rfl⟩
  · rintro (⟨b, hb, rfl⟩ | ⟨e, he, b, hb, rfl⟩)
    · exact ⟨exchange, b, by rwa [bindingsFor_setBindings, if_pos rfl], rfl⟩
    · exact ⟨e, b, by rwa [bindingsFor_setBindings, if_neg he], rfl⟩

/-- Nothing is bound without the check of its names. -/
theorem named_of_bind {r : Registry} {spec : BindingSpec} {now : Time} {b : Binding}
    (h : (r.bind spec now).1 = .ok b) : spec.Named := by
  unfold Registry.bind at h
  split_ifs at h
  cases he : r.exchange spec.exchange with
  | error e => simp [he] at h
  | ok x =>
    cases hv : spec.validate x.kind with
    | error e => simp [he, hv] at h
    | ok u => exact BindingSpec.named_of_validate hv

/-- A binding made is in the set, which is otherwise as it was. -/
theorem Orderly.specs_bind {r : Registry} (h : r.Orderly) {spec : BindingSpec} {now : Time}
    {b : Binding} (hb : (r.bind spec now).1 = .ok b) :
    b.toBindingSpec = spec ∧ (r.bind spec now).2.specs = insert spec r.specs := by
  have hnamed := named_of_bind hb
  rcases r.bind_cases spec now with ⟨e, heq⟩ | ⟨b', hb', hkey, heq⟩ | ⟨-, heq⟩
  · rw [heq] at hb
    cases hb
  · rw [heq] at hb ⊢
    cases hb
    have hsame := BindingSpec.key_injective ((h.distinct _).named b hb') hnamed hkey
    exact ⟨hsame, (Finset.insert_eq_self.mpr (mem_specs.mpr ⟨_, b, hb', hsame⟩)).symm⟩
  · rw [heq] at hb ⊢
    cases hb
    refine ⟨rfl, ?_⟩
    ext other
    rw [mem_specs_setBindings, Finset.mem_insert, mem_specs]
    constructor
    · rintro (⟨b, hb, rfl⟩ | ⟨e, -, hother⟩)
      · rcases List.mem_append.mp hb with hb | hb
        · exact Or.inr ⟨_, b, hb, rfl⟩
        · exact Or.inl (by rw [List.mem_singleton.mp hb])
      · exact Or.inr ⟨e, hother⟩
    · rintro (rfl | ⟨e, b, hb, rfl⟩)
      · exact Or.inl ⟨_, List.mem_append_right _ (List.mem_singleton_self _), rfl⟩
      · by_cases he : e = spec.exchange
        · subst he
          exact Or.inl ⟨b, List.mem_append_left _ hb, rfl⟩
        · exact Or.inr ⟨e, he, b, hb, rfl⟩

theorem deleteQueue_ok_iff (r : Registry) (name : String) :
    (r.deleteQueue name).1 = .ok () ↔
      (∃ queue, r.queues.lookup name = some queue) ∧ ∀ spec ∈ r.specs, spec.queue ≠ name := by
  have hreferences : r.queueReferences name = 0 ↔ ∀ spec ∈ r.specs, spec.queue ≠ name := by
    rw [queueReferences_eq_zero]
    constructor
    · intro hnone spec hspec
      obtain ⟨e, b, hb, rfl⟩ := mem_specs.mp hspec
      exact hnone e b hb
    · intro hnone e b hb
      exact hnone _ (mem_specs.mpr ⟨e, b, hb, rfl⟩)
  rw [← hreferences]
  unfold deleteQueue
  cases r.queues.lookup name with
  | none => simp
  | some queue =>
    by_cases hused : r.queueReferences name = 0 <;> simp [hused, Nat.pos_iff_ne_zero]

/-- The removal of a specification: it succeeds exactly if the specification is bound, removes
that binding and no other, and otherwise reports so and changes nothing. -/
structure Unbinds (r : Registry) (spec : BindingSpec) : Prop where
  succeeds : (r.unbind spec).1 = .ok () ↔ spec ∈ r.specs
  removes : spec ∈ r.specs → (r.unbind spec).2.specs = r.specs.erase spec
  others : spec ∈ r.specs → ∀ e, (r.unbind spec).2.bindingsFor e =
    (r.bindingsFor e).filter (fun b => b.toBindingSpec ≠ spec)
  keeps : (r.unbind spec).2.exchanges = r.exchanges ∧ (r.unbind spec).2.queues = r.queues
  refuses : spec ∉ r.specs → r.unbind spec = (.error .bindingNotFound, r)

theorem filter_ne_of_nodup {bindings before later : List Binding} {b : Binding}
    (hn : (bindings.map Binding.toBindingSpec).Nodup) (hsplit : bindings = before ++ b :: later) :
    bindings.filter (fun other => other.toBindingSpec ≠ b.toBindingSpec) = before ++ later := by
  subst hsplit
  rw [List.map_append, List.map_cons, List.nodup_append, List.nodup_cons] at hn
  obtain ⟨-, ⟨hlater, -⟩, hbefore⟩ := hn
  rw [List.filter_append, List.filter_cons_of_neg (by simp)]
  congr 1
  · rw [List.filter_eq_self]
    intro other ho
    simpa using hbefore _ (List.mem_map_of_mem ho) _ List.mem_cons_self
  · rw [List.filter_eq_self]
    intro other ho
    have hne : other.toBindingSpec ≠ b.toBindingSpec := fun heq =>
      hlater (heq ▸ List.mem_map_of_mem ho)
    simpa using hne

/-- A specification whose key no other binding has is removed as it should be. -/
theorem Orderly.unbinds {r : Registry} (h : r.Orderly) {spec : BindingSpec}
    (hkey : ∀ b ∈ r.bindingsFor spec.exchange, b.key = spec.key → b.toBindingSpec = spec) :
    r.Unbinds spec := by
  rcases r.unbind_cases spec with ⟨hnone, heq⟩ | ⟨before, b, later, hsplit, hb, heq⟩
  · have hnot : spec ∉ r.specs := by
      intro hmem
      obtain ⟨b, hb, rfl⟩ := h.mem_bindingsFor.mpr ⟨hmem, rfl⟩
      exact hnone b hb rfl
    exact ⟨by simp [heq, hnot], fun hr => absurd hr hnot, fun hr => absurd hr hnot,
      by rw [heq]; exact ⟨rfl, rfl⟩, fun _ => heq⟩
  · have hbmem : b ∈ r.bindingsFor spec.exchange := by simp [hsplit]
    have hspec := hkey b hbmem hb
    have hmem : spec ∈ r.specs := mem_specs.mpr ⟨_, b, hbmem, hspec⟩
    have hfilter := filter_ne_of_nodup (h.distinct spec.exchange).nodup hsplit
    rw [hspec] at hfilter
    have hothers : ∀ e, (r.unbind spec).2.bindingsFor e =
        (r.bindingsFor e).filter (fun b => b.toBindingSpec ≠ spec) := by
      intro e
      rw [heq, bindingsFor_setBindings]
      split_ifs with he
      · rw [he, hfilter]
      · rw [eq_comm, List.filter_eq_self]
        intro other ho
        have hne : other.toBindingSpec ≠ spec := fun hs =>
          he ((h.bindings ho).symm.trans (congrArg BindingSpec.exchange hs))
        simpa using hne
    refine ⟨by simp [heq, hmem], fun _ => ?_, fun _ => hothers, by rw [heq]; exact ⟨rfl, rfl⟩,
      fun hr => absurd hmem hr⟩
    ext other
    simp only [mem_specs, hothers, Finset.mem_erase, List.mem_filter, decide_eq_true_eq]
    constructor
    · rintro ⟨e, b, ⟨hb, hne⟩, rfl⟩
      exact ⟨hne, e, b, hb, rfl⟩
    · rintro ⟨hne, e, b, hb, rfl⟩
      exact ⟨e, b, ⟨hb, hne⟩, rfl⟩

theorem Orderly.unbinds_iff {r : Registry} (h : r.Orderly) (spec : BindingSpec) :
    r.Unbinds spec ↔ '\x00' ∉ spec.queue.toList ∨ spec.cutQueue ∉ r.specs := by
  constructor
  · intro hunbinds
    by_contra hboth
    rw [not_or, not_not, not_not] at hboth
    obtain ⟨hnul, hcut⟩ := hboth
    -- The other binding is found under the key, so the call succeeds although nothing is bound.
    have hnot : spec ∉ r.specs := fun hmem => (h.named hmem).nul_notMem hnul
    obtain ⟨b, hb, hspec⟩ := h.mem_bindingsFor.mpr ⟨hcut, rfl⟩
    have hkey : b.key = spec.key :=
      (congrArg BindingSpec.key hspec).trans (BindingSpec.key_cutQueue hnul)
    have hrefused := hunbinds.refuses hnot
    rcases r.unbind_cases spec with ⟨hnone, -⟩ | ⟨_, _, _, -, -, heq⟩
    · exact hnone b hb hkey
    · rw [hrefused] at heq
      cases (Prod.mk.inj heq).1
  · intro hcond
    apply h.unbinds
    intro b hb hkey
    have hbound := h.mem_bindingsFor.mp ⟨b, hb, rfl⟩
    rcases ((h.distinct _).named b hb).key_eq_iff hbound.2 |>.mp hkey with heq | ⟨hnul, heq⟩
    · exact heq
    · rcases hcond with hcond | hcond
      · exact absurd hnul hcond
      · exact absurd (heq ▸ hbound.1) hcond

/-- In every registry that a running broker reaches, `Bind` adds to the set of specifications and
`DeleteQueue` respects it; `Unbind` removes from it as it should exactly if the queue name it is
given has no zero byte, or the specification its key also spells is not bound. -/
theorem bindings_form_a_set (cs : List Call) (hcs : ∀ c ∈ cs, c.Running) :
    let r := reached cs
    (∀ spec now b, (r.bind spec now).1 = .ok b →
      b.toBindingSpec = spec ∧ (r.bind spec now).2.specs = insert spec r.specs) ∧
    (∀ spec, r.Unbinds spec ↔ '\x00' ∉ spec.queue.toList ∨ spec.cutQueue ∉ r.specs) ∧
    ∀ name, (r.deleteQueue name).1 = .ok () ↔
      (∃ queue, r.queues.lookup name = some queue) ∧ ∀ spec ∈ r.specs, spec.queue ≠ name := by
  have h := reached_orderly hcs
  exact ⟨fun _ _ _ hb => h.specs_bind hb, h.unbinds_iff, deleteQueue_ok_iff _⟩

/-- A direct exchange with one binding, whose routing key has a zero byte. -/
def boundWithNul : List Call :=
  [.declareExchange ⟨"shop", .direct, true⟩ 1, .declareQueue ⟨"orders", true, 3, second, ""⟩ 2,
    .bind ⟨"shop", "orders", "sale\x00new"⟩ 3]

theorem bindings_form_a_set_boundWithNul :
    (reached boundWithNul).Unbinds ⟨"shop", "orders", "sale\x00new"⟩ :=
  ((bindings_form_a_set boundWithNul (by decide)).2.1 _).mpr (Or.inl (by decide))

/-- What is not bound is removed, and takes the one binding with it. -/
theorem bindings_form_a_set_cutQueue :
    ⟨"shop", "orders\x00sale", "new"⟩ ∉ (reached boundWithNul).specs ∧
      ((reached boundWithNul).unbind ⟨"shop", "orders\x00sale", "new"⟩).1 = .ok () ∧
      ((reached boundWithNul).unbind ⟨"shop", "orders\x00sale", "new"⟩).2.specs = ∅ ∧
      (reached boundWithNul).specs = {⟨"shop", "orders", "sale\x00new"⟩} := by
  refine ⟨?_, ?_, ?_, ?_⟩ <;> decide +kernel

end Registry
end RabbitmqLite.Broker
