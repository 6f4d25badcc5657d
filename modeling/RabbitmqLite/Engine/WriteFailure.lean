import RabbitmqLite.Engine.Restart

/-! # Topology operations whose write fails

The registry is changed before the store refuses, and nothing is taken back.
An operation is atomic under every failure exactly if it has nothing to change
in the registry or nothing to write.
-/

namespace RabbitmqLite.Engine
open Broker Collections Storage Atomic

/-- With a store that refuses the write, an error means that the registry is as before. -/
def TopologyOp.Atomic (op : TopologyOp) (now : Time) (w : World) : Prop :=
  ∀ fault, fault ≠ Storage.Error.notFound → ∀ cause,
    (op.exec (some fault) now w).1 = .error cause →
      (op.exec (some fault) now w).2.registry = w.registry

/-- The operation is refused by the registry, finds everything as it wants it, or declares
something that is not durable. -/
def TopologyOp.Unexposed (op : TopologyOp) (w : World) : Prop :=
  match op with
  | .declareExchange spec => spec.durable = false ∨ spec.validate ≠ .ok () ∨
      ∃ exchange, w.registry.exchanges.lookup spec.name = some exchange
  | .declareQueue spec => spec.durable = false ∨ spec.withDefaults.validate ≠ .ok () ∨
      ∃ queue, w.registry.queues.lookup spec.name = some queue
  | .bind spec => ¬ w.registry.Bindable spec
  | .unbind spec => ∀ b ∈ w.registry.bindingsFor spec.exchange, b.key ≠ spec.key
  | .deleteQueue name => w.registry.queues.lookup name = none ∨ w.registry.queueReferences name ≠ 0

/-- A deletion that fails for another reason than that there is nothing to delete. -/
theorem Site.ignoreNotFound_write {τ : Type} (t : τ) {fault : Storage.Error}
    (h : fault ≠ .notFound) (written : Except Storage.Error Unit × τ) :
    ignoreNotFound (write t (some fault) written) = (.error fault, t) := by
  cases fault with
  | notFound => exact absurd rfl h
  | _ => rfl

namespace TopologyOp
variable {w : World} {now : Time}

theorem atomic_of_same {op : TopologyOp} (h : op.onRegistry now w.registry = w.registry) :
    op.Atomic now w := by
  intro fault _ cause _
  rw [exec_registry, h]

theorem not_atomic {op : TopologyOp} (cause : Error)
    (hfails : (op.exec (some .closed) now w).1 = .error cause)
    (h : op.onRegistry now w.registry ≠ w.registry) : ¬ op.Atomic now w := by
  intro hatomic
  have hsame := hatomic .closed (by decide) cause hfails
  rw [exec_registry] at hsame
  exact h hsame

/-- Where the registry changes, what decides is whether something is to be written. -/
theorem atomic_iff_of_changed {op : TopologyOp} (writes : Bool)
    (hexec : ∀ fault, fault ≠ Storage.Error.notFound →
      (op.exec (some fault) now w).1 = if writes then .error (.store fault) else .ok ())
    (h : op.onRegistry now w.registry ≠ w.registry) : op.Atomic now w ↔ writes = false := by
  cases writes with
  | false =>
    refine iff_of_true (fun fault hfault cause hfails => ?_) rfl
    rw [hexec fault hfault] at hfails
    cases hfails
  | true => exact iff_of_false (not_atomic _ (hexec .closed (by decide)) h) (by decide)

/-- Both declarations change the registry only by something new that passes its check. -/
theorem atomic_iff_of_declaring {α : Type} {op : TopologyOp} {checked : Except Broker.Error Unit}
    {found : Option α} (durable : Bool)
    (hsame : checked ≠ .ok () ∨ (∃ a, found = some a) →
      op.onRegistry now w.registry = w.registry)
    (hnew : checked = .ok () → found = none → op.onRegistry now w.registry ≠ w.registry ∧
      ∀ fault, (op.exec (some fault) now w).1 =
        if durable then .error (.store fault) else .ok ()) :
    op.Atomic now w ↔ durable = false ∨ checked ≠ .ok () ∨ ∃ a, found = some a := by
  by_cases hkept : checked ≠ .ok () ∨ ∃ a, found = some a
  · exact iff_of_true (atomic_of_same (hsame hkept)) (Or.inr hkept)
  · have hchecked : checked = .ok () := not_not.mp (fun hc => hkept (Or.inl hc))
    have hfound : found = none :=
      Option.eq_none_iff_forall_ne_some.mpr (fun a ha => hkept (Or.inr ⟨a, ha⟩))
    obtain ⟨hchanged, hexec⟩ := hnew hchecked hfound
    rw [atomic_iff_of_changed durable (fun fault _ => hexec fault) hchanged]
    exact (or_iff_left hkept).symm

theorem declareExchange_atomic_iff (spec : ExchangeSpec) :
    (declareExchange spec).Atomic now w ↔ (declareExchange spec).Unexposed w := by
  refine atomic_iff_of_declaring spec.durable (fun hkept => ?_) (fun hchecked hfound => ?_)
  · rw [onRegistry, Registry.declareExchange_eq, Registry.declaring_kept hkept]
  · have hr : w.registry.declareExchange spec now = (.ok ⟨spec, now⟩,
        { w.registry with exchanges := w.registry.exchanges.insert spec.name ⟨spec, now⟩ }) := by
      rw [Registry.declareExchange_eq, Registry.declaring_added hchecked hfound]
    refine ⟨fun hsame => ?_, fun fault => ?_⟩
    · have hlookup := congrArg (fun r : Registry => r.exchanges.lookup spec.name) hsame
      simp [onRegistry, hr, hfound] at hlookup
    · cases hd : spec.durable <;>
        simp [exec, withoutResult, Site.declareExchange, hr, Site.inBoth, Site.write, World.site,
          hd, Except.map]

theorem declareQueue_atomic_iff (spec : QueueSpec) :
    (declareQueue spec).Atomic now w ↔ (declareQueue spec).Unexposed w := by
  refine atomic_iff_of_declaring spec.durable (fun hkept => ?_) (fun hchecked hfound => ?_)
  · rw [onRegistry, Registry.declareQueue_eq, Registry.declaring_kept hkept]
  · have hr : w.registry.declareQueue spec now = (.ok ⟨spec.withDefaults, now⟩, { w.registry with
        queues := w.registry.queues.insert spec.name ⟨spec.withDefaults, now⟩ }) := by
      rw [Registry.declareQueue_eq, Registry.declaring_added hchecked hfound]
    have hdurable : spec.withDefaults.durable = spec.durable := rfl
    refine ⟨fun hsame => ?_, fun fault => ?_⟩
    · have hlookup := congrArg (fun r : Registry => r.queues.lookup spec.name) hsame
      simp [onRegistry, hr, hfound] at hlookup
    · cases hd : spec.durable <;>
        simp [exec, withoutResult, Site.declareQueue, hr, Site.inBoth, Site.write, World.site,
          hdurable, hd, Except.map]

theorem bind_atomic_iff (spec : BindingSpec) :
    (bind spec).Atomic now w ↔ (bind spec).Unexposed w := by
  by_cases hnew : w.registry.Bindable spec
  · have hr := hnew.bind_eq now
    rw [atomic_iff_of_changed true (fun fault _ => ?_) (fun hsame => ?_)]
    · exact iff_of_false (by decide) (not_not_intro hnew)
    · simp [exec, withoutResult, Site.bind, hr, Site.inBoth, Site.write, World.site, Except.map]
    · have hlength := congrArg (fun r : Registry => (r.bindingsFor spec.exchange).length) hsame
      simp [onRegistry, hr, Registry.bindingsFor_setBindings] at hlength
  · refine iff_of_true (atomic_of_same ?_) hnew
    rcases w.registry.bind_cases spec now with ⟨e, hr⟩ | ⟨b, -, -, hr⟩ | ⟨hb, -⟩
    · simp [onRegistry, hr]
    · simp [onRegistry, hr]
    · exact absurd hb hnew

theorem unbind_atomic_iff (spec : BindingSpec) :
    (unbind spec).Atomic now w ↔ (unbind spec).Unexposed w := by
  rcases w.registry.unbind_cases spec with ⟨hnone, hr⟩ | ⟨before, b, later, hsplit, hk, hr⟩
  · exact iff_of_true (atomic_of_same (by simp [onRegistry, hr])) hnone
  · rw [atomic_iff_of_changed true (fun fault hfault => ?_) (fun hsame => ?_)]
    · exact iff_of_false (by decide) (fun hnone => hnone b (by simp [hsplit]) hk)
    · simp [exec, Site.unbind, hr, Site.inBoth, World.site, Site.ignoreNotFound_write _ hfault]
    · have hlength := congrArg (fun r : Registry => (r.bindingsFor spec.exchange).length) hsame
      simp [onRegistry, hr, Registry.bindingsFor_setBindings, hsplit] at hlength

theorem deleteQueue_atomic_iff (name : String) :
    (deleteQueue name).Atomic now w ↔ (deleteQueue name).Unexposed w := by
  cases hl : w.registry.queues.lookup name with
  | none =>
    refine iff_of_true (atomic_of_same ?_) (Or.inl hl)
    simp [onRegistry, Registry.deleteQueue, hl]
  | some queue =>
    by_cases hused : w.registry.queueReferences name = 0
    · have hr : w.registry.deleteQueue name =
          (.ok (), { w.registry with queues := w.registry.queues.erase name }) := by
        simp [Registry.deleteQueue, hl, hused]
      rw [atomic_iff_of_changed true (fun fault hfault => ?_) (fun hsame => ?_)]
      · simp [Unexposed, hl, hused]
      · simp [exec, Site.deleteQueue, hr, Site.inBoth, World.site,
          Site.ignoreNotFound_write _ hfault]
      · have hlookup := congrArg (fun r : Registry => r.queues.lookup name) hsame
        simp [onRegistry, hr, hl] at hlookup
    · refine iff_of_true (atomic_of_same ?_) (Or.inr hused)
      simp [onRegistry, Registry.deleteQueue, hl, Nat.pos_of_ne_zero hused]

end TopologyOp

/-- A topology operation is atomic under every failure of the store exactly if it is not
exposed to one. -/
theorem topology_atomic_iff (op : TopologyOp) (now : Time) (w : World) :
    op.Atomic now w ↔ op.Unexposed w := by
  cases op with
  | declareExchange spec => exact TopologyOp.declareExchange_atomic_iff spec
  | declareQueue spec => exact TopologyOp.declareQueue_atomic_iff spec
  | bind spec => exact TopologyOp.bind_atomic_iff spec
  | unbind spec => exact TopologyOp.unbind_atomic_iff spec
  | deleteQueue name => exact TopologyOp.deleteQueue_atomic_iff name

/-- The world after a queue was bound to an exchange, both durable. -/
def boundOrders : World :=
  ((ordersEngine 3 threeAttempts).served steadyEnv
    [.topology (.declareExchange ⟨"shop", .direct, true⟩) 1,
     .topology (.declareQueue ⟨"orders", true, 3, 30, ""⟩) 2,
     .topology (.bind ⟨"shop", "orders", "orders"⟩) 3]).state

/-- An unbind whose deletion fails takes the binding out of the registry all the same, and
repeating it is refused. -/
theorem topology_atomic_unbindFails :
    ¬ (TopologyOp.unbind ⟨"shop", "orders", "orders"⟩).Atomic 4 boundOrders ∧
      ((TopologyOp.unbind ⟨"shop", "orders", "orders"⟩).exec none 5
        ((TopologyOp.unbind ⟨"shop", "orders", "orders"⟩).exec (some .closed) 4 boundOrders).2).1 =
          .error (.broker .bindingNotFound) := by
  refine ⟨TopologyOp.not_atomic (.store .closed) (by decide +kernel) (fun hsame => ?_),
    by decide +kernel⟩
  have hlength := congrArg (fun r : Registry => (r.bindingsFor "shop").length) hsame
  revert hlength
  decide +kernel

end RabbitmqLite.Engine
