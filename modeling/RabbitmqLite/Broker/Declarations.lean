import RabbitmqLite.Broker.Routing

/-! # What the methods of the registry can do

Each method that changes the registry either refuses and changes nothing, or
it does the one thing listed here.
-/

namespace RabbitmqLite.Broker
open Collections

namespace Registry

/-! ## Declarations -/

section Declaring
variable {α ε ρ : Type} (checked : Except ε Unit) (found : Option α) (same : α → Prop)
  [DecidablePred same] (clash : ε) (made : α) (kept added : ρ)

/-- What both declarations do: they refuse what does not pass its check, return what is there if
it has the same settings, and add what is not there. -/
def declaring : Except ε α × ρ :=
  match checked with
  | .error e => (.error e, kept)
  | .ok () =>
    match found with
    | some existing => if ¬ same existing then (.error clash, kept) else (.ok existing, kept)
    | none => (.ok made, added)

theorem declaring_cases :
    (∃ e, declaring checked found same clash made kept added = (.error e, kept)) ∨
      (∃ a, found = some a ∧ declaring checked found same clash made kept added = (.ok a, kept)) ∨
      found = none ∧ declaring checked found same clash made kept added = (.ok made, added) := by
  unfold declaring
  cases checked with
  | error e => exact Or.inl ⟨e, rfl⟩
  | ok u =>
    cases found with
    | none => exact Or.inr (Or.inr ⟨rfl, rfl⟩)
    | some existing =>
      dsimp only
      split_ifs
      · exact Or.inr (Or.inl ⟨existing, rfl, rfl⟩)
      · exact Or.inl ⟨clash, rfl⟩

variable {checked found same clash made kept added}

theorem declaring_kept (h : checked ≠ .ok () ∨ ∃ a, found = some a) :
    (declaring checked found same clash made kept added).2 = kept := by
  unfold declaring
  cases checked with
  | error e => rfl
  | ok u =>
    rcases h with hc | ⟨a, rfl⟩
    · exact absurd rfl hc
    · dsimp only
      split_ifs <;> rfl

theorem declaring_added (hchecked : checked = .ok ()) (hfound : found = none) :
    declaring checked found same clash made kept added = (.ok made, added) := by
  rw [hchecked, hfound]
  rfl

theorem declaring_eq_ok {a : α} {r : ρ} :
    declaring checked found same clash made kept added = (.ok a, r) ↔
      checked = .ok () ∧
        (found = some a ∧ same a ∧ r = kept ∨ found = none ∧ a = made ∧ r = added) := by
  unfold declaring
  cases checked with
  | error e => simp
  | ok u =>
    cases found with
    | none => simp [eq_comm]
    | some existing =>
      by_cases hsame : same existing
      · simp only [hsame, not_true_eq_false, if_false, Prod.mk.injEq, Except.ok.injEq,
          Option.some.injEq, reduceCtorEq, false_and, or_false, true_and]
        constructor
        · rintro ⟨rfl, rfl⟩
          exact ⟨rfl, hsame, rfl⟩
        · rintro ⟨rfl, -, rfl⟩
          exact ⟨rfl, rfl⟩
      · simp only [hsame, not_false_eq_true, if_true, Prod.mk.injEq, reduceCtorEq, false_and,
          Option.some.injEq, or_false, true_and, false_iff]
        rintro ⟨rfl, ha, -⟩
        exact hsame ha

end Declaring

theorem declareExchange_eq (r : Registry) (spec : ExchangeSpec) (now : Time) :
    r.declareExchange spec now =
      declaring spec.validate (r.exchanges.lookup spec.name) (fun x => x.toExchangeSpec = spec)
        .exchangeExists ⟨spec, now⟩ r
        { r with exchanges := r.exchanges.insert spec.name ⟨spec, now⟩ } := by
  unfold declareExchange declaring
  cases spec.validate <;> cases r.exchanges.lookup spec.name <;> rfl

theorem declareQueue_eq (r : Registry) (spec : QueueSpec) (now : Time) :
    r.declareQueue spec now =
      declaring spec.withDefaults.validate (r.queues.lookup spec.name)
        (fun queue => queue.toQueueSpec = spec.withDefaults) .queueExists ⟨spec.withDefaults, now⟩ r
        { r with queues := r.queues.insert spec.name ⟨spec.withDefaults, now⟩ } := by
  have hname : spec.withDefaults.name = spec.name := rfl
  unfold declareQueue declaring
  dsimp only
  rw [hname]
  cases spec.withDefaults.validate <;> cases r.queues.lookup spec.name <;> rfl

theorem declareExchange_cases (r : Registry) (spec : ExchangeSpec) (now : Time) :
    (∃ e, r.declareExchange spec now = (.error e, r)) ∨
      (∃ exchange, r.exchanges.lookup spec.name = some exchange ∧
        r.declareExchange spec now = (.ok exchange, r)) ∨
      r.exchanges.lookup spec.name = none ∧ r.declareExchange spec now =
        (.ok ⟨spec, now⟩, { r with exchanges := r.exchanges.insert spec.name ⟨spec, now⟩ }) := by
  rw [declareExchange_eq]
  exact declaring_cases _ _ _ _ _ _ _

theorem declareQueue_cases (r : Registry) (spec : QueueSpec) (now : Time) :
    (∃ e, r.declareQueue spec now = (.error e, r)) ∨
      (∃ queue, r.queues.lookup spec.name = some queue ∧
        r.declareQueue spec now = (.ok queue, r)) ∨
      r.queues.lookup spec.name = none ∧ r.declareQueue spec now =
        (.ok ⟨spec.withDefaults, now⟩,
          { r with queues := r.queues.insert spec.name ⟨spec.withDefaults, now⟩ }) := by
  rw [declareQueue_eq]
  exact declaring_cases _ _ _ _ _ _ _

/-- What a declaration of an exchange that is accepted has done. -/
theorem declareExchange_eq_ok {r r' : Registry} {spec : ExchangeSpec} {now : Time} {x : Exchange} :
    r.declareExchange spec now = (.ok x, r') ↔
      spec.validate = .ok () ∧ x.toExchangeSpec = spec ∧
        (r.exchanges.lookup spec.name = some x ∧ r' = r ∨
          r.exchanges.lookup spec.name = none ∧ x.createdAt = now ∧
            r' = { r with exchanges := r.exchanges.insert spec.name x }) := by
  rw [declareExchange_eq, declaring_eq_ok]
  refine and_congr_right (fun _ => ⟨?_, ?_⟩)
  · rintro (⟨hx, hspec, rfl⟩ | ⟨hnone, rfl, rfl⟩)
    · exact ⟨hspec, Or.inl ⟨hx, rfl⟩⟩
    · exact ⟨rfl, Or.inr ⟨hnone, rfl, rfl⟩⟩
  · rintro ⟨rfl, ⟨hx, rfl⟩ | ⟨hnone, rfl, rfl⟩⟩
    · exact Or.inl ⟨hx, rfl, rfl⟩
    · exact Or.inr ⟨hnone, rfl, rfl⟩

theorem declareQueue_eq_ok {r r' : Registry} {spec : QueueSpec} {now : Time} {queue : Queue} :
    r.declareQueue spec now = (.ok queue, r') ↔
      spec.withDefaults.validate = .ok () ∧ queue.toQueueSpec = spec.withDefaults ∧
        (r.queues.lookup spec.name = some queue ∧ r' = r ∨
          r.queues.lookup spec.name = none ∧ queue.createdAt = now ∧
            r' = { r with queues := r.queues.insert spec.name queue }) := by
  rw [declareQueue_eq, declaring_eq_ok]
  refine and_congr_right (fun _ => ⟨?_, ?_⟩)
  · rintro (⟨hq, hspec, rfl⟩ | ⟨hnone, rfl, rfl⟩)
    · exact ⟨hspec, Or.inl ⟨hq, rfl⟩⟩
    · exact ⟨rfl, Or.inr ⟨hnone, rfl, rfl⟩⟩
  · rintro ⟨hspec, ⟨hq, rfl⟩ | ⟨hnone, rfl, rfl⟩⟩
    · exact Or.inl ⟨hq, hspec, rfl⟩
    · obtain ⟨settings, createdAt⟩ := queue
      obtain rfl : settings = spec.withDefaults := hspec
      exact Or.inr ⟨hnone, rfl, rfl⟩

theorem exchange_eq_ok {r : Registry} {name : String} {exchange : Exchange} :
    r.exchange name = .ok exchange ↔ r.exchanges.lookup name = some exchange := by
  unfold Registry.exchange
  cases r.exchanges.lookup name <;> simp

/-- A specification the registry can add: both ends are declared, the check passes, and no
binding of the exchange has the same key. -/
structure Bindable (r : Registry) (spec : BindingSpec) : Prop where
  queue : r.queueExists spec.queue = true
  valid : ∃ exchange, r.exchanges.lookup spec.exchange = some exchange ∧
    spec.validate exchange.kind = .ok ()
  unused : ∀ b ∈ r.bindingsFor spec.exchange, b.key ≠ spec.key

theorem bind_cases (r : Registry) (spec : BindingSpec) (now : Time) :
    (∃ e, r.bind spec now = (.error e, r)) ∨
      (∃ b ∈ r.bindingsFor spec.exchange, b.key = spec.key ∧ r.bind spec now = (.ok b, r)) ∨
      r.Bindable spec ∧ r.bind spec now = (.ok ⟨spec, now⟩,
        r.setBindings spec.exchange (r.bindingsFor spec.exchange ++ [⟨spec, now⟩])) := by
  unfold Registry.bind
  by_cases hq : r.queueExists spec.queue = true
  · cases he : r.exchange spec.exchange with
    | error e => exact Or.inl ⟨e, by simp [hq]⟩
    | ok exchange =>
      cases hv : spec.validate exchange.kind with
      | error e => exact Or.inl ⟨e, by simp [hq, hv]⟩
      | ok u =>
        cases hf : (r.bindingsFor spec.exchange).find? (fun b => b.key = spec.key) with
        | some b =>
          refine Or.inr (Or.inl ⟨b, List.mem_of_find?_eq_some hf, ?_, by simp [hq, hv]⟩)
          simpa using List.find?_some hf
        | none =>
          refine Or.inr (Or.inr ⟨⟨hq, ⟨exchange, exchange_eq_ok.mp he, hv⟩, ?_⟩,
            by simp [hq, hv]⟩)
          simpa using hf
  · exact Or.inl ⟨.queueNotFound, by simp [hq]⟩

theorem Bindable.bind_eq {r : Registry} {spec : BindingSpec} (h : r.Bindable spec) (now : Time) :
    r.bind spec now = (.ok ⟨spec, now⟩,
      r.setBindings spec.exchange (r.bindingsFor spec.exchange ++ [⟨spec, now⟩])) := by
  obtain ⟨exchange, hx, hv⟩ := h.valid
  have hnone : (r.bindingsFor spec.exchange).find? (fun b => b.key = spec.key) = none := by
    simpa using h.unused
  simp [Registry.bind, h.queue, exchange_eq_ok.mpr hx, hv, hnone]

/-- A binding is accepted exactly if both ends are declared and the check passes. -/
theorem bind_ok_iff {r : Registry} {spec : BindingSpec} {now : Time} :
    (∃ b, (r.bind spec now).1 = .ok b) ↔ r.queueExists spec.queue = true ∧
      ∃ x, r.exchanges.lookup spec.exchange = some x ∧ spec.validate x.kind = .ok () := by
  unfold Registry.bind
  by_cases hq : r.queueExists spec.queue = true
  · cases hx : r.exchanges.lookup spec.exchange with
    | none => simp [hq, Registry.exchange, hx]
    | some x =>
      cases hv : spec.validate x.kind with
      | error e => simp [hq, Registry.exchange, hx, hv]
      | ok u =>
        cases hf : (r.bindingsFor spec.exchange).find? (fun b => b.key = spec.key) <;>
          simp [hq, Registry.exchange, hx, hv]
  · simp [hq]

theorem bind_keeps (r : Registry) (spec : BindingSpec) (now : Time) :
    (r.bind spec now).2.exchanges = r.exchanges ∧ (r.bind spec now).2.queues = r.queues := by
  rcases r.bind_cases spec now with ⟨e, heq⟩ | ⟨b, -, -, heq⟩ | ⟨-, heq⟩ <;> rw [heq]
  · exact ⟨rfl, rfl⟩
  · exact ⟨rfl, rfl⟩
  · exact ⟨rfl, rfl⟩

theorem unbind_cases (r : Registry) (spec : BindingSpec) :
    ((∀ b ∈ r.bindingsFor spec.exchange, b.key ≠ spec.key) ∧
        r.unbind spec = (.error .bindingNotFound, r)) ∨
      ∃ before b later, r.bindingsFor spec.exchange = before ++ b :: later ∧ b.key = spec.key ∧
        r.unbind spec = (.ok (), r.setBindings spec.exchange (before ++ later)) := by
  unfold unbind
  cases hf : (r.bindingsFor spec.exchange).find? (fun b => b.key = spec.key) with
  | none => exact Or.inl ⟨by simpa using hf, rfl⟩
  | some b =>
    obtain ⟨b', before, later, -, hkey, hsplit, herase⟩ := List.exists_of_eraseP
      (List.mem_of_find?_eq_some hf) (List.find?_some hf)
    exact Or.inr ⟨before, b', later, hsplit, by simpa using hkey, by simp [herase]⟩

theorem deleteQueue_cases (r : Registry) (name : String) :
    (∃ e, r.deleteQueue name = (.error e, r)) ∨
      (∃ queue, r.queues.lookup name = some queue) ∧ r.queueReferences name = 0 ∧
        r.deleteQueue name = (.ok (), { r with queues := r.queues.erase name }) := by
  unfold deleteQueue
  cases hl : r.queues.lookup name with
  | none => exact Or.inl ⟨_, rfl⟩
  | some queue =>
    dsimp only
    split_ifs with hused
    · exact Or.inl ⟨_, rfl⟩
    · exact Or.inr ⟨⟨queue, rfl⟩, by omega, rfl⟩

end Registry
end RabbitmqLite.Broker
