import RabbitmqLite.Engine.Mirror
import RabbitmqLite.Engine.NoLoss

/-! # What a restart keeps

Durable routing survives every restart. The bindings of exchanges and queues
that are not durable survive it as well, although what they refer to is gone:
the topology keeps its integrity exactly as long as no restart finds one.
-/

namespace RabbitmqLite.Engine
open Broker Collections Storage Atomic

/-! ## Routing -/

/-- The queues a publication is routed to, none if it is refused. -/
def routed : Except Broker.Error (List Queue) → List Queue
  | .ok queues => queues
  | .error _ => []

/-- What is left of a route without everything that is not durable. -/
def durableRoute (r : Registry) (exchange routingKey : String) :
    Except Broker.Error (List Queue) :=
  match r.exchanges.lookup exchange with
  | none => .error .exchangeNotFound
  | some x =>
    if x.durable then
      let kept := (routed (r.route exchange routingKey)).filter (fun queue => queue.durable)
      if kept = [] then .error .unroutable else .ok kept
    else .error .exchangeNotFound

/-- The values found under the keys whose value passes a test. -/
theorem filterMap_filter_isSome {α β : Type} (f : α → Option β) (p : β → Bool) (l : List α) :
    (l.filter (fun a => ((f a).filter p).isSome)).filterMap (fun a => (f a).filter p) =
      (l.filterMap f).filter p := by
  induction l with
  | nil => rfl
  | cons a l ih =>
    cases hf : f a with
    | none => simpa [hf] using ih
    | some b =>
      by_cases hp : p b = true
      · simpa [hf, hp, Option.filter] using ih
      · simpa [hf, hp, Option.filter] using ih

theorem routed_route {r : Registry} {exchange : String} {x : Exchange}
    (hx : r.exchanges.lookup exchange = some x) (routingKey : String) :
    routed (r.route exchange routingKey) =
      (r.routeNames x routingKey).filterMap r.queues.lookup := by
  unfold Registry.route
  rw [Registry.exchange_eq_ok.mpr hx]
  dsimp only
  split_ifs with hempty
  · rw [List.eq_nil_of_length_eq_zero hempty]
    rfl
  · rfl

theorem World.Mirrors.reaches_restart {w : World} (h : w.Mirrors) {exchange : Exchange}
    {routingKey name : String} :
    w.restart.registry.Reaches exchange routingKey name ↔
      w.registry.Reaches exchange routingKey name ∧
        ((w.registry.queues.lookup name).filter (fun queue => queue.durable)).isSome = true := by
  unfold Registry.Reaches Registry.queueExists
  simp only [h.mem_restart_bindingsFor, h.restart_queues]
  constructor
  · rintro ⟨hq, hb⟩
    refine ⟨⟨?_, hb⟩, hq⟩
    obtain ⟨queue, hqueue⟩ := Option.isSome_iff_exists.mp hq
    rw [(Option.filter_eq_some_iff.mp hqueue).1]
    rfl
  · rintro ⟨⟨-, hb⟩, hq⟩
    exact ⟨hq, hb⟩

theorem World.Mirrors.route_restart {w : World} (h : w.Mirrors) (exchange routingKey : String) :
    w.restart.registry.route exchange routingKey = durableRoute w.registry exchange routingKey := by
  unfold durableRoute
  cases hx : w.registry.exchanges.lookup exchange with
  | none => simp [Registry.route, Registry.exchange, h.restart_exchanges, hx]
  | some x =>
    by_cases hd : x.durable = true
    · have hx' : w.restart.registry.exchange exchange = .ok x := by
        rw [Registry.exchange_eq_ok, h.restart_exchanges, hx]
        simp [Option.filter, hd]
      have hnames : w.restart.registry.routeNames x routingKey =
          (w.registry.routeNames x routingKey).filter (fun name =>
            ((w.registry.queues.lookup name).filter (fun queue => queue.durable)).isSome) :=
        Registry.routeNames_eq_filter _ (fun name => h.reaches_restart)
      have hkept : (w.restart.registry.routeNames x routingKey).filterMap
          w.restart.registry.queues.lookup =
            (routed (w.registry.route exchange routingKey)).filter
              (fun queue => queue.durable) := by
        rw [routed_route hx, ← filterMap_filter_isSome, hnames]
        exact List.filterMap_congr (fun name _ => h.restart_queues name)
      -- Every name that is left has a queue, so there is no name exactly if no queue is kept.
      have hempty : (w.restart.registry.routeNames x routingKey).length = 0 ↔
          (routed (w.registry.route exchange routingKey)).filter
            (fun queue => queue.durable) = [] := by
        rw [← hkept, List.length_eq_zero_iff, List.filterMap_eq_nil_iff]
        constructor
        · intro hnil
          simp [hnil]
        · intro hnone
          rw [List.eq_nil_iff_forall_not_mem]
          intro name hname
          have hsome := (Registry.mem_routeNames.mp hname).1
          rw [Registry.queueExists, hnone name hname] at hsome
          cases hsome
      conv_lhs => rw [Registry.route, hx']
      dsimp only
      rw [hkept, if_pos hd]
      exact if_congr hempty rfl rfl
    · simp [Registry.route, Registry.exchange, h.restart_exchanges, hx, Option.filter, hd]

/-- Right after a restart an exchange routes to the durable queues it routed to before if it
is durable, and it is unknown if it is not. -/
theorem durable_routing_survives (engine : Engine) (env : Env) (requests : List Request)
    (exchange routingKey : String) :
    (engine.served env (requests ++ [.restart])).state.registry.route exchange routingKey =
      durableRoute (engine.served env requests).state.registry exchange routingKey := by
  rw [served_snoc]
  exact (served_mirrors engine env requests).route_restart exchange routingKey

/-! ## Integrity -/

/-- The binding refers to this exchange and to a queue, both declared, and its routing key is
valid for the exchange. -/
structure Anchored (r : Registry) (e : String) (b : Binding) : Prop where
  exchange : b.exchange = e
  queue : r.queueExists b.queue = true
  valid : ∃ x, r.exchanges.lookup e = some x ∧ b.validate x.kind = .ok ()

/-- Every binding is anchored, and no exchange has the same one twice. -/
structure Integral (r : Registry) : Prop where
  anchored : ∀ e, ∀ b ∈ r.bindingsFor e, Anchored r e b
  distinct : ∀ e, ((r.bindingsFor e).map (fun b => (b.queue, b.routingKey))).Nodup

/-- If the engine is restarted, then with bindings between durable ends only. -/
def Restartable (x : Server) : Request → Prop
  | .restart => ∀ e, ∀ b ∈ x.state.registry.bindingsFor e,
      (∃ exchange, x.state.registry.exchanges.lookup b.exchange = some exchange ∧
        exchange.durable = true) ∧
      ∃ queue, x.state.registry.queues.lookup b.queue = some queue ∧ queue.durable = true
  | _ => True

/-- The keys of the bindings of one exchange differ in the queue or in the routing key. -/
theorem Mirrored.distinct_pairs {r : Registry} {s : Memory.Store} (h : Mirrored r s) (e : String) :
    ((r.bindingsFor e).map (fun b => (b.queue, b.routingKey))).Nodup := by
  have hn := h.distinct e
  unfold List.Nodup at hn ⊢
  rw [List.pairwise_map] at hn ⊢
  refine hn.imp_of_mem (fun {a b} ha hb hne heq => hne ?_)
  obtain ⟨hqueue, hkey⟩ := Prod.mk.inj heq
  simp only [BindingSpec.key, hqueue, hkey, (h.home e a ha).1, (h.home e b hb).1]

theorem act_registry (env : Env) (program : Op → Program Unit) (x : Server) (action : Action Op) :
    (x.act (perform env) program action).state.registry = x.state.registry := by
  cases action with
  | start op => rfl
  | step i =>
    rcases Config.act_step (perform env) program x i with hact | ⟨e, next, -, hact⟩ <;> rw [hact]
    exact perform_registry env e x.state

/-- What a topology operation makes of the registry, whatever the store says. -/
def TopologyOp.onRegistry (op : TopologyOp) (now : Time) (r : Registry) : Registry :=
  match op with
  | .declareExchange spec => (r.declareExchange spec now).2
  | .declareQueue spec => (r.declareQueue spec now).2
  | .bind spec => (r.bind spec now).2
  | .unbind spec => (r.unbind spec).2
  | .deleteQueue name => (r.deleteQueue name).2

theorem World.inBoth_registry {α : Type} (w : World) (answer : Except Broker.Error α × Registry)
    {write : α → World → Except Storage.Error Unit × World}
    (h : ∀ a w, (write a w).2.registry = w.registry) :
    (site.inBoth w answer write).2.registry = answer.2 := by
  rcases answer with ⟨e | a, r⟩
  · rfl
  · have hw := h a (site.withRegistry w r)
    unfold Site.inBoth
    dsimp only
    split <;> rename_i heq <;> rw [heq] at hw <;> exact hw

theorem World.write_registry (w : World) (fault : Option Storage.Error)
    {written : Except Storage.Error Unit × World} (h : written.2.registry = w.registry) :
    (Site.write w fault written).2.registry = w.registry := by
  cases fault with
  | none => exact h
  | some e => rfl

theorem Site.ignoreNotFound_snd {τ : Type} (written : Except Storage.Error Unit × τ) :
    (ignoreNotFound written).2 = written.2 := by
  unfold ignoreNotFound
  split <;> rfl

theorem TopologyOp.exec_registry (op : TopologyOp) (fault : Option Storage.Error) (now : Time)
    (w : World) : (op.exec fault now w).2.registry = op.onRegistry now w.registry := by
  cases op with
  | declareExchange | declareQueue =>
    refine w.inBoth_registry _ (fun a w => ?_)
    split_ifs
    · exact w.write_registry fault rfl
    · rfl
  | bind => exact w.inBoth_registry _ (fun a w => w.write_registry fault rfl)
  | unbind | deleteQueue =>
    refine w.inBoth_registry _ (fun a w => ?_)
    rw [Site.ignoreNotFound_snd]
    exact w.write_registry fault rfl

theorem Anchored.mono {r r' : Registry} {e : String} {b : Binding} (h : Anchored r e b)
    (hx : ∀ x, r.exchanges.lookup e = some x → r'.exchanges.lookup e = some x)
    (hq : r.queueExists b.queue = true → r'.queueExists b.queue = true) : Anchored r' e b where
  exchange := h.exchange
  queue := hq h.queue
  valid := by
    obtain ⟨x, hl, hv⟩ := h.valid
    exact ⟨x, hx x hl, hv⟩

/-- No operation of the registry leaves a binding hanging. -/
theorem TopologyOp.anchored (op : TopologyOp) (now : Time) {r : Registry}
    (h : ∀ e, ∀ b ∈ r.bindingsFor e, Anchored r e b) :
    ∀ e, ∀ b ∈ (op.onRegistry now r).bindingsFor e, Anchored (op.onRegistry now r) e b := by
  cases op with
  | declareExchange spec =>
    rcases r.declareExchange_cases spec now with ⟨e, hr⟩ | ⟨x, -, hr⟩ | ⟨hnew, hr⟩ <;>
      simp only [onRegistry, hr]
    · exact h
    · exact h
    · refine fun e b hb => (h e b hb).mono (fun x hx => ?_) id
      have hne : e ≠ spec.name := fun he => by
        rw [he, hnew] at hx
        cases hx
      rw [lookup_insert_eq, if_neg hne, hx]
  | declareQueue spec =>
    rcases r.declareQueue_cases spec now with ⟨e, hr⟩ | ⟨q, -, hr⟩ | ⟨hnew, hr⟩ <;>
      simp only [onRegistry, hr]
    · exact h
    · exact h
    · refine fun e b hb => (h e b hb).mono (fun _ hx => hx) (fun hq => ?_)
      unfold Registry.queueExists at hq ⊢
      rw [lookup_insert_eq]
      split_ifs
      · rfl
      · exact hq
  | bind spec =>
    rcases r.bind_cases spec now with ⟨e, hr⟩ | ⟨b, -, -, hr⟩ | ⟨hnew, hr⟩ <;>
      simp only [onRegistry, hr]
    · exact h
    · exact h
    · intro e b hb
      suffices hold : Anchored r e b from hold.mono (fun _ hx => hx) id
      rw [Registry.bindingsFor_setBindings] at hb
      split_ifs at hb with he
      · subst he
        rcases List.mem_append.mp hb with hb | hb
        · exact h _ b hb
        · rw [List.mem_singleton.mp hb]
          exact ⟨rfl, hnew.queue, hnew.valid⟩
      · exact h e b hb
  | unbind spec =>
    rcases r.unbind_cases spec with ⟨-, hr⟩ | ⟨before, b, later, hsplit, -, hr⟩ <;>
      simp only [onRegistry, hr]
    · exact h
    · intro e b' hb
      suffices hold : Anchored r e b' from hold.mono (fun _ hx => hx) id
      rw [Registry.bindingsFor_setBindings] at hb
      split_ifs at hb with he
      · subst he
        apply h
        rw [hsplit]
        rcases List.mem_append.mp hb with hb | hb
        · exact List.mem_append_left _ hb
        · exact List.mem_append_right _ (List.mem_cons_of_mem b hb)
      · exact h e b' hb
  | deleteQueue name =>
    rcases r.deleteQueue_cases name with ⟨e, hr⟩ | ⟨-, hunused, hr⟩ <;> simp only [onRegistry, hr]
    · exact h
    · refine fun e b hb => (h e b hb).mono (fun _ hx => hx) (fun hq => ?_)
      have hne := Registry.queueReferences_eq_zero.mp hunused e b hb
      unfold Registry.queueExists at hq ⊢
      rwa [lookup_erase_eq, if_neg hne]

/-- A restart keeps the integrity exactly if only durable ends are bound. -/
theorem World.Mirrors.integral_restart {w : World} (h : w.Mirrors) (hi : Integral w.registry) :
    Integral w.restart.registry ↔ ∀ e, ∀ b ∈ w.registry.bindingsFor e,
      (∃ exchange, w.registry.exchanges.lookup b.exchange = some exchange ∧
        exchange.durable = true) ∧
      ∃ queue, w.registry.queues.lookup b.queue = some queue ∧ queue.durable = true := by
  constructor
  · intro hafter e b hb
    obtain ⟨he, hqueue, x, hx, -⟩ := hafter.anchored e b (h.mem_restart_bindingsFor.mpr hb)
    obtain ⟨queue, hqueue⟩ := Option.isSome_iff_exists.mp hqueue
    rw [h.restart_exchanges] at hx
    rw [h.restart_queues] at hqueue
    refine ⟨⟨x, ?_⟩, queue, Option.filter_eq_some_iff.mp hqueue⟩
    rw [he]
    exact Option.filter_eq_some_iff.mp hx
  · intro hdurable
    refine ⟨fun e b hb => ?_, h.restart.mirrored.distinct_pairs⟩
    have hb' := h.mem_restart_bindingsFor.mp hb
    obtain ⟨⟨exchange, hx, hxd⟩, queue, hq, hqd⟩ := hdurable e b hb'
    have hold := hi.anchored e b hb'
    rw [hold.exchange] at hx
    refine hold.mono (fun x hl => ?_) (fun _ => ?_)
    · rw [hx] at hl
      rw [h.restart_exchanges, hx, ← hl]
      exact Option.filter_eq_some_iff.mpr ⟨rfl, hxd⟩
    · rw [Registry.queueExists, h.restart_queues, hq]
      simp [Option.filter, hqd]

/-- One request keeps the integrity exactly if it is no restart with a binding that has an end
which is not durable. -/
theorem integral_step (engine : Engine) (env : Env) (requests : List Request) (request : Request)
    (hi : Integral (engine.served env requests).state.registry) :
    Integral (engine.served env (requests ++ [request])).state.registry ↔
      Restartable (engine.served env requests) request := by
  have hw := served_mirrors engine env requests
  have hw' := served_mirrors engine env (requests ++ [request])
  rw [served_snoc] at hw' ⊢
  cases request with
  | act action =>
    simp only [serve, act_registry, Restartable, iff_true]
    exact hi
  | topology op now =>
    simp only [Restartable, iff_true]
    refine ⟨?_, hw'.mirrored.distinct_pairs⟩
    simp only [serve, TopologyOp.exec_registry]
    exact op.anchored now hi.anchored
  | restart => exact hw.integral_restart hi

theorem init_integral : Integral Registry.newRegistry where
  anchored := by simp [Registry.bindingsFor, Registry.newRegistry]
  distinct := by simp [Registry.bindingsFor, Registry.newRegistry]

/-- The topology has its integrity in all states of a run exactly if every restart of the run
finds bindings between durable exchanges and durable queues only. -/
theorem integrity_iff_restartable (engine : Engine) (env : Env) (requests : List Request) :
    (∀ done, done <+: requests → Integral (engine.served env done).state.registry) ↔
      StepsMeet (engine.serve env) Restartable (Config.init (World.init Registry.newRegistry))
        requests := by
  refine forall_prefix_iff_stepsMeet (engine.serve env)
    (I := fun x => ∃ done, x = engine.served env done) (P := fun x => Integral x.state.registry)
    ?_ ?_ ⟨[], rfl⟩ init_integral requests
  · rintro _ request ⟨done, rfl⟩
    exact ⟨done ++ [request], (served_snoc engine env done request).symm⟩
  · rintro _ request ⟨done, rfl⟩ hi
    rw [← served_snoc]
    exact integral_step engine env done request hi

/-- A durable exchange, a queue that is not durable, a binding between them, and a restart. -/
def volatileQueue : List Request :=
  [.topology (.declareExchange ⟨"shop", .direct, true⟩) 1,
   .topology (.declareQueue ⟨"orders", false, 3, 30, ""⟩) 2,
   .topology (.bind ⟨"shop", "orders", "orders"⟩) 3, .restart]

/-- The binding is still there after the restart, but the queue is not. -/
theorem integrity_volatileQueue :
    ¬ Integral ((ordersEngine 3 (by decide)).served steadyEnv volatileQueue).state.registry := by
  intro h
  have hqueue := (h.anchored "shop" ⟨⟨"shop", "orders", "orders"⟩, 3⟩ (by decide +kernel)).queue
  revert hqueue
  decide +kernel

end RabbitmqLite.Engine
