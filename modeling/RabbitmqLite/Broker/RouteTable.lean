import RabbitmqLite.Atomic.Machine
import RabbitmqLite.Broker.Declarations

/-! # Routing in every registry that can be reached

A registry starts empty and is changed by its methods only, in any order and
with any arguments. Everything in it is then filed under its own name, and a
route is a function of the set of bindings.
-/

namespace RabbitmqLite.Broker
open Collections Atomic

namespace Registry

/-- The methods that change a registry. -/
inductive Call where
  | declareExchange (spec : ExchangeSpec) (now : Time)
  | declareQueue (spec : QueueSpec) (now : Time)
  | bind (spec : BindingSpec) (now : Time)
  | unbind (spec : BindingSpec)
  | deleteQueue (name : String)
  | restore (exchanges : List Exchange) (queues : List Queue) (bindings : List Binding)
  deriving DecidableEq

@[reducible] def Call.Reply : Call → Type
  | .declareExchange .. => Except Error Exchange
  | .declareQueue .. => Except Error Queue
  | .bind .. => Except Error Binding
  | .unbind .. | .deleteQueue .. => Except Error Unit
  | .restore .. => Unit

def exec : (c : Call) → Registry → c.Reply × Registry
  | .declareExchange spec now, r => r.declareExchange spec now
  | .declareQueue spec now, r => r.declareQueue spec now
  | .bind spec now, r => r.bind spec now
  | .unbind spec, r => r.unbind spec
  | .deleteQueue name, r => r.deleteQueue name
  | .restore exchanges queues bindings, r => ((), r.restore exchanges queues bindings)

/-- The registry after a list of calls. -/
abbrev reached (cs : List Call) : Registry := after exec newRegistry cs

/-- The specifications that are bound. -/
def specs (r : Registry) : Finset BindingSpec :=
  (r.bindingGroups.map Binding.toBindingSpec).toFinset

theorem mem_specs {r : Registry} {spec : BindingSpec} :
    spec ∈ r.specs ↔ ∃ e, ∃ b ∈ r.bindingsFor e, b.toBindingSpec = spec := by
  unfold specs
  rw [List.mem_toFinset, List.mem_map]
  simp only [mem_bindingGroups]
  constructor
  · rintro ⟨b, ⟨e, hb⟩, rfl⟩
    exact ⟨e, b, hb, rfl⟩
  · rintro ⟨e, b, hb, rfl⟩
    exact ⟨b, ⟨e, hb⟩, rfl⟩

/-! ## Everything under its own name -/

structure Filed (r : Registry) : Prop where
  exchanges : ∀ {name x}, r.exchanges.lookup name = some x → x.name = name
  queues : ∀ {name queue}, r.queues.lookup name = some queue → queue.name = name
  bindings : ∀ {e b}, b ∈ r.bindingsFor e → b.exchange = e

theorem newRegistry_filed : newRegistry.Filed :=
  ⟨fun h => by simp [newRegistry] at h, fun h => by simp [newRegistry] at h,
    fun h => by simp [bindingsFor, newRegistry] at h⟩

theorem Filed.setBindings {r : Registry} (h : r.Filed) {exchange : String}
    {bindings : List Binding} (hb : ∀ b ∈ bindings, b.exchange = exchange) :
    (r.setBindings exchange bindings).Filed := by
  refine ⟨h.exchanges, h.queues, fun {e b} hmem => ?_⟩
  rw [bindingsFor_setBindings] at hmem
  split_ifs at hmem with he
  · rw [he]
    exact hb b hmem
  · exact h.bindings hmem

theorem Filed.addExchange {r : Registry} (h : r.Filed) (spec : ExchangeSpec) (now : Time) :
    { r with exchanges := r.exchanges.insert spec.name ⟨spec, now⟩ }.Filed := by
  refine ⟨fun {name x} hx => ?_, h.queues, h.bindings⟩
  rw [lookup_insert_eq] at hx
  split_ifs at hx with hname
  · cases hx
    exact hname.symm
  · exact h.exchanges hx

theorem Filed.addQueue {r : Registry} (h : r.Filed) (spec : QueueSpec) (now : Time) :
    { r with queues := r.queues.insert spec.name ⟨spec, now⟩ }.Filed := by
  refine ⟨h.exchanges, fun {name queue} hq => ?_, h.bindings⟩
  rw [lookup_insert_eq] at hq
  split_ifs at hq with hname
  · cases hq
    exact hname.symm
  · exact h.queues hq

theorem Filed.bind {r : Registry} (h : r.Filed) (spec : BindingSpec) (now : Time) :
    (r.bind spec now).2.Filed := by
  rcases r.bind_cases spec now with ⟨e, heq⟩ | ⟨b, -, -, heq⟩ | ⟨-, heq⟩
  · rwa [heq]
  · rwa [heq]
  · rw [heq]
    apply h.setBindings
    intro b hb
    rcases List.mem_append.mp hb with hb | hb
    · exact h.bindings hb
    · rw [List.mem_singleton.mp hb]

theorem Filed.unbind {r : Registry} (h : r.Filed) (spec : BindingSpec) :
    (r.unbind spec).2.Filed := by
  rcases r.unbind_cases spec with ⟨-, heq⟩ | ⟨before, b, later, hsplit, -, heq⟩
  · rwa [heq]
  · rw [heq]
    apply h.setBindings
    intro b' hb'
    apply h.bindings
    rw [hsplit]
    rcases List.mem_append.mp hb' with hb' | hb'
    · exact List.mem_append_left _ hb'
    · exact List.mem_append_right _ (List.mem_cons_of_mem b hb')

theorem Filed.deleteQueue {r : Registry} (h : r.Filed) (name : String) :
    (r.deleteQueue name).2.Filed := by
  rcases r.deleteQueue_cases name with ⟨e, heq⟩ | ⟨-, -, heq⟩
  · rwa [heq]
  · rw [heq]
    refine ⟨h.exchanges, fun {other queue} hq => ?_, h.bindings⟩
    rw [lookup_erase_eq] at hq
    split_ifs at hq
    exact h.queues hq

/-- Values inserted under the name they carry are found under it. -/
theorem name_of_lookup_insertAll {β : Type} {name : β → String} {m : Map String β}
    (h : ∀ {key v}, m.lookup key = some v → name v = key) {values : List β} {key : String} {v : β}
    (hv : (insertAll name m values).lookup key = some v) : name v = key := by
  by_cases hmem : key ∈ values.map name
  · obtain ⟨u, -, hname, hl⟩ := lookup_insertAll_of_mem name m values key hmem
    rw [hv] at hl
    rw [Option.some.inj hl, hname]
  · rw [lookup_insertAll_of_notMem name m values key hmem] at hv
    exact h hv

theorem Filed.restore {r : Registry} (h : r.Filed) (exchanges : List Exchange)
    (queues : List Queue) (bindings : List Binding) :
    (r.restore exchanges queues bindings).Filed := by
  refine ⟨fun hx => ?_, fun hq => ?_, fun {e b} hb => ?_⟩
  · rw [Registry.restore, exchanges_restoreBindings] at hx
    exact name_of_lookup_insertAll h.exchanges hx
  · rw [Registry.restore, queues_restoreBindings] at hq
    exact name_of_lookup_insertAll h.queues hq
  · rw [Registry.restore, bindingsFor_restoreBindings] at hb
    rcases List.mem_append.mp hb with hb | hb
    · exact h.bindings hb
    · simpa using (List.mem_filter.mp hb).2

theorem Filed.exec {r : Registry} (h : r.Filed) (c : Call) : (exec c r).2.Filed := by
  cases c with
  | declareExchange spec now =>
    rcases r.declareExchange_cases spec now with ⟨e, heq⟩ | ⟨x, -, heq⟩ | ⟨-, heq⟩
    · rwa [Registry.exec, heq]
    · rwa [Registry.exec, heq]
    · rw [Registry.exec, heq]
      exact h.addExchange spec now
  | declareQueue spec now =>
    rcases r.declareQueue_cases spec now with ⟨e, heq⟩ | ⟨queue, -, heq⟩ | ⟨-, heq⟩
    · rwa [Registry.exec, heq]
    · rwa [Registry.exec, heq]
    · rw [Registry.exec, heq]
      exact h.addQueue spec.withDefaults now
  | bind spec now => exact h.bind spec now
  | unbind spec => exact h.unbind spec
  | deleteQueue name => exact h.deleteQueue name
  | restore exchanges queues bindings => exact h.restore exchanges queues bindings

theorem reached_filed (cs : List Call) : (reached cs).Filed := by
  induction cs using List.reverseRecOn with
  | nil => exact newRegistry_filed
  | append_singleton cs c ih =>
    rw [reached, after_append, after_singleton]
    exact ih.exec c

/-! ## Routes -/

/-- The queue is declared, and a binding of the exchange to it matches the key. -/
def LeadsTo (r : Registry) (exchange : Exchange) (routingKey : String) (queue : Queue) : Prop :=
  r.queues.lookup queue.name = some queue ∧
    ∃ spec ∈ r.specs, spec.exchange = exchange.name ∧ spec.queue = queue.name ∧
      bindingMatches exchange.kind spec.routingKey routingKey = true

theorem Filed.mem_bindingsFor {r : Registry} (h : r.Filed) {e : String} {spec : BindingSpec} :
    (∃ b ∈ r.bindingsFor e, b.toBindingSpec = spec) ↔ spec ∈ r.specs ∧ spec.exchange = e := by
  rw [mem_specs]
  constructor
  · rintro ⟨b, hb, rfl⟩
    exact ⟨⟨e, b, hb, rfl⟩, h.bindings hb⟩
  · rintro ⟨⟨e', b, hb, rfl⟩, he⟩
    rw [h.bindings hb] at he
    subst he
    exact ⟨b, hb, rfl⟩

theorem Filed.reaches_iff {r : Registry} (h : r.Filed) {exchange : Exchange}
    {routingKey name : String} :
    r.Reaches exchange routingKey name ↔ r.queueExists name = true ∧
      ∃ spec ∈ r.specs, spec.exchange = exchange.name ∧ spec.queue = name ∧
        bindingMatches exchange.kind spec.routingKey routingKey = true := by
  refine and_congr_right (fun _ => ⟨?_, ?_⟩)
  · rintro ⟨b, hb, hqueue, hmatch⟩
    obtain ⟨hspec, he⟩ := h.mem_bindingsFor.mp ⟨b, hb, rfl⟩
    exact ⟨b.toBindingSpec, hspec, he, hqueue, hmatch⟩
  · rintro ⟨spec, hspec, he, hqueue, hmatch⟩
    obtain ⟨b, hb, rfl⟩ := h.mem_bindingsFor.mpr ⟨hspec, he⟩
    exact ⟨b, hb, hqueue, hmatch⟩

/-- The queues found under the names of a route. -/
theorem Filed.mem_filterMap_routeNames {r : Registry} (h : r.Filed) {exchange : Exchange}
    {routingKey : String} {queue : Queue} :
    queue ∈ (r.routeNames exchange routingKey).filterMap r.queues.lookup ↔
      r.LeadsTo exchange routingKey queue := by
  rw [List.mem_filterMap]
  unfold LeadsTo
  constructor
  · rintro ⟨name, hname, hqueue⟩
    obtain ⟨-, hspec⟩ := h.reaches_iff.mp (mem_routeNames.mp hname)
    rw [h.queues hqueue]
    exact ⟨hqueue, hspec⟩
  · rintro ⟨hqueue, hspec⟩
    refine ⟨queue.name, mem_routeNames.mpr (h.reaches_iff.mpr ⟨?_, hspec⟩), hqueue⟩
    rw [queueExists, hqueue]
    rfl

/-- Every name of a route has a queue, which carries it. -/
theorem Filed.map_name_route {r : Registry} (h : r.Filed) (exchange : Exchange)
    (routingKey : String) :
    ((r.routeNames exchange routingKey).filterMap r.queues.lookup).map (fun queue => queue.name) =
      r.routeNames exchange routingKey := by
  have hfound : ∀ names : List String, (∀ name ∈ names, r.queueExists name = true) →
      (names.filterMap r.queues.lookup).map (fun queue => queue.name) = names := by
    intro names hnames
    induction names with
    | nil => rfl
    | cons name names ih =>
      obtain ⟨queue, hqueue⟩ := Option.isSome_iff_exists.mp (hnames name List.mem_cons_self)
      have hrest := ih (fun other ho => hnames other (List.mem_cons_of_mem name ho))
      simp [hqueue, h.queues hqueue, hrest]
  exact hfound _ (fun name hname => (mem_routeNames.mp hname).1)

/-- A route of the exchange lists exactly the queues the key leads to, by increasing names, and
there is none exactly if the key leads nowhere. -/
structure RoutesExactly (r : Registry) (exchange : Exchange) (routingKey : String) : Prop where
  unroutable : r.route exchange.name routingKey = .error .unroutable ↔
    ∀ queue, ¬ r.LeadsTo exchange routingKey queue
  routed : (∃ queue, r.LeadsTo exchange routingKey queue) →
    ∃ queues, r.route exchange.name routingKey = .ok queues ∧
      (queues.map (fun queue => queue.name)).Pairwise (· < ·) ∧
        ∀ queue, queue ∈ queues ↔ r.LeadsTo exchange routingKey queue

theorem Filed.routesExactly {r : Registry} (h : r.Filed) {exchange : Exchange}
    (hx : r.exchanges.lookup exchange.name = some exchange) (routingKey : String) :
    r.RoutesExactly exchange routingKey := by
  have hroute : r.route exchange.name routingKey =
      if (r.routeNames exchange routingKey).length = 0 then .error .unroutable
      else .ok ((r.routeNames exchange routingKey).filterMap r.queues.lookup) := by
    rw [Registry.route, exchange_eq_ok.mpr hx]
  have hmem : ∀ queue, queue ∈ (r.routeNames exchange routingKey).filterMap r.queues.lookup ↔
      r.LeadsTo exchange routingKey queue := fun _ => h.mem_filterMap_routeNames
  have hempty : (r.routeNames exchange routingKey).length = 0 ↔
      ∀ queue, ¬ r.LeadsTo exchange routingKey queue := by
    rw [← h.map_name_route, List.length_map, List.length_eq_zero_iff,
      List.eq_nil_iff_forall_not_mem]
    exact forall_congr' (fun queue => not_congr (hmem queue))
  constructor
  · rw [hroute, ← hempty]
    split_ifs with hnone <;> simp [hnone]
  · rintro ⟨queue, hqueue⟩
    have hsome : (r.routeNames exchange routingKey).length ≠ 0 := fun hnone =>
      hempty.mp hnone queue hqueue
    rw [if_neg hsome] at hroute
    refine ⟨_, hroute, ?_, hmem⟩
    rw [h.map_name_route]
    exact r.sortedLT_routeNames exchange routingKey

/-- Only the set of bindings counts. -/
theorem Filed.route_congr {r r' : Registry} (h : r.Filed) (h' : r'.Filed)
    (hexchanges : r'.exchanges = r.exchanges) (hqueues : r'.queues = r.queues)
    (hspecs : r'.specs = r.specs) (exchange routingKey : String) :
    r'.route exchange routingKey = r.route exchange routingKey := by
  unfold Registry.route Registry.exchange
  rw [hexchanges, hqueues]
  cases r.exchanges.lookup exchange with
  | none => rfl
  | some x =>
    have hnames : r'.routeNames x routingKey = r.routeNames x routingKey := by
      rw [routeNames_eq_filter (r := r) (fun _ => true) (fun name => ?_), List.filter_true]
      rw [h'.reaches_iff, h.reaches_iff, hspecs, queueExists, queueExists, hqueues]
      simp
    dsimp only
    rw [hnames]

/-- In every registry that can be reached, every declared exchange routes every key to exactly
the declared queues that a matching binding leads to, in the order of their names; and
registries that differ only in the order of their bindings route alike. -/
theorem routes_exactly (cs : List Call) :
    (∀ exchange x routingKey, (reached cs).exchanges.lookup exchange = some x →
      x.name = exchange ∧ (reached cs).RoutesExactly x routingKey) ∧
    ∀ cs', (reached cs').exchanges = (reached cs).exchanges →
      (reached cs').queues = (reached cs).queues → (reached cs').specs = (reached cs).specs →
        ∀ exchange routingKey,
          (reached cs').route exchange routingKey = (reached cs).route exchange routingKey := by
  have h := reached_filed cs
  constructor
  · intro exchange x routingKey hx
    have hname := h.exchanges hx
    rw [← hname] at hx
    exact ⟨hname, h.routesExactly hx routingKey⟩
  · intro cs' hexchanges hqueues hspecs
    exact h.route_congr (reached_filed cs') hexchanges hqueues hspecs

def saleCalls : List Call :=
  [.declareExchange ⟨"shop", .topic, true⟩ 1, .declareQueue ⟨"orders", true, 3, second, ""⟩ 2,
    .declareQueue ⟨"bills", true, 3, second, ""⟩ 3]

def saleToOrders : Binding := ⟨⟨"shop", "orders", "sale.#"⟩, 4⟩
def saleToBills : Binding := ⟨⟨"shop", "bills", "sale.*"⟩, 5⟩

/-- Bound one after the other, or restored the other way round. -/
theorem routes_exactly_restored :
    let bound :=
      saleCalls ++ [.bind saleToOrders.toBindingSpec 4, .bind saleToBills.toBindingSpec 5]
    let restored := saleCalls ++ [.restore [] [] [saleToBills, saleToOrders]]
    (reached bound).RoutesExactly ⟨⟨"shop", .topic, true⟩, 1⟩ "sale.new" ∧
      (reached restored).route "shop" "sale.new" = (reached bound).route "shop" "sale.new" := by
  intro bound restored
  have h := routes_exactly bound
  refine ⟨(h.1 "shop" _ "sale.new" (by decide +kernel)).2, ?_⟩
  exact h.2 restored (by decide +kernel) (by decide +kernel) (by decide +kernel) "shop" "sale.new"

end Registry
end RabbitmqLite.Broker
