import RabbitmqLite.Broker.Topology
import RabbitmqLite.Collections.FiniteMap

/-! # The in-memory registry and its routing table

Routing answers one question: which declared queues does a routing key reach
through an exchange. The registry is read and changed under one lock, so each
method is a function of the whole table.
-/

namespace RabbitmqLite.Broker
open Collections

def wildcardSingle : String := "*"
def wildcardMulti : String := "#"

/-- One row of the matching table, computed from the row below it and from the
last column to the first. The row below has one entry more than the key. -/
def matchRow (segment : String) : List String → List Bool → List Bool
  | [], below => [segment == wildcardMulti && below.headD false]
  | k :: key, below =>
    let right := matchRow segment key below.tail
    (if segment = wildcardMulti then below.headD false || right.headD false
     else if segment = wildcardSingle ∨ segment = k then below.tail.headD false
     else false) :: right

/-- The last row: only the empty pattern against the empty rest matches. -/
def lastRow (key : List String) : List Bool := key.map (fun _ => false) ++ [true]

def matchSegments (pattern key : List String) : Bool :=
  (pattern.foldr (fun segment below => matchRow segment key below) (lastRow key)).headD false

def matchTopic (pattern routingKey : String) : Bool :=
  if pattern = wildcardMulti then true
  else matchSegments (split pattern) (split routingKey)

def bindingMatches (kind : ExchangeKind) (pattern routingKey : String) : Bool :=
  match kind with
  | .fanout => true
  | .direct => pattern == routingKey
  | .topic => matchTopic pattern routingKey
  | .other _ => false

structure Registry where
  exchanges : Map String Exchange
  bindings : Map String (List Binding)
  queues : Map String Queue

namespace Registry

def newRegistry : Registry := ⟨∅, ∅, ∅⟩

def bindingsFor (r : Registry) (exchange : String) : List Binding :=
  (r.bindings.lookup exchange).getD []

def exchange (r : Registry) (name : String) : Except Error Exchange :=
  match r.exchanges.lookup name with
  | some exchange => .ok exchange
  | none => .error .exchangeNotFound

def queue (r : Registry) (name : String) : Except Error Queue :=
  match r.queues.lookup name with
  | some queue => .ok queue
  | none => .error .queueNotFound

def queueExists (r : Registry) (name : String) : Bool := (r.queues.lookup name).isSome

/-- The loop of `route`; `matched` doubles as the set of queues seen. -/
def routeLoop (kind : ExchangeKind) (routingKey : String) (deliverable : String → Bool) :
    List Binding → List String → List String
  | [], matched => matched
  | b :: bs, matched =>
    if b.queue ∈ matched then routeLoop kind routingKey deliverable bs matched
    else if !deliverable b.queue then routeLoop kind routingKey deliverable bs matched
    else if !bindingMatches kind b.routingKey routingKey then
      routeLoop kind routingKey deliverable bs matched
    else routeLoop kind routingKey deliverable bs (matched ++ [b.queue])

/-- The names of the queues reached, in increasing order. -/
def routeNames (r : Registry) (exchange : Exchange) (routingKey : String) : List String :=
  (routeLoop exchange.kind routingKey r.queueExists (r.bindingsFor exchange.name) []).insertionSort
    (· ≤ ·)

def route (r : Registry) (exchange routingKey : String) : Except Error (List Queue) :=
  match r.exchange exchange with
  | .error e => .error e
  | .ok definition =>
    let names := r.routeNames definition routingKey
    if names.length = 0 then .error .unroutable
    else .ok (names.filterMap r.queues.lookup)

/-! ## Declarations

The reading of the registry's clock is an argument of the methods that take one. -/

def declareExchange (r : Registry) (spec : ExchangeSpec) (now : Time) :
    Except Error Exchange × Registry :=
  match spec.validate with
  | .error e => (.error e, r)
  | .ok () =>
    match r.exchanges.lookup spec.name with
    | some existing =>
      if existing.toExchangeSpec ≠ spec then (.error .exchangeExists, r) else (.ok existing, r)
    | none =>
      let exchange : Exchange := ⟨spec, now⟩
      (.ok exchange, { r with exchanges := r.exchanges.insert spec.name exchange })

def declareQueue (r : Registry) (spec : QueueSpec) (now : Time) : Except Error Queue × Registry :=
  let spec := spec.withDefaults
  match spec.validate with
  | .error e => (.error e, r)
  | .ok () =>
    match r.queues.lookup spec.name with
    | some existing =>
      if existing.toQueueSpec ≠ spec then (.error .queueExists, r) else (.ok existing, r)
    | none =>
      let queue : Queue := ⟨spec, now⟩
      (.ok queue, { r with queues := r.queues.insert spec.name queue })

/-- The list of bindings of one exchange is replaced. -/
def setBindings (r : Registry) (exchange : String) (bindings : List Binding) : Registry :=
  { r with bindings := r.bindings.insert exchange bindings }

def bind (r : Registry) (spec : BindingSpec) (now : Time) : Except Error Binding × Registry :=
  if !r.queueExists spec.queue then (.error .queueNotFound, r)
  else
    match r.exchange spec.exchange with
    | .error e => (.error e, r)
    | .ok exchange =>
      match spec.validate exchange.kind with
      | .error e => (.error e, r)
      | .ok () =>
        match (r.bindingsFor spec.exchange).find? (fun b => b.key = spec.key) with
        | some existing => (.ok existing, r)
        | none =>
          let binding : Binding := ⟨spec, now⟩
          (.ok binding, r.setBindings spec.exchange (r.bindingsFor spec.exchange ++ [binding]))

/-- The first binding with the key is cut out of the list. -/
def unbind (r : Registry) (spec : BindingSpec) : Except Error Unit × Registry :=
  match (r.bindingsFor spec.exchange).find? (fun b => b.key = spec.key) with
  | none => (.error .bindingNotFound, r)
  | some _ =>
    (.ok (), r.setBindings spec.exchange
      ((r.bindingsFor spec.exchange).eraseP (fun b => b.key = spec.key)))

/-- The bindings of all exchanges, one exchange after the other. -/
def bindingGroups (r : Registry) : List Binding := (sortedKeys r.bindings).flatMap r.bindingsFor

def queueReferences (r : Registry) (queue : String) : ℕ :=
  r.bindingGroups.countP (fun b => b.queue = queue)

def deleteQueue (r : Registry) (name : String) : Except Error Unit × Registry :=
  match r.queues.lookup name with
  | none => (.error .queueNotFound, r)
  | some _ =>
    if r.queueReferences name > 0 then (.error .queueInUse, r)
    else (.ok (), { r with queues := r.queues.erase name })

/-- The last loop of `Restore` appends every binding to the list of its exchange, unchecked. -/
def restoreBindings (r : Registry) : List Binding → Registry
  | [] => r
  | b :: bs => (r.setBindings b.exchange (r.bindingsFor b.exchange ++ [b])).restoreBindings bs

def restore (r : Registry) (exchanges : List Exchange) (queues : List Queue)
    (bindings : List Binding) : Registry :=
  { r with
    exchanges := insertAll (fun exchange : Exchange => exchange.name) r.exchanges exchanges
    queues := insertAll (fun queue : Queue => queue.name) r.queues queues }.restoreBindings bindings

end Registry
end RabbitmqLite.Broker
