import RabbitmqLite.Atomic.Contract
import RabbitmqLite.Broker.Declarations
import RabbitmqLite.Engine.Operations

/-! # Topology operations and restarts

The topology lives twice, in the registry and in the store. Each operation
changes the registry first and writes to the store second. A fault is an error
with which the store refuses that write, leaving everything as it is. The
reading of the registry's clock is an argument.
-/

namespace RabbitmqLite.Engine
open Broker Collections Storage Atomic

/-! ## The operations -/

/-- A state with a registry and a store under it. -/
structure Site (τ : Type) where
  registry : τ → Registry
  withRegistry : τ → Registry → τ
  callStore : (c : Call) → τ → c.Reply × τ

namespace Site
variable {τ : Type}

/-- A write to the store, unless it is made to fail. -/
def write (t : τ) (fault : Option Storage.Error) (written : Except Storage.Error Unit × τ) :
    Except Storage.Error Unit × τ :=
  match fault with
  | some e => (.error e, t)
  | none => written

/-- A deletion may find nothing to delete. -/
def ignoreNotFound (written : Except Storage.Error Unit × τ) : Except Storage.Error Unit × τ :=
  match written with
  | (.error .notFound, t) => (.ok (), t)
  | written => written

variable (site : Site τ) (t : τ) (fault : Option Storage.Error)

/-- The registry has answered; what it accepted is written to the store. -/
def inBoth {α : Type} (answer : Except Broker.Error α × Registry)
    (write : α → τ → Except Storage.Error Unit × τ) : Except Error α × τ :=
  match answer with
  | (.error e, registry) => (.error (.broker e), site.withRegistry t registry)
  | (.ok a, registry) =>
    match write a (site.withRegistry t registry) with
    | (.error e, t) => (.error (.store e), t)
    | (.ok (), t) => (.ok a, t)

def declareExchange (spec : ExchangeSpec) (now : Time) : Except Error Exchange × τ :=
  site.inBoth t ((site.registry t).declareExchange spec now) (fun exchange t =>
    if exchange.durable then write t fault (site.callStore (.saveExchange exchange) t)
    else (.ok (), t))

def declareQueue (spec : QueueSpec) (now : Time) : Except Error Queue × τ :=
  site.inBoth t ((site.registry t).declareQueue spec now) (fun queue t =>
    if queue.durable then write t fault (site.callStore (.saveQueue queue) t) else (.ok (), t))

def bind (spec : BindingSpec) (now : Time) : Except Error Binding × τ :=
  site.inBoth t ((site.registry t).bind spec now) (fun binding t =>
    write t fault (site.callStore (.saveBinding binding) t))

def unbind (spec : BindingSpec) : Except Error Unit × τ :=
  site.inBoth t ((site.registry t).unbind spec) (fun _ t =>
    ignoreNotFound (write t fault (site.callStore (.deleteBinding spec) t)))

def deleteQueue (name : String) : Except Error Unit × τ :=
  site.inBoth t ((site.registry t).deleteQueue name) (fun _ t =>
    ignoreNotFound (write t fault (site.callStore (.deleteQueue name) t)))

def restore : Except Storage.Error τ := do
  let exchanges ← (site.callStore .exchanges t).1
  let queues ← (site.callStore .queues t).1
  let bindings ← (site.callStore .bindings t).1
  return site.withRegistry t ((site.registry t).restore exchanges queues bindings)

end Site

/-! ## On the in-memory store -/

def World.site : Site World where
  registry := World.registry
  withRegistry := fun w registry => { w with registry := registry }
  callStore := World.callStore

inductive TopologyOp where
  | declareExchange (spec : ExchangeSpec)
  | declareQueue (spec : QueueSpec)
  | bind (spec : BindingSpec)
  | unbind (spec : BindingSpec)
  | deleteQueue (name : String)
  deriving DecidableEq

/-- What was declared is of no interest to the caller. -/
def withoutResult {α : Type} (outcome : Except Error α × World) : Except Error Unit × World :=
  (outcome.1.map (fun _ => ()), outcome.2)

def TopologyOp.exec (op : TopologyOp) (fault : Option Storage.Error) (now : Time) (w : World) :
    Except Error Unit × World :=
  match op with
  | .declareExchange spec => withoutResult (World.site.declareExchange w fault spec now)
  | .declareQueue spec => withoutResult (World.site.declareQueue w fault spec now)
  | .bind spec => withoutResult (World.site.bind w fault spec now)
  | .unbind spec => World.site.unbind w fault spec
  | .deleteQueue name => World.site.deleteQueue w fault name

/-! ## Restarting -/

/-- A new engine on the same store, before anything is restored. -/
def World.reopened (w : World) : World :=
  { w with registry := Registry.newRegistry, signals := ∅, tasks := fun _ => [] }

def World.restart (w : World) : World :=
  match World.site.restore w.reopened with
  | .error _ => w.reopened
  | .ok w => w

/-! ## Runs -/

/-- What may happen to a running engine: a step of its message operations, a topology
operation whose write does not fail, or a restart, which ends all operations. -/
inductive Request where
  | act (action : Action Op)
  | topology (op : TopologyOp) (now : Time)
  | restart

abbrev Request.Reply : Request → Type
  | .topology _ _ => Except Error Unit
  | _ => Unit

abbrev Server := Config World Effect Effect.Reply

def serve (engine : Engine) (env : Env) : (request : Request) → Server → request.Reply × Server
  | .act action, x => ((), x.act (perform env) (fun op => (engine.program op).void) action)
  | .topology op now, x =>
    let (reply, w) := op.exec none now x.state
    (reply, { x with state := w })
  | .restart, x => ((), { x with state := x.state.restart, threads := [] })

/-- A new engine on an empty store, after some requests. -/
def served (engine : Engine) (env : Env) (requests : List Request) : Server :=
  after (engine.serve env) (Config.init (World.init Registry.newRegistry)) requests

theorem served_snoc (engine : Engine) (env : Env) (requests : List Request) (request : Request) :
    engine.served env (requests ++ [request]) =
      (engine.serve env request (engine.served env requests)).2 := by
  unfold served
  rw [after_append, after_singleton]

end RabbitmqLite.Engine
