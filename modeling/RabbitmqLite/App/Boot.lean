import RabbitmqLite.Engine.Topology
import RabbitmqLite.Storage.Sqlite.Driver

/-! # Starting the broker on a SQLite database

A start opens the database, restores the topology into a new registry and then
declares what the configuration lists. It stops at the first error. Only what
matters for the topology is kept of the configuration; the readings of the
registry's clock are given one for each declaration.
-/

namespace RabbitmqLite.App
open Broker Storage Storage.Sqlite

/-! ## The configuration -/

structure ExchangeDeclaration where
  name : String
  kind : String
  durable : Bool
  deriving DecidableEq

structure QueueDeclaration where
  name : String
  durable : Bool
  maxAttempts : ℤ
  visibilityTimeout : Duration
  schema : String
  deriving DecidableEq

structure BindingDeclaration where
  exchange : String
  queue : String
  routingKey : String
  deriving DecidableEq

structure Topology where
  exchanges : List ExchangeDeclaration
  queues : List QueueDeclaration
  bindings : List BindingDeclaration

structure EngineConfig where
  visibilityTimeout : Duration
  maxAttempts : ℤ

structure Config where
  engine : EngineConfig
  topology : Topology

/-- A declaration that leaves a limit open gets the one of the engine. -/
def Config.queueSpec (cfg : Config) (declaration : QueueDeclaration) : QueueSpec where
  name := declaration.name
  durable := declaration.durable
  maxAttempts :=
    if declaration.maxAttempts = 0 then cfg.engine.maxAttempts else declaration.maxAttempts
  visibilityTimeout :=
    if declaration.visibilityTimeout = 0 then cfg.engine.visibilityTimeout
    else declaration.visibilityTimeout
  schema := declaration.schema

def BindingDeclaration.spec (declaration : BindingDeclaration) : BindingSpec :=
  ⟨declaration.exchange, declaration.queue, declaration.routingKey⟩

inductive Error where
  | restore (e : Storage.Error)
  | exchange (name : String) (e : Broker.Error)
  | declareExchange (name : String) (e : Engine.Error)
  | declareQueue (name : String) (e : Engine.Error)
  | bind (exchange queue : String) (e : Engine.Error)
  deriving DecidableEq

/-! ## The engine on its database -/

structure Node where
  registry : Registry
  db : Database

namespace Node

def site (json : JsonMaps) : Engine.Site Node where
  registry := registry
  withRegistry := fun n registry => { n with registry := registry }
  callStore := fun c n => ((call json c n.db).1, { n with db := (call json c n.db).2 })

end Node

/-! ## Declaring the topology -/

inductive Declaration where
  | exchange (declaration : ExchangeDeclaration)
  | queue (declaration : QueueDeclaration)
  | binding (declaration : BindingDeclaration)

/-- The three loops one after the other. -/
def Topology.declarations (topology : Topology) : List Declaration :=
  topology.exchanges.map .exchange ++ topology.queues.map .queue ++ topology.bindings.map .binding

/-- An error is wrapped with the name of what was declared; the result is dropped. -/
def wrapped {α : Type} (wrap : Engine.Error → Error) (outcome : Except Engine.Error α × Node) :
    Except Error Unit × Node :=
  match outcome with
  | (.error e, n) => (.error (wrap e), n)
  | (.ok _, n) => (.ok (), n)

section Start
variable (json : JsonMaps) (cfg : Config)

/-- The body of one of the loops. -/
def declare (now : Time) : Declaration → Node → Except Error Unit × Node
  | .exchange declaration, n =>
    match parseExchangeKind (.ofText declaration.kind) with
    | .error e => (.error (.exchange declaration.name e), n)
    | .ok kind =>
      wrapped (.declareExchange declaration.name)
        ((Node.site json).declareExchange n none ⟨declaration.name, kind, declaration.durable⟩ now)
  | .queue declaration, n =>
    wrapped (.declareQueue declaration.name)
      ((Node.site json).declareQueue n none (cfg.queueSpec declaration) now)
  | .binding declaration, n =>
    wrapped (.bind declaration.exchange declaration.queue)
      ((Node.site json).bind n none declaration.spec now)

def declareLoop : List Declaration → (ℕ → Time) → Node → Except Error Unit × Node
  | [], _, n => (.ok (), n)
  | declaration :: declarations, clock, n =>
    match declare json cfg (clock 0) declaration n with
    | (.error e, n) => (.error e, n)
    | (.ok (), n) => declareLoop declarations (fun i => clock (i + 1)) n

def declareTopology (clock : ℕ → Time) (n : Node) : Except Error Unit × Node :=
  declareLoop json cfg cfg.topology.declarations clock n

/-- A new engine on the opened database. -/
def build (clock : ℕ → Time) (db : Database) : Except Error Unit × Node :=
  let n : Node := ⟨Registry.newRegistry, { db with closed := false }⟩
  match (Node.site json).restore n with
  | .error e => (.error (.restore e), n)
  | .ok n => declareTopology json cfg clock n

end Start
end RabbitmqLite.App
