import RabbitmqLite.Atomic.Interleaving
import RabbitmqLite.Broker.Registry
import RabbitmqLite.Retry.Policy
import RabbitmqLite.Storage.Memory.Store

/-! # What the engine acts on

The engine talks to the store, the registry, the wake-up channels, the worker
pools, the clock, the id generator and the randomiser. Each of these accesses
is one atomic effect. What comes from outside is given by streams: the n-th
reading of the clock, the n-th generated id and so on.
-/

namespace RabbitmqLite.Engine
open Broker Collections Storage Atomic

structure Delivery where
  message : Message
  attempt : ℤ
  queue : String
  deriving DecidableEq

/-- The settings of a consumer. Its handler appears as the outcome of `process`. -/
structure ConsumerSpec where
  name : String
  queue : String
  concurrency : ℤ
  prefetch : ℤ
  processingTimeout : Duration
  deriving DecidableEq

def ConsumerSpec.withDefaults (s : ConsumerSpec) (visibilityTimeout : Duration) : ConsumerSpec :=
  let concurrency := if s.concurrency < 1 then 1 else s.concurrency
  { s with
    concurrency := concurrency
    prefetch := if s.prefetch < 1 then concurrency else s.prefetch
    processingTimeout :=
      if s.processingTimeout ≤ 0 then visibilityTimeout else s.processingTimeout }

/-- The two ways in which a pool refuses a task. -/
inductive SubmitError where
  | poolStopped
  | cancelled
  deriving DecidableEq, Repr

/-- On whose behalf a message is settled: a consumer that was handed some attempt of
it, or the lease reclaimer. No store call carries this. -/
inductive Party where
  | consumer (held : ℤ)
  | reclaim
  deriving DecidableEq, Repr

/-- The atomic effects. A call that settles a leased message stands apart, with its
party and the attempt the engine took its decision for. -/
inductive Effect where
  | store (c : Call)
  | settle (party : Party) (attempt : ℤ) (c : Call)
  | clock
  | newID
  | float64
  | route (exchange routingKey : String)
  | queue (name : String)
  | notify (queues : List String)
  | submit (consumer : String) (delivery : Delivery)
  | receive (consumer : String)
  deriving DecidableEq

abbrev Effect.Reply : Effect → Type
  | .store c => c.Reply
  | .settle _ _ c => c.Reply
  | .clock => Time
  | .newID => String
  | .float64 => ℚ
  | .route _ _ => Except Broker.Error (List Queue)
  | .queue _ => Except Broker.Error Queue
  | .notify _ => Unit
  | .submit _ _ => Except SubmitError Unit
  | .receive _ => Option Delivery

instance (e : Effect) : DecidableEq e.Reply := by
  cases e <;> infer_instance

/-- Everything that comes from outside. -/
structure Env where
  clock : ℕ → Time
  newID : ℕ → String
  float64 : ℕ → ℚ
  submit : ℕ → Option SubmitError

/-- `signals` holds, for every queue with a wake-up channel, whether there is a token in
it; `tasks` the deliveries a consumer's pool has accepted and not started. The counters
say how much of each stream is used up. -/
structure World where
  store : Memory.Store
  registry : Registry
  signals : Map String Bool
  tasks : String → List Delivery
  ticks : ℕ
  ids : ℕ
  draws : ℕ
  submits : ℕ

/-- An engine that was just started on an empty store. -/
def World.init (registry : Registry) : World where
  store := Memory.Store.new
  registry := registry
  signals := ∅
  tasks := fun _ => []
  ticks := 0
  ids := 0
  draws := 0
  submits := 0

/-- Put a token into the channel of a queue that has one, unless it is there already. -/
def signal (signals : Map String Bool) (queue : String) : Map String Bool :=
  match signals.lookup queue with
  | none => signals
  | some _ => signals.insert queue true

def World.callStore (c : Call) (w : World) : c.Reply × World :=
  ((Memory.exec c w.store).1, { w with store := (Memory.exec c w.store).2 })

def perform (env : Env) : (e : Effect) → World → e.Reply × World
  | .store c, w => w.callStore c
  | .settle _ _ c, w => w.callStore c
  | .clock, w => (env.clock w.ticks, { w with ticks := w.ticks + 1 })
  | .newID, w => (env.newID w.ids, { w with ids := w.ids + 1 })
  | .float64, w => (env.float64 w.draws, { w with draws := w.draws + 1 })
  | .route exchange routingKey, w => (w.registry.route exchange routingKey, w)
  | .queue name, w => (w.registry.queue name, w)
  | .notify queues, w => ((), { w with signals := queues.foldl signal w.signals })
  | .submit consumer delivery, w =>
    match env.submit w.submits with
    | some e => (.error e, { w with submits := w.submits + 1 })
    | none =>
      (.ok (), { w with
        submits := w.submits + 1
        tasks := Function.update w.tasks consumer (w.tasks consumer ++ [delivery]) })
  | .receive consumer, w =>
    match w.tasks consumer with
    | [] => (none, w)
    | delivery :: rest =>
      (some delivery, { w with tasks := Function.update w.tasks consumer rest })

def stateIn (s : Memory.Store) (id : String) : Option State :=
  (s.messages.lookup id).map (fun e => e.msg.state)

/-- The call of the store an effect makes, if it makes one. -/
def Effect.call? : Effect → Option Call
  | .store c => some c
  | .settle _ _ c => some c
  | _ => none

theorem perform_store (env : Env) (e : Effect) (w : World) :
    (perform env e w).2.store =
      match e.call? with
      | some c => (Memory.exec c w.store).2
      | none => w.store := by
  cases e with
  | submit | receive =>
    simp only [perform, Effect.call?]
    split <;> rfl
  | _ => rfl

theorem perform_registry (env : Env) (e : Effect) (w : World) :
    (perform env e w).2.registry = w.registry := by
  cases e with
  | submit | receive =>
    simp only [perform]
    split <;> rfl
  | _ => rfl

theorem perform_ids (env : Env) (e : Effect) (w : World) :
    (perform env e w).2.ids = if e = .newID then w.ids + 1 else w.ids := by
  cases e with
  | submit | receive =>
    simp only [perform]
    split <;> rfl
  | _ => rfl

theorem perform_ticks (env : Env) (e : Effect) (w : World) :
    (perform env e w).2.ticks = if e = .clock then w.ticks + 1 else w.ticks := by
  cases e with
  | submit | receive =>
    simp only [perform]
    split <;> rfl
  | _ => rfl

abbrev Program := Prog Effect Effect.Reply

abbrev EngineEvent := Event Effect Effect.Reply

end RabbitmqLite.Engine
