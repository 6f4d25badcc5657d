import RabbitmqLite.Atomic.Thread
import RabbitmqLite.Engine.Operations

/-! # Consumers at run time

A consumer is a dispatch loop and a pool of workers, connected by a channel of
bounded capacity, and a context that ends both. Each of these goroutines is a
program counter; one step of it is one access to something the others can see.
The operations of the engine run beside them.
-/

namespace RabbitmqLite.Engine
open Broker Collections Storage Atomic

/-- What the engine runs on: how an effect is performed, and the wake-up channels, which
hold one token at most. -/
structure Host (σ : Type) where
  perform : (e : Effect) → σ → e.Reply × σ
  openSignal : String → σ → σ
  takeSignal : String → σ → Option σ

/-- The channel of a queue is made when it is first asked for. -/
def World.openSignal (queue : String) (w : World) : World :=
  match w.signals.lookup queue with
  | some _ => w
  | none => { w with signals := w.signals.insert queue false }

def World.takeSignal (queue : String) (w : World) : Option World :=
  if w.signals.lookup queue = some true then
    some { w with signals := w.signals.insert queue false }
  else none

/-- The engine on the in-memory driver. -/
def memoryHost (env : Env) : Host World := ⟨perform env, World.openSignal, World.takeSignal⟩

/-- A message a claim has returned, with its number among all the messages returned to the
consumer. -/
abbrev Ticket := Message × ℕ

def Ticket.delivery (t : Ticket) : Delivery := ⟨t.1, t.1.attempts, t.1.queue⟩

/-! ## The goroutines of a consumer -/

/-- Where a dispatch loop stands. In a batch, the first ticket is the one being handed off. -/
inductive Loop where
  | start
  | check
  | lookup
  | clock (lease : Duration)
  | claim (lease : Duration) (now : Time)
  | refused
  | stamp (t : Ticket) (rest : List Ticket)
  | record (t : Ticket) (rest : List Ticket) (now : Time)
  | submit (t : Ticket) (rest : List Ticket)
  | count (t : Ticket) (rest : List Ticket)
  | select (t : Ticket) (rest : List Ticket)
  | uncount (t : Ticket) (rest : List Ticket)
  | undo (t : Ticket) (rest : List Ticket)
  | release (t : Ticket) (rest : List Ticket) (now : Time)
  | wait
  | exited
  | panicked
  deriving DecidableEq

/-- Where a loop goes on with the rest of a batch. -/
def Loop.proceed : List Ticket → Loop
  | [] => .check
  | t :: rest => .stamp t rest

/-- Where a loop goes on with what a claim has returned. -/
def Loop.took : List Ticket → Loop
  | [] => .wait
  | t :: rest => .stamp t rest

/-- The cases of the two `select` statements of the loop. -/
inductive Branch where
  | send
  | done
  | signal
  | timer
  deriving DecidableEq, Repr

abbrev EngineThread := Thread Effect Effect.Reply

/-- Where a worker stands. -/
inductive Worker where
  | idle
  | received (t : Ticket)
  | counted (t : Ticket)
  | begun (t : Ticket)
  | handling (t : Ticket)
  | completing (t : Ticket) (thread : EngineThread)
  | exited

/-- Where `Consumer.Stop` stands. -/
inductive Stop where
  | unasked
  | awaiting
  | marking
  | closing
  | draining
  | returned
  deriving DecidableEq, Repr

structure Pool where
  tasks : List Ticket
  stopped : Bool
  closed : Bool
  queued : ℤ
  inFlight : ℤ

/-- The last five fields are a record of what has happened: the messages the claims have
returned, the tickets `process` was called for, the handler was called for, and that were given
back to the queue, and whether the loop has taken a wake-up token or given a message back since
it last found the queue empty. -/
structure Consumer where
  spec : ConsumerSpec
  registered : Bool
  cancelled : Bool
  loop : Loop
  pool : Pool
  workers : List Worker
  stopping : Stop
  claimed : List Message
  started : List Ticket
  invoked : List Ticket
  released : List Ticket
  owing : Bool

namespace Consumer

/-- A consumer that was just subscribed, with its settings filled in. -/
def new (spec : ConsumerSpec) : Consumer where
  spec := spec
  registered := true
  cancelled := false
  loop := .start
  pool := ⟨[], false, false, 0, 0⟩
  workers := List.replicate spec.concurrency.toNat .idle
  stopping := .unasked
  claimed := []
  started := []
  invoked := []
  released := []
  owing := false

section Steps
variable {σ : Type} (host : Host σ) (engine : Engine)

/-- One step of the dispatch loop. A `select` takes the given case if it is ready. -/
def dispatch (branch : Branch) (c : Consumer) (w : σ) : Consumer × σ :=
  match c.loop with
  | .start => ({ c with loop := .check }, host.openSignal c.spec.queue w)
  | .check =>
    if c.cancelled then ({ c with loop := .exited }, w) else ({ c with loop := .lookup }, w)
  | .lookup =>
    match host.perform (.queue c.spec.queue) w with
    | (.error _, w) => ({ c with loop := .refused }, w)
    | (.ok queue, w) => ({ c with loop := .clock queue.visibilityTimeout }, w)
  | .clock lease =>
    match host.perform .clock w with
    | (now, w) => ({ c with loop := .claim lease now }, w)
  | .claim lease now =>
    match host.perform (.store
      (.claim ⟨c.spec.queue, c.spec.name, c.spec.prefetch, lease, now⟩)) w with
    | (.error _, w) => ({ c with loop := .refused }, w)
    | (.ok msgs, w) =>
      ({ c with
          loop := .took (msgs.zipIdx c.claimed.length)
          claimed := c.claimed ++ msgs
          owing := c.owing && !msgs.isEmpty }, w)
  | .refused =>
    if c.cancelled then ({ c with loop := .exited }, w) else ({ c with loop := .wait }, w)
  | .stamp t rest =>
    match host.perform .clock w with
    | (now, w) => ({ c with loop := .record t rest now }, w)
  | .record t rest now =>
    match host.perform (.store (.appendHistory
      ⟨t.1.id, t.1.queue, .queued, .processing, c.spec.name, "", now⟩)) w with
    | (_, w) => ({ c with loop := .submit t rest }, w)
  | .submit t rest =>
    if c.pool.stopped then ({ c with loop := .undo t rest }, w)
    else ({ c with loop := .count t rest }, w)
  | .count t rest =>
    ({ c with loop := .select t rest, pool := { c.pool with queued := c.pool.queued + 1 } }, w)
  | .select t rest =>
    match branch with
    | .send =>
      if c.pool.closed then ({ c with loop := .panicked }, w)
      else if (c.pool.tasks.length : ℤ) < c.spec.prefetch then
        ({ c with
            loop := .proceed rest
            pool := { c.pool with tasks := c.pool.tasks ++ [t] } }, w)
      else (c, w)
    | .done => if c.cancelled then ({ c with loop := .uncount t rest }, w) else (c, w)
    | _ => (c, w)
  | .uncount t rest =>
    ({ c with loop := .undo t rest, pool := { c.pool with queued := c.pool.queued - 1 } }, w)
  | .undo t rest =>
    match host.perform .clock w with
    | (now, w) => ({ c with loop := .release t rest now }, w)
  | .release t rest now =>
    match host.perform (.settle (.consumer t.1.attempts) t.1.attempts (.release t.1.id now)) w with
    | (.error _, w) => ({ c with loop := .proceed rest }, w)
    | (.ok _, w) =>
      ({ c with loop := .proceed rest, released := c.released ++ [t], owing := true }, w)
  | .wait =>
    match branch with
    | .done => if c.cancelled then ({ c with loop := .check }, w) else (c, w)
    | .signal =>
      match host.takeSignal c.spec.queue w with
      | some w => ({ c with loop := .check, owing := true }, w)
      | none => (c, w)
    | .timer => ({ c with loop := .check }, w)
    | .send => (c, w)
  | .exited => (c, w)
  | .panicked => (c, w)

def setWorker (c : Consumer) (i : ℕ) (worker : Worker) : Consumer :=
  { c with workers := c.workers.set i worker }

/-- One step of the i-th worker. The outcome is what the handler returns. -/
def work (i : ℕ) (outcome : Option Cause) (c : Consumer) (w : σ) : Consumer × σ :=
  match c.workers[i]? with
  | none => (c, w)
  | some .idle =>
    match c.pool.tasks with
    | t :: rest => ({ c with pool := { c.pool with tasks := rest } }.setWorker i (.received t), w)
    | [] => if c.pool.closed then (c.setWorker i .exited, w) else (c, w)
  | some (.received t) =>
    ({ c with pool := { c.pool with queued := c.pool.queued - 1 } }.setWorker i (.counted t), w)
  | some (.counted t) =>
    ({ c with
        pool := { c.pool with inFlight := c.pool.inFlight + 1 }
        started := c.started ++ [t] }.setWorker i (.begun t), w)
  | some (.begun t) =>
    match host.perform .clock w with
    | (_, w) => ({ c with invoked := c.invoked ++ [t] }.setWorker i (.handling t), w)
  | some (.handling t) =>
    (c.setWorker i (.completing t (.start (complete engine c.spec t.delivery outcome))), w)
  | some (.completing t thread) =>
    if thread.finished then
      ({ c with pool := { c.pool with inFlight := c.pool.inFlight - 1 } }.setWorker i .idle, w)
    else
      match thread.step host.perform w with
      | (thread, w) => (c.setWorker i (.completing t thread), w)
  | some .exited => (c, w)

/-- One step of `Consumer.Stop`; only the first call gets past the `sync.Once`. -/
def stop (c : Consumer) : Consumer :=
  match c.stopping with
  | .unasked => { c with stopping := .awaiting, cancelled := true }
  | .awaiting => if c.loop = .exited then { c with stopping := .marking } else c
  | .marking => { c with stopping := .closing, pool := { c.pool with stopped := true } }
  | .closing => { c with stopping := .draining, pool := { c.pool with closed := true } }
  | .draining =>
    if c.workers.all (fun worker => match worker with | .exited => true | _ => false) then
      { c with stopping := .returned }
    else c
  | .returned => c

/-- The moves of one consumer. -/
inductive Move where
  | unsubscribe
  | cancel
  | stop
  | dispatch (branch : Branch)
  | work (i : ℕ) (outcome : Option Cause)
  deriving DecidableEq

def move : Move → Consumer → σ → Consumer × σ
  | .unsubscribe, c, w => ({ c with registered := false }, w)
  | .cancel, c, w => ({ c with cancelled := true }, w)
  | .stop, c, w => (c.stop, w)
  | .dispatch branch, c, w => c.dispatch host branch w
  | .work i outcome, c, w => c.work host engine i outcome w

end Steps
end Consumer

/-! ## The whole runtime -/

/-- The engine's consumers and the operations that are under way. -/
structure Runtime (σ : Type) where
  world : σ
  threads : List EngineThread
  consumers : List Consumer

/-- The dispatch loop and the workers are goroutines of the consumers, not operations. -/
def Op.requested : Op → Bool
  | .claimBatch _ => false
  | .work _ _ => false
  | _ => true

inductive Act where
  | start (op : Op)
  | step (i : ℕ)
  | subscribe (spec : ConsumerSpec)
  | move (i : ℕ) (m : Consumer.Move)
  deriving DecidableEq

namespace Runtime
variable {σ : Type} (host : Host σ) (engine : Engine)

def init (w : σ) : Runtime σ := ⟨w, [], []⟩

def subscribe (r : Runtime σ) (spec : ConsumerSpec) : Runtime σ :=
  match host.perform (.queue spec.queue) r.world with
  | (.error _, w) => { r with world := w }
  | (.ok queue, w) =>
    let spec := spec.withDefaults queue.visibilityTimeout
    if r.consumers.any (fun c => c.registered && c.spec.name = spec.name) then
      { r with world := w }
    else { r with world := w, consumers := r.consumers ++ [Consumer.new spec] }

def act (r : Runtime σ) : Act → Runtime σ
  | .start op =>
    if op.requested then { r with threads := r.threads ++ [.start (engine.program op).void] } else r
  | .step i =>
    match r.threads[i]? with
    | none => r
    | some t =>
      { r with
        world := (t.step host.perform r.world).2
        threads := r.threads.set i (t.step host.perform r.world).1 }
  | .subscribe spec => r.subscribe host spec
  | .move i m =>
    match r.consumers[i]? with
    | none => r
    | some c =>
      { r with
        world := (c.move host engine m r.world).2
        consumers := r.consumers.set i (c.move host engine m r.world).1 }

/-- The runtime as a machine without replies. -/
def exec (a : Act) (r : Runtime σ) : Unit × Runtime σ := ((), r.act host engine a)

/-- The runtime after a list of actions, from a world without consumers. -/
def ran (w : σ) (acts : List Act) : Runtime σ := after (exec host engine) (init w) acts

/-- What holds at first and is kept by every action that meets the condition holds after a run
of such actions. -/
theorem ran_rule {cond : Runtime σ → Act → Prop} {I : Runtime σ → Prop}
    (hstep : ∀ r a, cond r a → I r → I (r.act host engine a)) {w : σ} (hinit : I (init w))
    {acts : List Act} (h : StepsMeet (exec host engine) cond (init w) acts) :
    I (ran host engine w acts) := by
  exact @run_rule _ _ _ (exec host engine) cond (fun r _ => I r) (fun r _ a => hstep r a) acts
    (init w) [] h hinit

end Runtime
end RabbitmqLite.Engine
