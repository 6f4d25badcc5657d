import RabbitmqLite.Engine.World

/-! # The operations of the engine

Each method of the engine as a program over atomic effects, in the order in
which the source makes them. Metrics and log lines are left out.
-/

namespace RabbitmqLite
open Broker Collections Storage Atomic Retry

/-- An engine with a policy that has passed its check. -/
structure Engine where
  policy : Policy
  schemas : Option (String → List UInt8 → Option String)
  valid : policy.validate = .ok ()

namespace Engine

/-- `schemas` is the validator: the text of the error it returns, if any. -/
def new (retry : Policy) (schemas : Option (String → List UInt8 → Option String)) :
    Except PolicyError Engine :=
  match h : retry.withDefaults.validate with
  | .error e => .error e
  | .ok () => .ok ⟨retry.withDefaults, schemas, h⟩

inductive Error where
  | broker (cause : Broker.Error)
  | store (cause : Storage.Error)
  | transition (cause : TransitionError)
  | schema (cause : String)
  deriving DecidableEq

/-! ## Effects -/

def store (c : Call) : Program c.Reply := Prog.perform (Effect.store c)

def settle (party : Party) (attempt : ℤ) (c : Call) : Program c.Reply :=
  Prog.perform (Effect.settle party attempt c)

def clock : Program Time := Prog.perform Effect.clock

def newID : Program String := Prog.perform Effect.newID

def notify (queues : List String) : Program Unit := Prog.perform (Effect.notify queues)

def recordHistory (event : HistoryEvent) : Program Unit := do
  let _ ← store (.appendHistory event)

/-- The loops that write one event for each message of a batch. -/
def recordEach : List HistoryEvent → Program Unit
  | [] => return ()
  | event :: events => do
    recordHistory event
    recordEach events

/-! ## Failure causes -/

/-- A lease that ran out, or any other error: its text, and whether a `PermanentError`
is in its chain. -/
inductive Cause where
  | failure (text : String) (permanent : Bool)
  | leaseExpired
  deriving DecidableEq

def Cause.text : Cause → String
  | .failure text _ => text
  | .leaseExpired => "lease expired before the consumer acknowledged the message"

def isPermanent : Cause → Bool
  | .failure _ permanent => permanent
  | .leaseExpired => false

def errorKindHandler : String := "handler"
def errorKindPermanent : String := "permanent"
def errorKindExpired : String := "lease_expired"
def errorKindValidation : String := "validation"

def classify (cause : Cause) : String :=
  if cause = .leaseExpired then errorKindExpired
  else if isPermanent cause then errorKindPermanent
  else errorKindHandler

def headerConsumer : String := "x-consumer"
def headerReplayOf : String := "x-replay-of"
def headerDeadLetterID : String := "x-dead-letter-id"

/-! ## Dead letters and failures -/

/-- The first event of a list that marks a failure. -/
def firstFailure (events : List HistoryEvent) : Option HistoryEvent :=
  events.find? (fun event => event.target = .retrying || event.target = .failed)

def firstFailureAt (messageID : String) (fallback : Time) : Program Time := do
  match ← store (.history messageID) with
  | .error _ => return fallback
  | .ok events =>
    match firstFailure events with
    | none => return fallback
    | some event => return event.time

/-- The record `deadLetter` saves, before the store gives it an id. -/
def letterOf (delivery : Delivery) (cause : Cause) (firstFailedAt now : Time) : DeadLetter where
  id := ""
  messageID := delivery.message.id
  queue := delivery.queue
  exchange := delivery.message.exchange
  routingKey := delivery.message.routingKey
  schema := delivery.message.schema
  payload := delivery.message.payload
  headers := delivery.message.headers
  reason := cause.text
  errorKind := classify cause
  attempts := delivery.attempt
  publishedAt := delivery.message.createdAt
  firstFailedAt := firstFailedAt
  deadLetteredAt := now
  replayedAs := ""
  replayedAt := zeroTime
  replayCount := 0

def deadLetter (party : Party) (consumer : String) (delivery : Delivery) (cause : Cause)
    (now : Time) : Program Unit := do
  let firstFailedAt ← firstFailureAt delivery.message.id now
  let id ← newID
  match ← store (.saveDeadLetter (letterOf delivery cause firstFailedAt now) id) with
  | .error _ => return ()
  | .ok () =>
    match ← settle party delivery.attempt
        (.markDeadLettered delivery.message.id cause.text now) with
    | .error _ => return ()
    | .ok () =>
      recordHistory
        ⟨delivery.message.id, delivery.queue, .failed, .deadLettered, consumer, cause.text, now⟩

/-- The randomiser is asked only if the policy has jitter. -/
def nextAttemptAt (policy : Policy) (now : Time) (attempt : ℤ) : Program Time :=
  if policy.jitterFraction = 0 then return policy.nextAttemptAt now attempt 0
  else do
    let drawn ← Prog.perform Effect.float64
    return policy.nextAttemptAt now attempt drawn

def fail (engine : Engine) (party : Party) (consumer : String) (delivery : Delivery)
    (cause : Cause) : Program Unit := do
  let now ← clock
  let retryable := !isPermanent cause && engine.policy.shouldRetry delivery.attempt
  if !retryable then deadLetter party consumer delivery cause now
  else
    let availableAt ← nextAttemptAt engine.policy now delivery.attempt
    match ← settle party delivery.attempt (.scheduleRetry
        { id := delivery.message.id
          attempt := delivery.attempt
          reason := cause.text
          availableAt := availableAt
          now := now }) with
    | .error _ => return ()
    | .ok () =>
      recordHistory
        ⟨delivery.message.id, delivery.queue, .failed, .retrying, consumer, cause.text, now⟩

/-! ## Publishing -/

structure PublishResult where
  exchange : String
  routingKey : String
  messageIDs : List String
  queues : List String
  deriving DecidableEq

def parkRejected (msg : Message) (cause : String) (now : Time) : Program Unit := do
  let id ← newID
  let _ ← store (.saveDeadLetter
    { id := ""
      messageID := msg.id
      queue := msg.queue
      exchange := msg.exchange
      routingKey := msg.routingKey
      schema := msg.schema
      payload := msg.payload
      headers := msg.headers
      reason := cause
      errorKind := errorKindValidation
      attempts := 0
      publishedAt := msg.createdAt
      firstFailedAt := now
      deadLetteredAt := now
      replayedAs := ""
      replayedAt := zeroTime
      replayCount := 0 } id)

/-- A message whose state cannot be changed to failed is parked as it is. -/
def rejected (msg : Message) (now : Time) : Message :=
  match msg.transition .failed now with
  | .error _ => msg
  | .ok msg => msg

def validate (engine : Engine) (msg : Message) (now : Time) : Program (Except Error Unit) :=
  match engine.schemas with
  | none => return .ok ()
  | some schemas =>
    if msg.schema = "" then return .ok ()
    else
      match schemas msg.schema msg.payload.bytes with
      | none => return .ok ()
      | some cause => do
        parkRejected (rejected msg now) cause now
        return .error (.schema cause)

/-- The message of a publication for one queue, before it is checked. -/
def addressed (id : String) (pub : Publication) (queue : Queue) (now : Time) : Message :=
  let msg := { Message.new id pub queue.name now with maxAttempts := queue.maxAttempts }
  if msg.schema = "" then { msg with schema := queue.schema } else msg

theorem addressed_fields (id : String) (pub : Publication) (queue : Queue) (now : Time) :
    (addressed id pub queue now).id = id ∧ (addressed id pub queue now).state = .created ∧
      (addressed id pub queue now).attempts = 0 := by
  unfold addressed
  dsimp only
  split_ifs <;> exact ⟨rfl, rfl, rfl⟩

theorem addressed_payload (id : String) (pub : Publication) (queue : Queue) (now : Time) :
    (addressed id pub queue now).payload = Payload.copied pub.payload := by
  unfold addressed
  dsimp only
  split_ifs <;> rfl

/-- A message that was just created can be queued. -/
theorem transition_of_created {msg : Message} (h : msg.state = .created) (now : Time) :
    msg.transition .queued now = .ok { msg with state := .queued, updatedAt := now } := by
  rw [Message.transition_eq _ rfl, h]
  rfl

def publishLoop (engine : Engine) (pub : Publication) (now : Time) :
    List Queue → List Message → Program (Except Error (List Message))
  | [], messages => return .ok messages
  | queue :: queues, messages => do
    let id ← newID
    let msg := addressed id pub queue now
    match ← validate engine msg now with
    | .error e => return .error e
    | .ok () =>
      match msg.transition .queued now with
      | .error e => return .error (.transition e)
      | .ok msg => publishLoop engine pub now queues (messages ++ [msg])

def publish (engine : Engine) (pub : Publication) : Program (Except Error PublishResult) := do
  match ← Prog.perform (Effect.route pub.exchange pub.routingKey) with
  | .error e => return .error (.broker e)
  | .ok queues =>
    let now ← clock
    match ← publishLoop engine pub now queues [] with
    | .error e => return .error e
    | .ok messages =>
      match ← store (.append messages) with
      | .error e => return .error (.store e)
      | .ok () =>
        recordEach (messages.map (fun msg => ⟨msg.id, msg.queue, .created, .queued, "", "", now⟩))
        notify (messages.map Message.queue)
        return .ok ⟨pub.exchange, pub.routingKey, messages.map Message.id,
          messages.map Message.queue⟩

structure ReplayResult where
  deadLetterID : String
  originalMessageID : String
  messageID : String
  queue : String
  deriving DecidableEq

/-- The message `ReplayDeadLetter` makes of a record, before it is queued. -/
def replayOf (id : String) (record : DeadLetter) (queue : Queue) (now : Time) : Message :=
  let msg := Message.new id ⟨record.exchange, record.routingKey, record.payload, record.headers,
    record.schema⟩ queue.name now
  ({ msg with maxAttempts := queue.maxAttempts }.setHeader
    headerReplayOf record.messageID).setHeader headerDeadLetterID record.id

def replayDeadLetter (id : String) : Program (Except Error ReplayResult) := do
  match ← store (.deadLetter id) with
  | .error e => return .error (.store e)
  | .ok record =>
    match ← Prog.perform (Effect.queue record.queue) with
    | .error e => return .error (.broker e)
    | .ok queue =>
      let now ← clock
      let id ← newID
      match (replayOf id record queue now).transition .queued now with
      | .error e => return .error (.transition e)
      | .ok replay =>
        match ← store (.append [replay]) with
        | .error e => return .error (.store e)
        | .ok () =>
          recordHistory ⟨replay.id, replay.queue, .created, .queued, "",
            "replayed from dead letter " ++ record.id, now⟩
          let _ ← store (.markDeadLetterReplayed record.id replay.id now)
          notify [queue.name]
          return .ok ⟨record.id, record.messageID, replay.id, queue.name⟩

/-! ## Pulling and settling over HTTP

The attempt the client was handed is the last argument of `ack` and `nack`. It
is no argument of the source's methods, and nothing here depends on it. -/

def defaultPullLimit : ℤ := 10
def maxPullLimit : ℤ := 200

structure PullRequest where
  queue : String
  consumer : String
  limit : ℤ
  lease : Duration
  deriving DecidableEq

def PullRequest.withDefaults (r : PullRequest) (visibilityTimeout : Duration) : PullRequest :=
  let limit := if r.limit ≤ 0 then defaultPullLimit else r.limit
  { r with
    limit := if limit > maxPullLimit then maxPullLimit else limit
    lease := if r.lease ≤ 0 then visibilityTimeout else r.lease
    consumer := if r.consumer = "" then "anonymous" else r.consumer }

def pull (req : PullRequest) : Program (Except Error (List Message)) := do
  match ← Prog.perform (Effect.queue req.queue) with
  | .error e => return .error (.broker e)
  | .ok queue =>
    let req := req.withDefaults queue.visibilityTimeout
    let now ← clock
    match ← store (.claim ⟨req.queue, req.consumer, req.limit, req.lease, now⟩) with
    | .error e => return .error (.store e)
    | .ok claimed =>
      recordEach (claimed.map
        (fun msg => ⟨msg.id, msg.queue, .queued, .processing, req.consumer, "", now⟩))
      return .ok claimed

def ack (id : String) (held : ℤ) : Program (Except Error Unit) := do
  match ← store (.message id) with
  | .error e => return .error (.store e)
  | .ok msg =>
    let now ← clock
    match ← settle (.consumer held) msg.attempts (.acknowledge id now) with
    | .error e => return .error (.store e)
    | .ok () =>
      recordHistory ⟨id, msg.queue, .processing, .acknowledged, "", "", now⟩
      return .ok ()

def nack (engine : Engine) (id reason : String) (requeue : Bool) (held : ℤ) :
    Program (Except Error Unit) := do
  match ← store (.message id) with
  | .error e => return .error (.store e)
  | .ok msg =>
    let reason := if reason = "" then "negatively acknowledged by consumer" else reason
    if requeue then
      let now ← clock
      match ← settle (.consumer held) msg.attempts (.release id now) with
      | .error e => return .error (.store e)
      | .ok () =>
        recordHistory ⟨id, msg.queue, .processing, .queued, "", reason, now⟩
        notify [msg.queue]
        return .ok ()
    else
      fail engine (.consumer held) "" ⟨msg, msg.attempts, msg.queue⟩ (.failure reason false)
      notify [msg.queue]
      return .ok ()

/-! ## In-process consumers -/

/-- The party is the consumer on whose behalf the dispatcher claimed. -/
def releaseUndispatched (id : String) (attempt : ℤ) : Program Unit := do
  let now ← clock
  let _ ← settle (.consumer attempt) attempt (.release id now)

/-- A task is refused only by a stopped pool or a cancelled context, and neither is
reported to the caller. -/
def handOff (consumer : ConsumerSpec) (msg : Message) : Program Unit := do
  let delivery : Delivery := ⟨msg, msg.attempts, msg.queue⟩
  let now ← clock
  recordHistory ⟨msg.id, msg.queue, .queued, .processing, consumer.name, "", now⟩
  match ← Prog.perform (Effect.submit consumer.name delivery) with
  | .ok () => return ()
  | .error _ => releaseUndispatched msg.id msg.attempts

def handOffAll (consumer : ConsumerSpec) : List Message → Program Unit
  | [] => return ()
  | msg :: msgs => do
    handOff consumer msg
    handOffAll consumer msgs

/-- One round of the dispatch loop. -/
def claimBatch (consumer : ConsumerSpec) : Program (Except Error ℤ) := do
  match ← Prog.perform (Effect.queue consumer.queue) with
  | .error e => return .error (.broker e)
  | .ok queue =>
    let now ← clock
    match ← store (.claim ⟨consumer.queue, consumer.name, consumer.prefetch,
        queue.visibilityTimeout, now⟩) with
    | .error e => return .error (.store e)
    | .ok messages =>
      handOffAll consumer messages
      return .ok messages.length

def acknowledge (consumer : ConsumerSpec) (delivery : Delivery) : Program Unit := do
  let now ← clock
  match ← settle (.consumer delivery.attempt) delivery.attempt
      (.acknowledge delivery.message.id now) with
  | .error _ => return ()
  | .ok () =>
    recordHistory ⟨delivery.message.id, delivery.queue, .processing, .acknowledged,
      consumer.name, "", now⟩

/-- What `process` does once the handler has returned; `none` is success. -/
def complete (engine : Engine) (consumer : ConsumerSpec) (delivery : Delivery) :
    Option Cause → Program Unit
  | none => acknowledge consumer delivery
  | some cause => fail engine (.consumer delivery.attempt) consumer.name delivery cause

/-- The handler is called between the first reading of the clock and the rest. It gets a pointer
to the message, so `delivery` is what it has left of it. -/
def process (engine : Engine) (consumer : ConsumerSpec) (delivery : Delivery)
    (outcome : Option Cause) : Program Unit := do
  let _ ← clock
  complete engine consumer delivery outcome

/-- A worker takes the next task of its pool, if there is one, and processes it. The handler
makes `edit` of the message; the attempt and the queue of a delivery are values of its own. -/
def workEditing (engine : Engine) (consumer : ConsumerSpec) (outcome : Option Cause)
    (edit : Message → Message) : Program Unit := do
  match ← Prog.perform (Effect.receive consumer.name) with
  | none => return ()
  | some delivery =>
    process engine consumer { delivery with message := edit delivery.message } outcome

/-- A worker with a handler that leaves the message as it is. -/
def work (engine : Engine) (consumer : ConsumerSpec) (outcome : Option Cause) : Program Unit :=
  workEditing engine consumer outcome id

/-! ## Maintenance -/

def reclaimBatchSize : ℤ := 256

def requeueExpired (msg : Message) (now : Time) : Program Bool := do
  match ← settle .reclaim msg.attempts (.release msg.id now) with
  | .error _ => return false
  | .ok () =>
    recordHistory ⟨msg.id, msg.queue, .processing, .queued, "", Cause.leaseExpired.text, now⟩
    return true

/-- The loop over the expired leases; it collects the queues to wake up. -/
def reclaimLoop (engine : Engine) (now : Time) :
    List Message → List String → Program (List String)
  | [], requeued => return requeued
  | msg :: msgs, requeued => do
    if engine.policy.shouldRetry msg.attempts then
      if ← requeueExpired msg now then
        reclaimLoop engine now msgs (requeued ++ [msg.queue])
      else reclaimLoop engine now msgs requeued
    else
      deadLetter .reclaim ((msg.header headerConsumer).getD "") ⟨msg, msg.attempts, msg.queue⟩
        .leaseExpired now
      reclaimLoop engine now msgs requeued

def reclaim (engine : Engine) : Program Unit := do
  let now ← clock
  match ← store (.expiredLeases now reclaimBatchSize) with
  | .error _ => return ()
  | .ok expired =>
    let requeued ← reclaimLoop engine now expired []
    notify requeued

/-! ## The operations together -/

inductive Op where
  | publish (pub : Publication)
  | pull (req : PullRequest)
  | ack (id : String) (held : ℤ)
  | nack (id reason : String) (requeue : Bool) (held : ℤ)
  | claimBatch (consumer : ConsumerSpec)
  | work (consumer : ConsumerSpec) (outcome : Option Cause)
  | reclaim
  | replayDeadLetter (id : String)
  | purge (queue : String)
  | discardDeadLetter (id : String)
  deriving DecidableEq

abbrev Op.Reply : Op → Type
  | .publish _ => Except Error PublishResult
  | .pull _ => Except Error (List Message)
  | .ack _ _ => Except Error Unit
  | .nack _ _ _ _ => Except Error Unit
  | .claimBatch _ => Except Error ℤ
  | .work _ _ => Unit
  | .reclaim => Unit
  | .replayDeadLetter _ => Except Error ReplayResult
  | .purge _ => Except Storage.Error ℤ
  | .discardDeadLetter _ => Except Storage.Error Unit

def program (engine : Engine) : (op : Op) → Program op.Reply
  | .publish pub => engine.publish pub
  | .pull req => pull req
  | .ack id held => ack id held
  | .nack id reason requeue held => engine.nack id reason requeue held
  | .claimBatch consumer => claimBatch consumer
  | .work consumer outcome => engine.work consumer outcome
  | .reclaim => engine.reclaim
  | .replayDeadLetter id => replayDeadLetter id
  | .purge queue => store (.purge queue)
  | .discardDeadLetter id => store (.deleteDeadLetter id)

/-- An operation that runs to completion before anything else happens. -/
def exec (engine : Engine) (env : Env) (op : Op) (w : World) : op.Reply × World :=
  (engine.program op).run (perform env) w

end Engine
end RabbitmqLite
