import RabbitmqLite.Broker.Topology

/-! # The store interface

The records a store keeps besides messages, the errors it answers with, and
the calls of the `Store` interface. Every driver is a function from a call and
a store to a reply and a store; the type of the reply is fixed by the call.
-/

namespace RabbitmqLite.Storage
open Broker

/-- The errors of the two drivers. `makeSlice` is the run-time panic of `make`
on a negative capacity; that a capacity can also be too large for the memory
there is, is a limit of resources, and left out. `notNull` and `corrupt` are a
payload the table refuses and a column that does not decode. -/
inductive Error where
  | notFound
  | conflict
  | closed
  | state (messageID : String) (expected actual : State)
  | transition (cause : TransitionError)
  | makeSlice
  | notNull
  | corrupt
  deriving DecidableEq, Repr

structure ClaimRequest where
  queue : String
  consumer : String
  limit : ℤ
  lease : Duration
  now : Time
  deriving DecidableEq

structure RetryRequest where
  id : String
  attempt : ℤ
  reason : String
  availableAt : Time
  now : Time
  deriving DecidableEq

structure Depth where
  ready : ℤ
  inFlight : ℤ
  scheduled : ℤ
  total : ℤ
  deriving DecidableEq, Repr

structure DeadLetter where
  id : String
  messageID : String
  queue : String
  exchange : String
  routingKey : String
  schema : String
  payload : Payload
  headers : Headers
  reason : String
  errorKind : String
  attempts : ℤ
  publishedAt : Time
  firstFailedAt : Time
  deadLetteredAt : Time
  replayedAs : String
  replayedAt : Time
  replayCount : ℤ
  deriving DecidableEq

structure HistoryEvent where
  messageID : String
  queue : String
  source : State
  target : State
  consumer : String
  detail : String
  time : Time
  deriving DecidableEq

/-- The message fields a dead letter preserves, under the message's own id. -/
def DeadLetter.content (d : DeadLetter) : Content where
  id := d.messageID
  queue := d.queue
  exchange := d.exchange
  routingKey := d.routingKey
  schema := d.schema
  payload := d.payload
  headers := d.headers

def defaultPageSize : ℤ := 50
def maxPageSize : ℤ := 500

/-- Which dead letters are listed: those of a queue, or all if no queue is named. -/
structure DeadLetterFilter where
  queue : String
  limit : ℤ
  offset : ℤ
  deriving DecidableEq

def DeadLetterFilter.normalise (filter : DeadLetterFilter) : DeadLetterFilter where
  queue := filter.queue
  limit :=
    if filter.limit ≤ 0 ∨ filter.limit > maxPageSize then defaultPageSize else filter.limit
  offset := if filter.offset < 0 then 0 else filter.offset

/-- The methods of the store interface. A dead letter saved without an id gets
the identifier the generator returns next, which the call carries. The two listings
of dead letters only read and stand apart, as functions of each driver. -/
inductive Call where
  | saveExchange (exchange : Exchange)
  | exchanges
  | saveQueue (queue : Queue)
  | queues
  | deleteQueue (name : String)
  | saveBinding (binding : Binding)
  | bindings
  | deleteBinding (spec : BindingSpec)
  | append (messages : List Message)
  | message (id : String)
  | claim (req : ClaimRequest)
  | acknowledge (id : String) (now : Time)
  | scheduleRetry (req : RetryRequest)
  | release (id : String) (now : Time)
  | markDeadLettered (id reason : String) (now : Time)
  | expiredLeases (now : Time) (limit : ℤ)
  | depth (queue : String)
  | purge (queue : String)
  | saveDeadLetter (entry : DeadLetter) (newID : String)
  | deadLetter (id : String)
  | markDeadLetterReplayed (id replayedAs : String) (now : Time)
  | deleteDeadLetter (id : String)
  | appendHistory (event : HistoryEvent)
  | history (messageID : String)
  | close
  deriving DecidableEq

abbrev Call.Reply : Call → Type
  | .exchanges => Except Error (List Exchange)
  | .queues => Except Error (List Queue)
  | .bindings => Except Error (List Binding)
  | .message _ => Except Error Message
  | .claim _ => Except Error (List Message)
  | .expiredLeases _ _ => Except Error (List Message)
  | .depth _ => Except Error Depth
  | .purge _ => Except Error ℤ
  | .deadLetter _ => Except Error DeadLetter
  | .history _ => Except Error (List HistoryEvent)
  | _ => Except Error Unit

instance (c : Call) : DecidableEq c.Reply := by
  cases c <;> infer_instance

/-- The reply that reports an error. -/
def Call.refuse (e : Error) : (c : Call) → c.Reply
  | .saveExchange _ | .exchanges | .saveQueue _ | .queues | .deleteQueue _ | .saveBinding _
  | .bindings | .deleteBinding _ | .append _ | .message _ | .claim _ | .acknowledge _ _
  | .scheduleRetry _ | .release _ _ | .markDeadLettered _ _ _ | .expiredLeases _ _ | .depth _
  | .purge _ | .saveDeadLetter _ _ | .deadLetter _ | .markDeadLetterReplayed _ _ _
  | .deleteDeadLetter _ | .appendHistory _ | .history _ | .close => .error e

def Call.appendedIds : Call → List String
  | .append msgs => msgs.map Message.id
  | _ => []

/-- The ids of all messages a run tries to append, in order. -/
def appendedIds (cs : List Call) : List String := cs.flatMap Call.appendedIds

/-- The part of the interface that serves the messages of declared queues. -/
inductive MessageCall where
  | saveQueue (queue : Queue)
  | append (messages : List Message)
  | message (id : String)
  | claim (req : ClaimRequest)
  | acknowledge (id : String) (now : Time)
  | scheduleRetry (req : RetryRequest)
  | release (id : String) (now : Time)
  | markDeadLettered (id reason : String) (now : Time)
  | expiredLeases (now : Time) (limit : ℤ)
  | depth (queue : String)
  | purge (queue : String)
  deriving DecidableEq

abbrev MessageCall.toCall : MessageCall → Call
  | .saveQueue queue => .saveQueue queue
  | .append msgs => .append msgs
  | .message id => .message id
  | .claim req => .claim req
  | .acknowledge id now => .acknowledge id now
  | .scheduleRetry req => .scheduleRetry req
  | .release id now => .release id now
  | .markDeadLettered id reason now => .markDeadLettered id reason now
  | .expiredLeases now limit => .expiredLeases now limit
  | .depth queue => .depth queue
  | .purge queue => .purge queue

abbrev MessageCall.Reply (c : MessageCall) : Type := c.toCall.Reply

/-- The messages a call tries to append. -/
def MessageCall.appended : MessageCall → List Message
  | .append msgs => msgs
  | _ => []

/-- The ids appended to one queue along a run, in append order. -/
def appendOrderOf (cs : List MessageCall) (queue : String) : List String :=
  ((cs.flatMap MessageCall.appended).filter (fun msg => msg.queue = queue)).map Message.id

end RabbitmqLite.Storage
