import RabbitmqLite.Storage.Interface
import RabbitmqLite.Collections.FiniteMap

/-! # The in-memory driver

The store is a record of Go maps behind one lock, so each method is a function
from a store to a reply and a store. A record behind a pointer is changed by
inserting the changed record under the same key. The per-queue index `order`
and the counter `settled` are read with the zero value for a missing key.
-/

namespace RabbitmqLite.Storage.Memory
open Broker Collections

/-- A stored message with its lease; the zero lease means that there is none. -/
structure Record where
  msg : Message
  lease : Time
  consumer : String
  deriving DecidableEq

abbrev Messages := Map String Record

def compactionThreshold : ℤ := 64

structure Store where
  closed : Bool
  exchanges : Map String Exchange
  queues : Map String Queue
  bindings : Map String Binding
  messages : Messages
  order : String → List String
  settled : String → ℤ
  deadLetters : Map String DeadLetter
  deadOrder : List String
  history : String → List HistoryEvent

abbrev Outcome (α : Type) := Except Error α × Store

/-- The record of a message nobody holds: no lease and no consumer. -/
def unleased (msg : Message) : Record := ⟨msg, zeroTime, ""⟩

def claimable (msg : Message) (now : Time) : Bool :=
  match msg.state with
  | .queued | .retrying => !decide (msg.availableAt > now)
  | _ => false

def isSettled (messages : Messages) (id : String) : Bool :=
  match messages.lookup id with
  | none => true
  | some entry => entry.msg.state.terminal

/-- Take a claimable record over for a consumer. On failure the record is
returned as far as its transitions got. -/
def lease (req : ClaimRequest) (entry : Record) : Except (Error × Record) Record :=
  let requeued :=
    if entry.msg.state = .retrying then entry.msg.transition .queued req.now else .ok entry.msg
  match requeued with
  | .error e => .error (.transition e, entry)
  | .ok msg =>
    match msg.transition .processing req.now with
    | .error e => .error (.transition e, { entry with msg := msg })
    | .ok msg =>
      .ok ⟨{ msg with attempts := msg.attempts + 1 }, req.now + req.lease, req.consumer⟩

/-- The loop of `Claim` over the index of the queue. -/
def claimLoop (req : ClaimRequest) :
    List String → Messages → List Message → Except Error (List Message) × Messages
  | [], messages, claimed => (.ok claimed, messages)
  | id :: ids, messages, claimed =>
    if (claimed.length : ℤ) ≥ req.limit then (.ok claimed, messages)
    else
      match messages.lookup id with
      | none => claimLoop req ids messages claimed
      | some entry =>
        if !claimable entry.msg req.now then claimLoop req ids messages claimed
        else
          match lease req entry with
          | .error (e, entry) => (.error e, messages.insert id entry)
          | .ok entry => claimLoop req ids (messages.insert id entry) (claimed ++ [entry.msg])

/-- The state of the loop of `Purge`: kept ids, surviving messages, count. -/
def purgeLoop : List String → Messages → List String → ℤ → List String × Messages × ℤ
  | [], messages, remaining, purged => (remaining, messages, purged)
  | id :: ids, messages, remaining, purged =>
    match messages.lookup id with
    | none => purgeLoop ids messages remaining purged
    | some entry =>
      if entry.msg.state.terminal then purgeLoop ids messages (remaining ++ [id]) purged
      else purgeLoop ids (messages.erase id) remaining (purged + 1)

/-- One round of the counting loop of `Depth`, by the state of the message. -/
def Depth.count (depth : Depth) : State → Depth
  | .queued => { depth with ready := depth.ready + 1 }
  | .processing => { depth with inFlight := depth.inFlight + 1 }
  | .retrying | .failed => { depth with scheduled := depth.scheduled + 1 }
  | _ => depth

def depthLoop (messages : Messages) : List String → Depth → Depth
  | [], depth => depth
  | id :: ids, depth =>
    match messages.lookup id with
    | none => depthLoop messages ids depth
    | some entry => depthLoop messages ids (Depth.count depth entry.msg.state)

def Depth.withTotal (depth : Depth) : Depth :=
  { depth with total := depth.ready + depth.inFlight + depth.scheduled }

def leaseExpired (entry : Record) (now : Time) : Bool :=
  !(decide (entry.msg.state ≠ .processing) || decide (entry.lease = zeroTime) ||
    decide (entry.lease > now))

/-- All expired leases in the order of their ids, the keys they are stored under. -/
def expired (messages : Messages) (now : Time) : List Message :=
  (sortedKeys messages).filterMap (fun id =>
    match messages.lookup id with
    | none => none
    | some entry => if leaseExpired entry now then some entry.msg else none)

/-- The cut `ExpiredLeases` makes; no positive limit means no cut. -/
def limited {α : Type} (limit : ℤ) (found : List α) : List α :=
  if limit > 0 ∧ (found.length : ℤ) > limit then found.take limit.toNat else found

/-- The loop of `DeadLetters` over the ids, newest first. -/
def listLoop (filter : DeadLetterFilter) (deadLetters : Map String DeadLetter) :
    List String → ℤ → List DeadLetter → List DeadLetter
  | [], _, matched => matched
  | id :: ids, skipped, matched =>
    match deadLetters.lookup id with
    | none => listLoop filter deadLetters ids skipped matched
    | some entry =>
      if filter.queue ≠ "" ∧ entry.queue ≠ filter.queue then
        listLoop filter deadLetters ids skipped matched
      else if skipped < filter.offset then listLoop filter deadLetters ids (skipped + 1) matched
      else if (matched.length : ℤ) ≥ filter.limit then matched
      else listLoop filter deadLetters ids skipped (matched ++ [entry])

namespace Store

/-- The empty store of `New`. -/
def new : Store where
  closed := false
  exchanges := ∅
  queues := ∅
  bindings := ∅
  messages := ∅
  order := fun _ => []
  settled := fun _ => 0
  deadLetters := ∅
  deadOrder := []
  history := fun _ => []

def close (s : Store) : Outcome Unit := (.ok (), { s with closed := true })

/-- The guard of every method that refuses to write to a closed store. -/
def unlessClosed {α : Type} (s : Store) (outcome : Outcome α) : Outcome α :=
  if s.closed then (.error .closed, s) else outcome

def saveExchange (s : Store) (exchange : Exchange) : Outcome Unit :=
  s.unlessClosed (.ok (), { s with exchanges := s.exchanges.insert exchange.name exchange })

def saveQueue (s : Store) (queue : Queue) : Outcome Unit :=
  s.unlessClosed (.ok (), { s with queues := s.queues.insert queue.name queue })

def saveBinding (s : Store) (binding : Binding) : Outcome Unit :=
  s.unlessClosed (.ok (), { s with bindings := s.bindings.insert binding.key binding })

/-- The values of a map in the order of their keys, under which they are stored. -/
def sortedValues {β : Type} (m : Map String β) : List β := (sortedKeys m).filterMap m.lookup

def deleteBinding (s : Store) (spec : BindingSpec) : Outcome Unit :=
  match s.bindings.lookup spec.key with
  | none => (.error .notFound, s)
  | some _ => (.ok (), { s with bindings := s.bindings.erase spec.key })

def deleteQueue (s : Store) (name : String) : Outcome Unit :=
  match s.queues.lookup name with
  | none => (.error .notFound, s)
  | some _ =>
    (.ok (), { s with
      queues := s.queues.erase name
      messages := eraseAll s.messages (s.order name)
      order := Function.update s.order name []
      settled := Function.update s.settled name 0 })

/-- The second loop of `Append` stores a clone of every message under its id, without a lease.
The clones that the store hands out later are therefore the stored messages themselves. -/
def storeAll (messages : Messages) (msgs : List Message) : Messages :=
  insertAll (fun entry : Record => entry.msg.id) messages (msgs.map (fun msg => unleased msg.clone))

/-- The same loop puts the ids, in list order, at the end of the index of their queue. -/
def appendOrder (order : String → List String) : List Message → String → List String
  | [] => order
  | msg :: msgs =>
    appendOrder (Function.update order msg.queue (order msg.queue ++ [msg.id])) msgs

def append (s : Store) (msgs : List Message) : Outcome Unit :=
  s.unlessClosed
    (if msgs.any (fun msg => (s.messages.lookup msg.id).isSome) then (.error .conflict, s)
     else
      (.ok (), { s with
        messages := storeAll s.messages msgs
        order := appendOrder s.order msgs }))

def message (s : Store) (id : String) : Outcome Message :=
  match s.messages.lookup id with
  | none => (.error .notFound, s)
  | some entry => (.ok entry.msg, s)

/-- The head trim of `compactLocked`: drop the settled ids at the front. -/
def trimHead (s : Store) (queue : String) : Store :=
  let index := s.order queue
  let head := (index.takeWhile (isSettled s.messages)).length
  if head > 0 then
    { s with
      order := Function.update s.order queue (index.drop head)
      settled := Function.update s.settled queue (max (s.settled queue - head) 0) }
  else s

/-- The capacity the threshold rebuild asks `make` for. -/
def retainedCapacity (s : Store) (queue : String) : ℤ :=
  ((s.order queue).length : ℤ) - s.settled queue

/-- The threshold rebuild; a negative capacity panics. -/
def rebuild (s : Store) (queue : String) : Outcome Unit :=
  if s.settled queue < compactionThreshold ∨ s.settled queue * 2 < (s.order queue).length then
    (.ok (), s)
  else if s.retainedCapacity queue < 0 then (.error .makeSlice, s)
  else
    (.ok (), { s with
      order := Function.update s.order queue
        ((s.order queue).filter (fun id => !isSettled s.messages id))
      settled := Function.update s.settled queue 0 })

def compactLocked (s : Store) (queue : String) : Outcome Unit := (s.trimHead queue).rebuild queue

def claim (s : Store) (req : ClaimRequest) : Outcome (List Message) :=
  s.unlessClosed
    (match s.compactLocked req.queue with
     | (.error e, s) => (.error e, s)
     | (.ok (), s) =>
      if req.limit < 0 then (.error .makeSlice, s)
      else
        let (reply, messages) := claimLoop req (s.order req.queue) s.messages []
        (reply, { s with messages := messages }))

/-- The record of a message somebody currently holds. -/
def leased (s : Store) (id : String) : Except Error Record :=
  match s.messages.lookup id with
  | none => .error .notFound
  | some entry =>
    if entry.msg.state ≠ .processing then .error (.state id .processing entry.msg.state)
    else .ok entry

/-- One more settled id in the index of a queue. -/
def settle (s : Store) (queue : String) : Store :=
  { s with settled := Function.update s.settled queue (s.settled queue + 1) }

def put (s : Store) (id : String) (entry : Record) : Store :=
  { s with messages := s.messages.insert id entry }

def acknowledge (s : Store) (id : String) (now : Time) : Outcome Unit :=
  match s.leased id with
  | .error e => (.error e, s)
  | .ok entry =>
    match entry.msg.transition .acknowledged now with
    | .error e => (.error (.transition e), s)
    | .ok msg => (.ok (), (s.settle msg.queue).put id (unleased msg))

def scheduleRetry (s : Store) (req : RetryRequest) : Outcome Unit :=
  match s.leased req.id with
  | .error e => (.error e, s)
  | .ok entry =>
    match entry.msg.transition .failed req.now with
    | .error e => (.error (.transition e), s)
    | .ok msg =>
      match msg.transition .retrying req.now with
      | .error e => (.error (.transition e), s.put req.id { entry with msg := msg })
      | .ok msg =>
        (.ok (), s.put req.id
          (unleased { msg with availableAt := req.availableAt, lastError := req.reason }))

def release (s : Store) (id : String) (now : Time) : Outcome Unit :=
  match s.leased id with
  | .error e => (.error e, s)
  | .ok entry =>
    match entry.msg.transition .queued now with
    | .error e => (.error (.transition e), s)
    | .ok msg => (.ok (), s.put id (unleased { msg with availableAt := now }))

def markDeadLettered (s : Store) (id reason : String) (now : Time) : Outcome Unit :=
  match s.messages.lookup id with
  | none => (.error .notFound, s)
  | some entry =>
    let failed :=
      if entry.msg.state = .processing then entry.msg.transition .failed now else .ok entry.msg
    match failed with
    | .error e => (.error (.transition e), s)
    | .ok msg =>
      match msg.transition .deadLettered now with
      | .error e => (.error (.transition e), s.put id { entry with msg := msg })
      | .ok msg => (.ok (), (s.settle msg.queue).put id (unleased { msg with lastError := reason }))

def expiredLeases (s : Store) (now : Time) (limit : ℤ) : Outcome (List Message) :=
  (.ok (limited limit (expired s.messages now)), s)

def depth (s : Store) (queue : String) : Outcome Depth :=
  match s.queues.lookup queue with
  | none => (.error .notFound, s)
  | some _ =>
    (.ok (Depth.withTotal (depthLoop s.messages (s.order queue) ⟨0, 0, 0, 0⟩)), s)

def purge (s : Store) (queue : String) : Outcome ℤ :=
  match s.queues.lookup queue with
  | none => (.error .notFound, s)
  | some _ =>
    let (remaining, messages, purged) := purgeLoop (s.order queue) s.messages [] 0
    (.ok purged, { s with
      messages := messages
      order := Function.update s.order queue remaining
      settled := Function.update s.settled queue remaining.length })

def saveDeadLetter (s : Store) (entry : DeadLetter) (newID : String) : Outcome Unit :=
  s.unlessClosed
    (let entry := if entry.id = "" then { entry with id := newID } else entry
     match s.deadLetters.lookup entry.id with
     | some _ => (.error .conflict, s)
     | none =>
      (.ok (), { s with
        deadLetters := s.deadLetters.insert entry.id entry
        deadOrder := s.deadOrder ++ [entry.id] }))

def deadLetter (s : Store) (id : String) : Outcome DeadLetter :=
  match s.deadLetters.lookup id with
  | none => (.error .notFound, s)
  | some entry => (.ok entry, s)

def listDeadLetters (s : Store) (filter : DeadLetterFilter) : Outcome (List DeadLetter) :=
  (.ok (listLoop filter.normalise s.deadLetters s.deadOrder.reverse 0 []), s)

/-- The order in which the map is walked does not matter for a count. -/
def countDeadLetters (s : Store) (queue : String) : Outcome ℤ :=
  (.ok ((sortedValues s.deadLetters).countP (fun entry => queue = "" ∨ entry.queue = queue)), s)

def markDeadLetterReplayed (s : Store) (id replayedAs : String) (now : Time) : Outcome Unit :=
  match s.deadLetters.lookup id with
  | none => (.error .notFound, s)
  | some entry =>
    (.ok (), { s with
      deadLetters := s.deadLetters.insert id
        { entry with
          replayedAs := replayedAs
          replayedAt := now
          replayCount := entry.replayCount + 1 } })

def deleteDeadLetter (s : Store) (id : String) : Outcome Unit :=
  match s.deadLetters.lookup id with
  | none => (.error .notFound, s)
  | some _ =>
    (.ok (), { s with
      deadLetters := s.deadLetters.erase id
      deadOrder := s.deadOrder.erase id })

def appendHistory (s : Store) (event : HistoryEvent) : Outcome Unit :=
  s.unlessClosed
    (.ok (), { s with
      history := Function.update s.history event.messageID
        (s.history event.messageID ++ [event]) })

end Store

/-- The driver: one method of the interface, run under the lock. -/
def exec : (c : Call) → Store → c.Reply × Store
  | .saveExchange exchange, s => s.saveExchange exchange
  | .exchanges, s => (.ok (Store.sortedValues s.exchanges), s)
  | .saveQueue queue, s => s.saveQueue queue
  | .queues, s => (.ok (Store.sortedValues s.queues), s)
  | .deleteQueue name, s => s.deleteQueue name
  | .saveBinding binding, s => s.saveBinding binding
  | .bindings, s => (.ok (Store.sortedValues s.bindings), s)
  | .deleteBinding spec, s => s.deleteBinding spec
  | .append msgs, s => s.append msgs
  | .message id, s => s.message id
  | .claim req, s => s.claim req
  | .acknowledge id now, s => s.acknowledge id now
  | .scheduleRetry req, s => s.scheduleRetry req
  | .release id now, s => s.release id now
  | .markDeadLettered id reason now, s => s.markDeadLettered id reason now
  | .expiredLeases now limit, s => s.expiredLeases now limit
  | .depth queue, s => s.depth queue
  | .purge queue, s => s.purge queue
  | .saveDeadLetter entry newID, s => s.saveDeadLetter entry newID
  | .deadLetter id, s => s.deadLetter id
  | .markDeadLetterReplayed id replayedAs now, s => s.markDeadLetterReplayed id replayedAs now
  | .deleteDeadLetter id, s => s.deleteDeadLetter id
  | .appendHistory event, s => s.appendHistory event
  | .history id, s => (.ok (s.history id), s)
  | .close, s => s.close

end RabbitmqLite.Storage.Memory
