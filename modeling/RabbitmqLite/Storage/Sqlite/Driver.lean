import RabbitmqLite.Storage.Sqlite.Store

/-! # The whole SQLite driver

The remaining tables and the methods on them: exchanges, bindings, dead letters
and the history. A database that was closed answers every call with an error,
except for those that are answered before it is asked.
-/

namespace RabbitmqLite.Storage.Sqlite
open Broker Sql

structure ExchangeRow where
  name : String
  kind : String
  durable : Bool
  createdAt : String
  deriving DecidableEq

structure BindingRow where
  exchange : String
  queue : String
  routingKey : String
  createdAt : String
  deriving DecidableEq

def BindingRow.spec (row : BindingRow) : BindingSpec := ⟨row.exchange, row.queue, row.routingKey⟩

structure DeadLetterRow where
  id : String
  messageID : String
  queue : String
  exchange : String
  routingKey : String
  schemaName : String
  payload : List UInt8
  headers : String
  reason : String
  errorKind : String
  attempts : ℤ
  publishedAt : String
  firstFailedAt : String
  deadLetteredAt : String
  replayedAs : String
  replayedAt : String
  replayCount : ℤ
  deriving DecidableEq

structure HistoryRow where
  id : ℕ
  messageID : String
  queue : String
  source : State
  target : State
  consumer : String
  detail : String
  time : String
  deriving DecidableEq

/-- All tables, with the key the next event of the history gets. -/
structure Database extends Db where
  exchanges : List ExchangeRow
  bindings : List BindingRow
  deadLetters : List DeadLetterRow
  history : List HistoryRow
  nextEvent : ℕ
  closed : Bool

/-- The empty tables of all migrations. -/
def Database.new : Database := ⟨Db.new, [], [], [], [], 1, false⟩

/-! ## Reading rows -/

def readTime (value : String) : Except Error Time :=
  match parseTime value with
  | none => .error .corrupt
  | some time => .ok time

theorem exists_of_bind_eq_ok {ε α β : Type} {x : Except ε α} {f : α → Except ε β} {b : β}
    (h : (x >>= f) = .ok b) : ∃ a, x = .ok a ∧ f a = .ok b := by
  cases x with
  | error e => cases h
  | ok a => exact ⟨a, rfl, h⟩

def scanExchange (row : ExchangeRow) : Except Error Exchange := do
  let createdAt ← readTime row.createdAt
  return ⟨⟨row.name, .ofText row.kind, row.durable⟩, createdAt⟩

def scanQueue (row : QueueRow) : Except Error Queue := do
  let createdAt ← readTime row.createdAt
  return ⟨⟨row.name, row.durable, row.maxAttempts, row.visibilityTimeoutMs * millisecond,
    row.schemaName⟩, createdAt⟩

def scanBinding (row : BindingRow) : Except Error Binding := do
  let createdAt ← readTime row.createdAt
  return ⟨row.spec, createdAt⟩

def scanEvent (row : HistoryRow) : Except Error HistoryEvent := do
  let time ← readTime row.time
  return ⟨row.messageID, row.queue, row.source, row.target, row.consumer, row.detail, time⟩

/-- `ORDER BY exchange, queue, routing_key`. -/
def listedBefore (a b : BindingRow) : Prop :=
  a.exchange < b.exchange ∨ a.exchange = b.exchange ∧ (a.queue < b.queue ∨
    a.queue = b.queue ∧ a.routingKey ≤ b.routingKey)

instance : DecidableRel listedBefore := fun a b => by unfold listedBefore; infer_instance

/-- `ORDER BY dead_lettered_at DESC, id DESC`. -/
def listedFirst (a b : DeadLetterRow) : Prop :=
  b.deadLetteredAt < a.deadLetteredAt ∨ a.deadLetteredAt = b.deadLetteredAt ∧ b.id ≤ a.id

instance : DecidableRel listedFirst := fun a b => by unfold listedFirst; infer_instance

/-- The condition of the two queries over dead letters; without a queue there is none. -/
def inQueue (queue : String) (row : DeadLetterRow) : Bool :=
  decide (queue = "") || decide (row.queue = queue)

section Codec
variable (json : JsonMaps)

def scanDeadLetter (row : DeadLetterRow) : Except Error DeadLetter :=
  match decodeHeaders json row.headers with
  | none => .error .corrupt
  | some headers => do
    let publishedAt ← readTime row.publishedAt
    let firstFailedAt ← readTime row.firstFailedAt
    let deadLetteredAt ← readTime row.deadLetteredAt
    let replayedAt ← readTime row.replayedAt
    return {
      id := row.id
      messageID := row.messageID
      queue := row.queue
      exchange := row.exchange
      routingKey := row.routingKey
      schema := row.schemaName
      payload := Payload.copied (some row.payload)
      headers := headers
      reason := row.reason
      errorKind := row.errorKind
      attempts := row.attempts
      publishedAt := publishedAt
      firstFailedAt := firstFailedAt
      deadLetteredAt := deadLetteredAt
      replayedAs := row.replayedAs
      replayedAt := replayedAt
      replayCount := row.replayCount }

/-- The row `SaveDeadLetter` inserts. -/
def letterRow (entry : DeadLetter) : DeadLetterRow where
  id := entry.id
  messageID := entry.messageID
  queue := entry.queue
  exchange := entry.exchange
  routingKey := entry.routingKey
  schemaName := entry.schema
  payload := entry.payload.bytes
  headers := encodeHeaders json entry.headers
  reason := entry.reason
  errorKind := entry.errorKind
  attempts := entry.attempts
  publishedAt := formatTime entry.publishedAt
  firstFailedAt := formatTime entry.firstFailedAt
  deadLetteredAt := formatTime entry.deadLetteredAt
  replayedAs := entry.replayedAs
  replayedAt := formatTime entry.replayedAt
  replayCount := entry.replayCount

namespace Database

/-! ## Topology -/

def saveExchange (db : Database) (exchange : Exchange) : Except Error Unit × Database :=
  (.ok (), { db with
    exchanges := upsert ExchangeRow.name (fun old new => { new with createdAt := old.createdAt })
      ⟨exchange.name, exchange.kind.text, exchange.durable, formatTime exchange.createdAt⟩
      db.exchanges })

def listExchanges (db : Database) : Except Error (List Exchange) × Database :=
  (scanRows scanExchange (orderBy (fun a b => a.name ≤ b.name) db.exchanges), db)

def listQueues (db : Database) : Except Error (List Queue) × Database :=
  (scanRows scanQueue (orderBy (fun a b => a.name ≤ b.name) db.queues), db)

def deleteQueue (db : Database) (name : String) : Except Error Unit × Database :=
  if db.queueCount name = 0 then (.error .notFound, db)
  else
    (.ok (), { db with
      queues := delete (fun row => row.name = name) db.queues
      messages := delete (fun row => row.queue = name) db.messages })

def saveBinding (db : Database) (binding : Binding) : Except Error Unit × Database :=
  (.ok (), { db with
    bindings := upsert BindingRow.spec (fun old _ => old)
      ⟨binding.exchange, binding.queue, binding.routingKey, formatTime binding.createdAt⟩
      db.bindings })

def listBindings (db : Database) : Except Error (List Binding) × Database :=
  (scanRows scanBinding (orderBy listedBefore db.bindings), db)

def deleteBinding (db : Database) (spec : BindingSpec) : Except Error Unit × Database :=
  if db.bindings.countP (fun row => row.spec = spec) = 0 then (.error .notFound, db)
  else (.ok (), { db with bindings := delete (fun row => row.spec = spec) db.bindings })

/-! ## Dead letters and history -/

def saveDeadLetter (db : Database) (entry : DeadLetter) (newID : String) :
    Except Error Unit × Database :=
  let entry := if entry.id = "" then { entry with id := newID } else entry
  if entry.payload = none then (.error .notNull, db)
  else
    match insertUnique DeadLetterRow.id (letterRow json entry) db.deadLetters with
    | none => (.error .conflict, db)
    | some rows => (.ok (), { db with deadLetters := rows })

def deadLetter (db : Database) (id : String) : Except Error DeadLetter × Database :=
  match byKey DeadLetterRow.id id db.deadLetters with
  | none => (.error .notFound, db)
  | some row => (scanDeadLetter json row, db)

def listDeadLetters (db : Database) (filter : DeadLetterFilter) :
    Except Error (List DeadLetter) × Database :=
  let filter := filter.normalise
  (scanRows (scanDeadLetter json) (limit filter.limit (offset filter.offset
    (orderBy listedFirst (db.deadLetters.filter (inQueue filter.queue))))), db)

def countDeadLetters (db : Database) (queue : String) : Except Error ℤ × Database :=
  (.ok (db.deadLetters.countP (inQueue queue)), db)

def markDeadLetterReplayed (db : Database) (id replayedAs : String) (now : Time) :
    Except Error Unit × Database :=
  if db.deadLetters.countP (fun row => row.id = id) = 0 then (.error .notFound, db)
  else
    (.ok (), { db with
      deadLetters := update (fun row => row.id = id) (fun row =>
        { row with
          replayedAs := replayedAs
          replayedAt := formatTime now
          replayCount := row.replayCount + 1 }) db.deadLetters })

def deleteDeadLetter (db : Database) (id : String) : Except Error Unit × Database :=
  if db.deadLetters.countP (fun row => row.id = id) = 0 then (.error .notFound, db)
  else (.ok (), { db with deadLetters := delete (fun row => row.id = id) db.deadLetters })

def appendHistory (db : Database) (event : HistoryEvent) : Except Error Unit × Database :=
  (.ok (), { db with
    history := db.history ++ [⟨db.nextEvent, event.messageID, event.queue, event.source,
      event.target, event.consumer, event.detail, formatTime event.time⟩]
    nextEvent := db.nextEvent + 1 })

def listHistory (db : Database) (messageID : String) :
    Except Error (List HistoryEvent) × Database :=
  (scanRows scanEvent (orderBy (fun a b => a.id ≤ b.id)
    (db.history.filter (fun row => row.messageID = messageID))), db)

end Database

/-! ## All methods -/

/-- A method of the message tables, as a method of the whole database. -/
def onMessages {α : Type} (db : Database) (outcome : α × Db) : α × Database :=
  (outcome.1, { db with toDb := outcome.2 })

/-- The calls that are answered without a word to the database. -/
def idle : Call → Bool
  | .append msgs => msgs.isEmpty
  | .claim req => decide (req.limit ≤ 0)
  | .close => true
  | _ => false

/-- The driver on an open database. -/
def serve : (c : Call) → Database → c.Reply × Database
  | .saveExchange exchange, db => db.saveExchange exchange
  | .exchanges, db => db.listExchanges
  | .saveQueue queue, db => onMessages db (db.toDb.saveQueue queue)
  | .queues, db => db.listQueues
  | .deleteQueue name, db => db.deleteQueue name
  | .saveBinding binding, db => db.saveBinding binding
  | .bindings, db => db.listBindings
  | .deleteBinding spec, db => db.deleteBinding spec
  | .append msgs, db => onMessages db (db.toDb.append json msgs)
  | .message id, db => onMessages db (db.toDb.message json id)
  | .claim req, db => onMessages db (db.toDb.claim json req)
  | .acknowledge id now, db => onMessages db (db.toDb.acknowledge json id now)
  | .scheduleRetry req, db => onMessages db (db.toDb.scheduleRetry json req)
  | .release id now, db => onMessages db (db.toDb.release json id now)
  | .markDeadLettered id reason now, db =>
    onMessages db (db.toDb.markDeadLettered json id reason now)
  | .expiredLeases now limit, db => onMessages db (db.toDb.expiredLeases json now limit)
  | .depth queue, db => onMessages db (db.toDb.depth queue)
  | .purge queue, db => onMessages db (db.toDb.purge queue)
  | .saveDeadLetter entry newID, db => db.saveDeadLetter json entry newID
  | .deadLetter id, db => db.deadLetter json id
  | .markDeadLetterReplayed id replayedAs now, db => db.markDeadLetterReplayed id replayedAs now
  | .deleteDeadLetter id, db => db.deleteDeadLetter id
  | .appendHistory event, db => db.appendHistory event
  | .history id, db => db.listHistory id
  | .close, db => (.ok (), { db with closed := true })

/-- The driver. -/
def call (c : Call) (db : Database) : c.Reply × Database :=
  if db.closed && !idle c then (c.refuse .closed, db) else serve json c db

theorem call_of_open {db : Database} (h : db.closed = false) (c : Call) :
    call json c db = serve json c db := by
  simp [call, h]

/-- On the message tables this is the driver that was studied before. -/
theorem call_toCall {db : Database} (h : db.closed = false) (c : MessageCall) :
    call json c.toCall db = onMessages db (exec json c db.toDb) := by
  rw [call_of_open json h]
  cases c <;> rfl

end Codec
end RabbitmqLite.Storage.Sqlite
