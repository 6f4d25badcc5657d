import RabbitmqLite.Storage.Interface
import RabbitmqLite.Storage.Sqlite.Timestamp
import RabbitmqLite.Sql.Table

/-! # The SQLite driver

Tables are lists of rows in the order of their keys. Every method is one
transaction or one statement, so it is a function from a database to a reply
and a database; a transaction that fails is rolled back. The JSON library is a
parameter that is only assumed to round-trip maps of strings.
-/

namespace RabbitmqLite.Storage.Sqlite
open Broker Sql

/-- `encoding/json` on maps of strings, as far as the driver relies on it. -/
structure JsonMaps where
  marshal : Headers → String
  unmarshal : String → Option Headers
  roundTrip : ∀ headers, headers ≠ ∅ → unmarshal (marshal headers) = some headers
  object : ∀ headers, headers ≠ ∅ → marshal headers ≠ "" ∧ marshal headers ≠ "\x7b\x7d"

/-- A row of the table `messages`; `none` is the value NULL, which a payload cannot be. -/
structure Row where
  seq : ℕ
  id : String
  queue : String
  exchange : String
  routingKey : String
  schemaName : String
  payload : List UInt8
  headers : String
  state : State
  attempts : ℤ
  maxAttempts : ℤ
  lastError : String
  createdAt : String
  updatedAt : String
  availableAt : String
  leaseExpiresAt : Option String
  consumer : String
  deriving DecidableEq

/-- A row of the table `queues`. -/
structure QueueRow where
  name : String
  durable : Bool
  maxAttempts : ℤ
  visibilityTimeoutMs : ℤ
  schemaName : String
  createdAt : String
  deriving DecidableEq

/-- The two tables the message methods use, and the key the next message gets. -/
structure Db where
  queues : List QueueRow
  messages : List Row
  nextSeq : ℕ

/-- The empty tables of the migrations. -/
def Db.new : Db := ⟨[], [], 1⟩

section Codec
variable (json : JsonMaps)

def encodeHeaders (headers : Headers) : String :=
  if headers = ∅ then "\x7b\x7d" else json.marshal headers

def decodeHeaders (raw : String) : Option Headers :=
  if raw = "" ∨ raw = "\x7b\x7d" then some ∅ else json.unmarshal raw

theorem decodeHeaders_encodeHeaders (headers : Headers) :
    decodeHeaders json (encodeHeaders json headers) = some headers := by
  unfold decodeHeaders encodeHeaders
  by_cases h : headers = ∅
  · simp [h]
  · obtain ⟨hne, hobj⟩ := json.object headers h
    rw [if_neg h, if_neg (by simp [hne, hobj]), json.roundTrip headers h]

/-- A message as a row has it. The driver reads an empty blob back as nil. -/
def scanMessage (row : Row) : Except Error Message :=
  match decodeHeaders json row.headers, parseTime row.createdAt, parseTime row.updatedAt,
    parseTime row.availableAt with
  | some headers, some createdAt, some updatedAt, some availableAt =>
    .ok {
      id := row.id
      exchange := row.exchange
      routingKey := row.routingKey
      queue := row.queue
      schema := row.schemaName
      payload := Payload.copied (some row.payload)
      headers := headers
      state := row.state
      attempts := row.attempts
      maxAttempts := row.maxAttempts
      lastError := row.lastError
      createdAt := createdAt
      updatedAt := updatedAt
      availableAt := availableAt }
  | _, _, _, _ => .error .corrupt

/-- The loop over the rows of a selection ends at the first row that does not decode. -/
def scanRows {ρ α : Type} (scan : ρ → Except Error α) : List ρ → Except Error (List α)
  | [] => .ok []
  | row :: rows =>
    match scan row with
    | .error e => .error e
    | .ok a => (scanRows scan rows).map (fun rest => a :: rest)

theorem scanRows_eq_ok {ρ α : Type} {scan : ρ → Except Error α} {rows : List ρ} {values : List α} :
    scanRows scan rows = .ok values ↔
      List.Forall₂ (fun row v => scan row = .ok v) rows values := by
  induction rows generalizing values with
  | nil =>
    rw [List.forall₂_nil_left_iff]
    simp [scanRows, eq_comm]
  | cons row rows ih =>
    unfold scanRows
    cases hscan : scan row with
    | error e => simp [List.forall₂_cons_left_iff, hscan]
    | ok v =>
      cases hrest : scanRows scan rows with
      | error e =>
        simp only [Except.map, List.forall₂_cons_left_iff, ← ih, hrest]
        simp
      | ok rest =>
        simp only [Except.map, List.forall₂_cons_left_iff, ← ih, hrest, hscan]
        simp [eq_comm]

theorem scanRows_ok_iff {ρ α : Type} {scan : ρ → Except Error α} {rows : List ρ} :
    (∃ values, scanRows scan rows = .ok values) ↔ ∀ row ∈ rows, ∃ v, scan row = .ok v := by
  induction rows with
  | nil => simp [scanRows]
  | cons row rows ih =>
    rw [List.forall_mem_cons, ← ih]
    simp only [scanRows_eq_ok]
    constructor
    · rintro ⟨_, ⟨⟩⟩
      exact ⟨⟨_, ‹_›⟩, _, ‹_›⟩
    · rintro ⟨⟨v, hv⟩, values, hvalues⟩
      exact ⟨v :: values, .cons hv hvalues⟩

def scanMessages : List Row → Except Error (List Message) := scanRows (scanMessage json)

/-- The row `Append` inserts; the columns it does not name get their defaults. -/
def insertedRow (seq : ℕ) (msg : Message) : Row where
  seq := seq
  id := msg.id
  queue := msg.queue
  exchange := msg.exchange
  routingKey := msg.routingKey
  schemaName := msg.schema
  payload := msg.payload.bytes
  headers := encodeHeaders json msg.headers
  state := msg.state
  attempts := msg.attempts
  maxAttempts := msg.maxAttempts
  lastError := msg.lastError
  createdAt := formatTime msg.createdAt
  updatedAt := formatTime msg.updatedAt
  availableAt := formatTime msg.availableAt
  leaseExpiresAt := none
  consumer := ""

/-- The loop of `Append`: one insertion for each message. The driver binds a nil payload as
NULL, which the column refuses, and stores an empty one. -/
def insertLoop : List Message → List Row → ℕ → Except Error (List Row × ℕ)
  | [], rows, seq => .ok (rows, seq)
  | msg :: msgs, rows, seq =>
    if msg.payload = none then .error .notNull
    else
      match insertUnique Row.id (insertedRow json seq msg) rows with
      | none => .error .conflict
      | some rows => insertLoop msgs rows (seq + 1)

/-- The state changes of a claimed candidate. -/
def leaseCandidate (req : ClaimRequest) (msg : Message) : Except Error Message :=
  let requeued := if msg.state = .retrying then msg.transition .queued req.now else .ok msg
  match requeued with
  | .error e => .error (.transition e)
  | .ok msg =>
    match msg.transition .processing req.now with
    | .error e => .error (.transition e)
    | .ok msg => .ok { msg with attempts := msg.attempts + 1 }

/-- The columns `Claim` sets. -/
def leaseRow (req : ClaimRequest) (msg : Message) (row : Row) : Row :=
  { row with
    state := msg.state
    attempts := msg.attempts
    updatedAt := formatTime msg.updatedAt
    leaseExpiresAt := some (formatTime (req.now + req.lease))
    consumer := req.consumer }

/-- The loop of `Claim` over the candidates. -/
def claimLoop (req : ClaimRequest) :
    List Message → List Row → Except Error (List Message × List Row)
  | [], rows => .ok ([], rows)
  | msg :: msgs, rows =>
    match leaseCandidate req msg with
    | .error e => .error e
    | .ok msg =>
      let rows := update (fun row => row.id = msg.id) (leaseRow req msg) rows
      (claimLoop req msgs rows).map (fun done => (msg :: done.1, done.2))

/-- `ORDER BY available_at, seq`. -/
def deliveredBefore (a b : Row) : Prop :=
  a.availableAt < b.availableAt ∨ a.availableAt = b.availableAt ∧ a.seq ≤ b.seq

instance : DecidableRel deliveredBefore := fun a b => by unfold deliveredBefore; infer_instance

/-- One line of the answer to the query of `Depth`. -/
def addGroup (depth : Depth) (group : State × ℕ) : Depth :=
  match group.1 with
  | .queued => { depth with ready := depth.ready + group.2 }
  | .processing => { depth with inFlight := depth.inFlight + group.2 }
  | .retrying | .failed => { depth with scheduled := depth.scheduled + group.2 }
  | _ => depth

namespace Db

def saveQueue (db : Db) (queue : Queue) : Except Error Unit × Db :=
  (.ok (), { db with
    queues := upsert QueueRow.name (fun old new => { new with createdAt := old.createdAt })
      ⟨queue.name, queue.durable, queue.maxAttempts, queue.visibilityTimeout.tdiv millisecond,
        queue.schema, formatTime queue.createdAt⟩ db.queues })

def append (db : Db) (msgs : List Message) : Except Error Unit × Db :=
  match insertLoop json msgs db.messages db.nextSeq with
  | .error e => (.error e, db)
  | .ok (rows, seq) => (.ok (), { db with messages := rows, nextSeq := seq })

def loadMessage (db : Db) (id : String) : Except Error Message :=
  match byKey Row.id id db.messages with
  | none => .error .notFound
  | some row => scanMessage json row

def message (db : Db) (id : String) : Except Error Message × Db := (db.loadMessage json id, db)

/-- The condition of the selection `Claim` runs. -/
def ready (req : ClaimRequest) (row : Row) : Bool :=
  decide (row.queue = req.queue) && decide (row.state = .queued ∨ row.state = .retrying) &&
    decide (row.availableAt ≤ formatTime req.now)

/-- The rows `Claim` selects. -/
def candidates (db : Db) (req : ClaimRequest) : List Row :=
  limit req.limit (orderBy deliveredBefore (db.messages.filter (ready req)))

def claim (db : Db) (req : ClaimRequest) : Except Error (List Message) × Db :=
  if req.limit ≤ 0 then (.ok [], db)
  else
    match scanMessages json (db.candidates req) with
    | .error e => (.error e, db)
    | .ok msgs =>
      match claimLoop req msgs db.messages with
      | .error e => (.error e, db)
      | .ok (claimed, rows) => (.ok claimed, { db with messages := rows })

/-- The transaction of the methods that require the lease to be held. -/
def transitionLeased (db : Db) (id : String)
    (apply : Message → Except TransitionError (Row → Row)) : Except Error Unit × Db :=
  match db.loadMessage json id with
  | .error e => (.error e, db)
  | .ok msg =>
    if msg.state ≠ .processing then (.error (.state id .processing msg.state), db)
    else
      match apply msg with
      | .error e => (.error (.transition e), db)
      | .ok set =>
        (.ok (), { db with messages := update (fun row => row.id = msg.id) set db.messages })

def acknowledge (db : Db) (id : String) (now : Time) : Except Error Unit × Db :=
  db.transitionLeased json id (fun msg => do
    let msg ← msg.transition .acknowledged now
    return fun row => { row with
      state := msg.state
      updatedAt := formatTime msg.updatedAt
      leaseExpiresAt := none
      consumer := "" })

def scheduleRetry (db : Db) (req : RetryRequest) : Except Error Unit × Db :=
  db.transitionLeased json req.id (fun msg => do
    let msg ← msg.transition .failed req.now
    let msg ← msg.transition .retrying req.now
    return fun row => { row with
      state := msg.state
      updatedAt := formatTime msg.updatedAt
      availableAt := formatTime req.availableAt
      lastError := req.reason
      leaseExpiresAt := none
      consumer := "" })

def release (db : Db) (id : String) (now : Time) : Except Error Unit × Db :=
  db.transitionLeased json id (fun msg => do
    let msg ← msg.transition .queued now
    return fun row => { row with
      state := msg.state
      updatedAt := formatTime msg.updatedAt
      availableAt := formatTime now
      leaseExpiresAt := none
      consumer := "" })

def markDeadLettered (db : Db) (id reason : String) (now : Time) : Except Error Unit × Db :=
  match db.loadMessage json id with
  | .error e => (.error e, db)
  | .ok msg =>
    let failed := if msg.state = .processing then msg.transition .failed now else .ok msg
    match failed with
    | .error e => (.error (.transition e), db)
    | .ok msg =>
      match msg.transition .deadLettered now with
      | .error e => (.error (.transition e), db)
      | .ok msg =>
        (.ok (), { db with
          messages := update (fun row => row.id = msg.id) (fun row =>
            { row with
              state := msg.state
              updatedAt := formatTime msg.updatedAt
              lastError := reason
              leaseExpiresAt := none
              consumer := "" }) db.messages })

/-- The condition of the selection `ExpiredLeases` runs. -/
def leaseEnded (now : Time) (row : Row) : Bool :=
  decide (row.state = .processing) &&
    match row.leaseExpiresAt with
    | none => false
    | some expiry => decide (expiry ≤ formatTime now)

def expiredLeases (db : Db) (now : Time) (n : ℤ) : Except Error (List Message) × Db :=
  let n := if n ≤ 0 then -1 else n
  (scanMessages json (limit n (orderBy (fun a b => a.seq ≤ b.seq)
    (db.messages.filter (leaseEnded now)))), db)

/-- `SELECT COUNT(*) FROM queues WHERE name = ?`. -/
def queueCount (db : Db) (name : String) : ℕ := db.queues.countP (fun row => row.name = name)

def depth (db : Db) (queue : String) : Except Error Depth × Db :=
  if db.queueCount queue = 0 then (.error .notFound, db)
  else
    let counted := (groupCount Row.state (db.messages.filter (fun row => row.queue = queue))).foldl
      addGroup ⟨0, 0, 0, 0⟩
    (.ok { counted with total := counted.ready + counted.inFlight + counted.scheduled }, db)

/-- The condition of the deletion `Purge` runs. -/
def purged (queue : String) (row : Row) : Bool :=
  decide (row.queue = queue) && !decide (row.state = .acknowledged ∨ row.state = .deadLettered)

def purge (db : Db) (queue : String) : Except Error ℤ × Db :=
  if db.queueCount queue = 0 then (.error .notFound, db)
  else
    (.ok (db.messages.countP (purged queue)),
      { db with messages := delete (purged queue) db.messages })

end Db

/-- The driver, for the methods that serve messages. -/
def exec : (c : MessageCall) → Db → c.Reply × Db
  | .saveQueue queue, db => db.saveQueue queue
  | .append msgs, db => db.append json msgs
  | .message id, db => db.message json id
  | .claim req, db => db.claim json req
  | .acknowledge id now, db => db.acknowledge json id now
  | .scheduleRetry req, db => db.scheduleRetry json req
  | .release id now, db => db.release json id now
  | .markDeadLettered id reason now, db => db.markDeadLettered json id reason now
  | .expiredLeases now n, db => db.expiredLeases json now n
  | .depth queue, db => db.depth queue
  | .purge queue, db => db.purge queue

end Codec
end RabbitmqLite.Storage.Sqlite
