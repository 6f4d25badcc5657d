import RabbitmqLite.Sql.Recorded
import RabbitmqLite.Storage.Sqlite.Driver
import RabbitmqLite.Atomic.Machine

/-! # The tables of the topology

A name has one row in the tables of exchanges and queues, whatever calls the
driver has served, and only the calls on the topology touch them. A queue is
read back as it was saved, except for what is below a millisecond in its
visibility timeout.
-/

namespace RabbitmqLite.Storage
open Broker Sql Atomic

/-- The calls that write to the tables of the topology. -/
def Call.WritesTopology : Call → Prop
  | .saveExchange _ | .saveQueue _ | .deleteQueue _ | .saveBinding _ | .deleteBinding _ => True
  | _ => False

instance : DecidablePred Call.WritesTopology
  | .saveExchange _ | .saveQueue _ | .deleteQueue _ | .saveBinding _ | .deleteBinding _ =>
    .isTrue trivial
  | .exchanges | .queues | .bindings | .append _ | .message _ | .claim _ | .acknowledge _ _
  | .scheduleRetry _ | .release _ _ | .markDeadLettered _ _ _ | .expiredLeases _ _ | .depth _
  | .purge _ | .saveDeadLetter _ _ | .deadLetter _ | .markDeadLetterReplayed _ _ _
  | .deleteDeadLetter _ | .appendHistory _ | .history _ | .close => .isFalse not_false

namespace Sqlite
variable {json : JsonMaps}

/-! ## What calls leave alone -/

structure SameTopology (db db' : Database) : Prop where
  exchanges : db'.exchanges = db.exchanges
  queues : db'.queues = db.queues
  bindings : db'.bindings = db.bindings

theorem sameTopology_onMessages {α : Type} {db : Database} {outcome : α × Db}
    (h : outcome.2.queues = db.queues) : SameTopology db (onMessages db outcome).2 := ⟨rfl, h, rfl⟩

theorem queues_transitionLeased (db : Db) (id : String)
    (apply : Message → Except TransitionError (Row → Row)) :
    (db.transitionLeased json id apply).2.queues = db.queues := by
  unfold Db.transitionLeased
  repeat' split
  all_goals rfl

theorem queues_markDeadLettered (db : Db) (id reason : String) (now : Time) :
    (db.markDeadLettered json id reason now).2.queues = db.queues := by
  unfold Db.markDeadLettered
  dsimp only
  repeat' split
  all_goals rfl

theorem queues_claim (db : Db) (req : ClaimRequest) :
    (db.claim json req).2.queues = db.queues := by
  unfold Db.claim
  repeat' split
  all_goals rfl

theorem serve_sameTopology (db : Database) {c : Call} (hc : ¬ c.WritesTopology) :
    SameTopology db (serve json c db).2 := by
  cases c with
  | saveExchange | saveQueue | deleteQueue | saveBinding | deleteBinding =>
    exact absurd trivial hc
  | append msgs =>
    apply sameTopology_onMessages
    unfold Db.append
    split <;> rfl
  | claim req => exact sameTopology_onMessages (queues_claim db.toDb req)
  | acknowledge | scheduleRetry | release =>
    exact sameTopology_onMessages (queues_transitionLeased db.toDb _ _)
  | markDeadLettered id reason now =>
    exact sameTopology_onMessages (queues_markDeadLettered db.toDb id reason now)
  | purge queue | depth queue =>
    apply sameTopology_onMessages
    simp only [Db.purge, Db.depth]
    split_ifs <;> rfl
  | saveDeadLetter | deadLetter | markDeadLetterReplayed | deleteDeadLetter =>
    simp only [serve, Database.saveDeadLetter, Database.deadLetter, Database.markDeadLetterReplayed,
      Database.deleteDeadLetter]
    repeat' split
    all_goals exact ⟨rfl, rfl, rfl⟩
  | exchanges | queues | bindings | message | expiredLeases | appendHistory | history | close =>
    exact ⟨rfl, rfl, rfl⟩

theorem call_sameTopology (json : JsonMaps) (db : Database) {c : Call} (hc : ¬ c.WritesTopology) :
    SameTopology db (call json c db).2 := by
  unfold call
  split_ifs
  · exact ⟨rfl, rfl, rfl⟩
  · exact serve_sameTopology db hc

theorem after_sameTopology (json : JsonMaps) (db : Database) {cs : List Call}
    (hcs : ∀ c ∈ cs, ¬ c.WritesTopology) :
    SameTopology db (after (call json) db cs) := by
  induction cs using List.reverseRecOn with
  | nil => exact ⟨rfl, rfl, rfl⟩
  | append_singleton cs c ih =>
    rw [after_append, after_singleton]
    have hbefore := ih (fun d hd => hcs d (by simp [hd]))
    have hlast := call_sameTopology json (after (call json) db cs) (hcs c (by simp))
    exact ⟨hlast.exchanges.trans hbefore.exchanges, hlast.queues.trans hbefore.queues,
      hlast.bindings.trans hbefore.bindings⟩

/-! ## One row for a name -/

structure Keyed (db : Database) : Prop where
  exchanges : (db.exchanges.map ExchangeRow.name).Nodup
  queues : (db.queues.map QueueRow.name).Nodup

theorem SameTopology.keyed {db db' : Database} (h : SameTopology db db') (hk : Keyed db) :
    Keyed db' := ⟨h.exchanges ▸ hk.exchanges, h.queues ▸ hk.queues⟩

theorem serve_keyed {db : Database} (h : Keyed db) (c : Call) : Keyed (serve json c db).2 := by
  by_cases hc : c.WritesTopology
  · cases c with
    | saveExchange exchange =>
      refine ⟨?_, h.queues⟩
      simp only [serve, Database.saveExchange]
      exact nodup_upsert h.exchanges (fun _ => rfl)
    | saveQueue queue =>
      refine ⟨h.exchanges, ?_⟩
      simp only [serve, onMessages, Db.saveQueue]
      exact nodup_upsert h.queues (fun _ => rfl)
    | saveBinding binding => exact ⟨h.exchanges, h.queues⟩
    | deleteQueue name =>
      simp only [serve, Database.deleteQueue]
      split_ifs
      · exact h
      · exact ⟨h.exchanges, nodup_delete h.queues⟩
    | deleteBinding spec =>
      simp only [serve, Database.deleteBinding]
      split_ifs
      · exact h
      · exact ⟨h.exchanges, h.queues⟩
    | _ => cases hc
  · exact (serve_sameTopology db hc).keyed h

theorem after_keyed (json : JsonMaps) (cs : List Call) :
    Keyed (after (call json) Database.new cs) := by
  induction cs using List.reverseRecOn with
  | nil => exact ⟨List.nodup_nil, List.nodup_nil⟩
  | append_singleton cs c ih =>
    rw [after_append, after_singleton]
    unfold call
    split_ifs
    · exact ih
    · exact serve_keyed ih c

/-! ## Reading rows -/

/-- A table is listed in the order of a column, all of it or nothing. -/
theorem listed_ok_iff {ρ α : Type} {scan : ρ → Except Error α} {before : ρ → ρ → Prop}
    [DecidableRel before] {rows : List ρ} :
    (∃ values, scanRows scan (orderBy before rows) = .ok values) ↔
      ∀ row ∈ rows, ∃ v, scan row = .ok v := by
  rw [scanRows_ok_iff]
  simp only [orderBy, List.mem_insertionSort]

theorem mem_listed {ρ α : Type} {scan : ρ → Except Error α} {before : ρ → ρ → Prop}
    [DecidableRel before] {rows : List ρ} {values : List α}
    (h : scanRows scan (orderBy before rows) = .ok values) {v : α} :
    v ∈ values ↔ ∃ row ∈ rows, scan row = .ok v := by
  rw [mem_values (scanRows_eq_ok.mp h)]
  simp only [orderBy, List.mem_insertionSort]

theorem readTime_formatTime {t : Time} (h : InYears t) : readTime (formatTime t) = .ok t := by
  rw [readTime, parseTime_formatTime h]

theorem scanExchange_eq_ok {row : ExchangeRow} {x : Exchange} :
    scanExchange row = .ok x ↔
      readTime row.createdAt = .ok x.createdAt ∧
        x.toExchangeSpec = ⟨row.name, .ofText row.kind, row.durable⟩ := by
  unfold scanExchange
  cases hread : readTime row.createdAt with
  | error e => simp [bind, Except.bind]
  | ok t =>
    obtain ⟨spec, createdAt⟩ := x
    simp [bind, Except.bind, pure, Except.pure, and_comm, eq_comm]

theorem scanQueue_eq_ok {row : QueueRow} {queue : Queue} :
    scanQueue row = .ok queue ↔
      readTime row.createdAt = .ok queue.createdAt ∧ queue.toQueueSpec = ⟨row.name, row.durable,
        row.maxAttempts, row.visibilityTimeoutMs * millisecond, row.schemaName⟩ := by
  unfold scanQueue
  cases hread : readTime row.createdAt with
  | error e => simp [bind, Except.bind]
  | ok t =>
    obtain ⟨spec, createdAt⟩ := queue
    simp [bind, Except.bind, pure, Except.pure, and_comm, eq_comm]

theorem scanBinding_eq_ok {row : BindingRow} {t : Time} (h : readTime row.createdAt = .ok t) :
    scanBinding row = .ok ⟨row.spec, t⟩ := by
  simp [scanBinding, h, bind, Except.bind, pure, Except.pure]

theorem ofText_text {kind : ExchangeKind} (h : parseExchangeKind kind = .ok kind) :
    ExchangeKind.ofText kind.text = kind := by
  cases kind with
  | other raw => cases h
  | _ => rfl

/-- What is left of a specification in its row. -/
def inMilliseconds (spec : QueueSpec) : QueueSpec :=
  { spec with visibilityTimeout := spec.visibilityTimeout.tdiv millisecond * millisecond }

theorem inMilliseconds_eq_self {spec : QueueSpec} :
    inMilliseconds spec = spec ↔ millisecond ∣ spec.visibilityTimeout := by
  cases spec
  simp only [inMilliseconds, QueueSpec.mk.injEq, true_and, and_true]
  exact ⟨fun h => ⟨_, by rw [mul_comm]; exact h.symm⟩, Int.tdiv_mul_cancel⟩

/-! ## Saved and read back -/

def exchangeRow (x : Exchange) : ExchangeRow :=
  ⟨x.name, x.kind.text, x.durable, formatTime x.createdAt⟩

def queueRow (queue : Queue) : QueueRow :=
  ⟨queue.name, queue.durable, queue.maxAttempts, queue.visibilityTimeout.tdiv millisecond,
    queue.schema, formatTime queue.createdAt⟩

/-- The tables after a value was saved; a row that was there keeps its time. -/
def enterExchange (x : Exchange) (rows : List ExchangeRow) : List ExchangeRow :=
  upsert ExchangeRow.name (fun old new => { new with createdAt := old.createdAt })
    (exchangeRow x) rows

def enterQueue (queue : Queue) (rows : List QueueRow) : List QueueRow :=
  upsert QueueRow.name (fun old new => { new with createdAt := old.createdAt })
    (queueRow queue) rows

theorem call_saveExchange {db : Database} (h : db.closed = false) (x : Exchange) :
    call json (.saveExchange x) db =
      (.ok (), { db with exchanges := enterExchange x db.exchanges }) := call_of_open json h _

theorem call_saveQueue {db : Database} (h : db.closed = false) (queue : Queue) :
    call json (.saveQueue queue) db = (.ok (), { db with queues := enterQueue queue db.queues }) :=
  call_of_open json h _

/-- The row that a queue is saved in, on its own or in the place of an older one, is read as its
specification, less what is below a millisecond. -/
theorem scanQueue_saved {row : QueueRow} {queue : Queue} {t : Time}
    (h : readTime row.createdAt = .ok t) :
    scanQueue { queueRow queue with createdAt := row.createdAt } =
      .ok ⟨inMilliseconds queue.toQueueSpec, t⟩ := scanQueue_eq_ok.mpr ⟨h, rfl⟩

theorem scanQueue_queueRow {queue : Queue} (h : InYears queue.createdAt) :
    scanQueue (queueRow queue) = .ok ⟨inMilliseconds queue.toQueueSpec, queue.createdAt⟩ :=
  scanQueue_eq_ok.mpr ⟨readTime_formatTime h, rfl⟩

theorem readable_enterQueue {rows : List QueueRow} {queue : Queue} (hy : InYears queue.createdAt)
    (hread : ∀ row ∈ rows, ∃ stored, scanQueue row = .ok stored) {row : QueueRow}
    (hrow : row ∈ enterQueue queue rows) :
    ∃ stored, scanQueue row = .ok stored ∧ (row.name = queue.name →
      stored.toQueueSpec = inMilliseconds queue.toQueueSpec) := by
  rcases mem_upsert hrow with ⟨hold, hne⟩ | ⟨old, hold, -, rfl⟩ | ⟨rfl, -⟩
  · obtain ⟨stored, hstored⟩ := hread row hold
    exact ⟨stored, hstored, fun heq => absurd heq hne⟩
  · obtain ⟨stored, hstored⟩ := hread old hold
    exact ⟨_, scanQueue_saved (scanQueue_eq_ok.mp hstored).1, fun _ => rfl⟩
  · exact ⟨_, scanQueue_queueRow hy, fun _ => rfl⟩

/-- A queue that was saved is listed under its specification exactly if the specification fits in
a row. -/
theorem saveQueue_listed {db : Database} (ho : db.closed = false) {queue : Queue}
    (hy : InYears queue.createdAt) (hread : ∃ queues, (call json .queues db).1 = .ok queues) :
    ∃ queues, (call json .queues (call json (.saveQueue queue) db).2).1 = .ok queues ∧
      ((∃ stored ∈ queues, stored.toQueueSpec = queue.toQueueSpec) ↔
        millisecond ∣ queue.visibilityTimeout) := by
  rw [call_of_open json ho] at hread
  have hrows := listed_ok_iff.mp hread
  rw [call_saveQueue ho, call_of_open json (by exact ho)]
  obtain ⟨queues, hqueues⟩ : ∃ queues, scanRows scanQueue
      (orderBy (fun a b => a.name ≤ b.name) (enterQueue queue db.queues)) = .ok queues :=
    listed_ok_iff.mpr (fun row hrow => (readable_enterQueue hy hrows hrow).imp (fun _ h => h.1))
  refine ⟨queues, hqueues, ?_⟩
  rw [← @inMilliseconds_eq_self queue.toQueueSpec]
  constructor
  · rintro ⟨stored, hstored, hspec⟩
    obtain ⟨row, hrow, hscan⟩ := (mem_listed hqueues).mp hstored
    obtain ⟨stored', hscan', hsaved⟩ := readable_enterQueue hy hrows hrow
    cases hscan.symm.trans hscan'
    rw [← hsaved, hspec]
    rw [(scanQueue_eq_ok.mp hscan).2] at hspec
    exact congrArg QueueSpec.name hspec
  · intro hfits
    have hkey : queue.name ∈ (enterQueue queue db.queues).map QueueRow.name :=
      (mem_keys_upsert (fun _ => rfl)).mpr (Or.inl rfl)
    obtain ⟨row, hrow, hname⟩ := List.mem_map.mp hkey
    obtain ⟨stored, hscan, hsaved⟩ := readable_enterQueue hy hrows hrow
    exact ⟨stored, (mem_listed hqueues).mpr ⟨row, hrow, hscan⟩, (hsaved hname).trans hfits⟩

end Sqlite
end RabbitmqLite.Storage
