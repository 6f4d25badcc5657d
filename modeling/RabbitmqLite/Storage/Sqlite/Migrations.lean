import RabbitmqLite.Atomic.Contract
import RabbitmqLite.Sql.Schema
import RabbitmqLite.Sql.Table
import RabbitmqLite.Storage.Sqlite.Timestamp

/-! # Migrations

Opening the database brings its schema up to date: the program creates the table
of migrations, reads which are recorded and applies the others in order, each in
a transaction of its own. Several processes, also of older versions of the
program, may open the same file at once; any statement may fail and any process
may stop at any point. A transaction is one call, since SQLite serialises them.
-/

namespace RabbitmqLite.Storage.Sqlite.Setup
open Atomic Collections
open Sql (Catalogue Column Create Object Refusal)

/-! ## The migrations -/

structure Migration where
  version : ℕ
  name : String
  statements : List Create

def textKey (name : String) : Column :=
  { name, type := .text, notNull := false, primaryKey := true }

def textColumn (name : String) : Column := { name, type := .text }

def textDefault (name default : String) : Column := { name, type := .text, default := some default }

def integerColumn (name : String) : Column := { name, type := .integer }

def integerDefault (name default : String) : Column :=
  { name, type := .integer, default := some default }

def rowid (name : String) : Column :=
  { name, type := .integer, notNull := false, primaryKey := true, autoincrement := true }

def migrations : List Migration :=
  [ { version := 1
      name := "topology"
      statements :=
        [ .table "exchanges"
            [textKey "name", textColumn "kind", integerDefault "durable" "0",
             textColumn "created_at"] [],
          .table "queues"
            [textKey "name", integerDefault "durable" "0", integerColumn "max_attempts",
             integerColumn "visibility_timeout_ms", textDefault "schema_name" "''",
             textColumn "created_at"] [],
          .table "bindings"
            [textColumn "exchange", textColumn "queue", textColumn "routing_key",
             textColumn "created_at"] ["exchange", "queue", "routing_key"] ] },
    { version := 2
      name := "messages"
      statements :=
        [ .table "messages"
            [rowid "seq", { textColumn "id" with unique := true }, textColumn "queue",
             textDefault "exchange" "''", textDefault "routing_key" "''",
             textDefault "schema_name" "''", { name := "payload", type := .blob },
             textDefault "headers" "'\x7b\x7d'", textColumn "state", integerDefault "attempts" "0",
             integerDefault "max_attempts" "0", textDefault "last_error" "''",
             textColumn "created_at", textColumn "updated_at", textColumn "available_at",
             { textColumn "lease_expires_at" with notNull := false },
             textDefault "consumer" "''"] [],
          .index "idx_messages_ready" "messages" ["queue", "state", "available_at", "seq"],
          .index "idx_messages_lease" "messages" ["state", "lease_expires_at"] ] },
    { version := 3
      name := "dead_letters"
      statements :=
        [ .table "dead_letters"
            [textKey "id", textColumn "message_id", textColumn "queue",
             textDefault "exchange" "''", textDefault "routing_key" "''",
             textDefault "schema_name" "''", { name := "payload", type := .blob },
             textDefault "headers" "'\x7b\x7d'", textColumn "reason", textDefault "error_kind" "''",
             integerDefault "attempts" "0", textColumn "published_at",
             textColumn "first_failed_at", textColumn "dead_lettered_at",
             textDefault "replayed_as" "''", textDefault "replayed_at" "''",
             integerDefault "replay_count" "0"] [],
          .index "idx_dead_letters_queue" "dead_letters" ["queue", "dead_lettered_at"] ] },
    { version := 4
      name := "message_history"
      statements :=
        [ .table "message_history"
            [rowid "id", textColumn "message_id", textDefault "queue" "''",
             textColumn "from_state", textColumn "to_state", textDefault "consumer" "''",
             textDefault "detail" "''", textColumn "at"] [],
          .index "idx_message_history_message" "message_history" ["message_id", "id"] ] } ]

def migrationTable : Create :=
  .table "schema_migrations"
    [{ name := "version", type := .integer, notNull := false, primaryKey := true },
     textColumn "name", textColumn "applied_at"] []

/-! ## The database -/

structure MigrationRow where
  version : ℕ
  name : String
  appliedAt : String
  deriving DecidableEq

/-- The file, the handles on it that are open and how many calls there have been. -/
structure Database where
  catalogue : Catalogue
  schemaMigrations : List MigrationRow
  handles : ℕ
  calls : ℕ

def Database.empty : Database := ⟨∅, [], 0, 0⟩

/-- What happens from outside at each call: the time, which stage of the call fails with which
error, and whether a transaction whose commit reports an error has taken effect. -/
structure Conditions where
  clock : ℕ → Time
  fails : ℕ → ℕ → Option String
  lands : ℕ → Bool

inductive Cause where
  | driver (text : String)
  | refused (refusal : Refusal)
  | noSuchTable (name : String)
  | duplicate
  deriving DecidableEq

inductive MigrateError where
  | createTable (cause : Cause)
  | read (cause : Cause)
  | scan (cause : Cause)
  | rows (cause : Cause)
  | begin (version : ℕ) (cause : Cause)
  | statement (version : ℕ) (name : String) (cause : Cause)
  | record (version : ℕ) (cause : Cause)
  | commit (cause : Cause)
  deriving DecidableEq

def hasMigrationTable (d : Database) : Bool := (d.catalogue.lookup migrationTable.name).isSome

/-- The rows are scanned one after the other; stage `i` is that of the next row. -/
def scanVersions (fails : ℕ → Option String) : ℕ → List MigrationRow → Except MigrateError (List ℕ)
  | i, [] =>
    match fails i with
    | some text => .error (.rows (.driver text))
    | none => .ok []
  | i, row :: rows =>
    match fails i with
    | some text => .error (.scan (.driver text))
    | none => (scanVersions fails (i + 1) rows).map (row.version :: ·)

def appliedMigrations (fails : ℕ → Option String) (d : Database) : Except MigrateError (List ℕ) :=
  match fails 0 with
  | some text => .error (.read (.driver text))
  | none =>
    if hasMigrationTable d then scanVersions fails 1 d.schemaMigrations
    else .error (.read (.noSuchTable migrationTable.name))

/-- The statements of a transaction; stage `i` is that of the next one. -/
def runStatements (fails : ℕ → Option String) : ℕ → List Create → Catalogue → Except Cause Catalogue
  | _, [], c => .ok c
  | i, s :: rest, c =>
    match fails i with
    | some text => .error (.driver text)
    | none =>
      match s.exec c with
      | .error e => .error (.refused e)
      | .ok c' => runStatements fails (i + 1) rest c'

def insertMigration (row : MigrationRow) (d : Database) : Except Cause Database :=
  if hasMigrationTable d then
    match Sql.insertUnique MigrationRow.version row d.schemaMigrations with
    | some rows => .ok { d with schemaMigrations := rows }
    | none => .error .duplicate
  else .error (.noSuchTable migrationTable.name)

def applyMigration (fails : ℕ → Option String) (lands : Bool) (now : Time) (step : Migration)
    (d : Database) : Except MigrateError Unit × Database :=
  match fails 0 with
  | some text => (.error (.begin step.version (.driver text)), d)
  | none =>
    match runStatements fails 1 step.statements d.catalogue with
    | .error cause => (.error (.statement step.version step.name cause), d)
    | .ok catalogue =>
      match fails (step.statements.length + 1) with
      | some text => (.error (.record step.version (.driver text)), d)
      | none =>
        match insertMigration ⟨step.version, step.name, formatTime now⟩ { d with catalogue } with
        | .error cause => (.error (.record step.version cause), d)
        | .ok d' =>
          match fails (step.statements.length + 2) with
          | some text => (.error (.commit (.driver text)), if lands then d' else d)
          | none => (.ok (), d')

/-! ## Processes -/

inductive Call where
  | sqlOpen
  | ping
  | createTable
  | appliedMigrations
  | applyMigration (step : Migration)
  | close
  | serve (known : ℕ)

abbrev Call.Reply : Call → Type
  | .sqlOpen | .ping | .createTable => Except Cause Unit
  | .appliedMigrations => Except MigrateError (List ℕ)
  | .applyMigration _ => Except MigrateError Unit
  | .close | .serve _ => Unit

def attempt (fails : ℕ → Option String) : Except Cause Unit :=
  match fails 0 with
  | some text => .error (.driver text)
  | none => .ok ()

def createTable (fails : ℕ → Option String) (d : Database) : Except Cause Unit × Database :=
  match runStatements fails 0 [migrationTable] d.catalogue with
  | .error cause => (.error cause, d)
  | .ok catalogue => (.ok (), { d with catalogue })

def exec (world : Conditions) (c : Call) (before : Database) : c.Reply × Database :=
  let fails := world.fails before.calls
  let d := { before with calls := before.calls + 1 }
  match c with
  | .sqlOpen =>
    match attempt fails with
    | .error cause => (.error cause, d)
    | .ok () => (.ok (), { d with handles := d.handles + 1 })
  | .ping => (attempt fails, d)
  | .createTable => createTable fails d
  | .appliedMigrations => (appliedMigrations fails d, d)
  | .applyMigration step =>
    applyMigration fails (world.lands before.calls) (world.clock before.calls) step d
  | .close => ((), { d with handles := d.handles - 1 })
  | .serve _ => ((), d)

abbrev Program := Prog Call Call.Reply

def applyPending (applied : List ℕ) : List Migration → Program (Except MigrateError Unit)
  | [] => pure (.ok ())
  | step :: rest =>
    if step.version ∈ applied then applyPending applied rest
    else do
      match ← Prog.perform (Call.applyMigration step) with
      | .error e => pure (.error e)
      | .ok () => applyPending applied rest

def migrate (steps : List Migration) : Program (Except MigrateError Unit) := do
  match ← Prog.perform Call.createTable with
  | .error cause => pure (.error (.createTable cause))
  | .ok () =>
    match ← Prog.perform Call.appliedMigrations with
    | .error e => pure (.error e)
    | .ok applied => applyPending applied steps

inductive OpenError where
  | sqlOpen (cause : Cause)
  | ping (cause : Cause)
  | migrate (error : MigrateError)
  deriving DecidableEq

def openStore (steps : List Migration) : Program (Except OpenError Unit) := do
  match ← Prog.perform Call.sqlOpen with
  | .error cause => pure (.error (.sqlOpen cause))
  | .ok () =>
    match ← Prog.perform Call.ping with
    | .error cause => do
      Prog.perform Call.close
      pure (.error (.ping cause))
    | .ok () =>
      match ← migrate steps with
      | .error e => do
        Prog.perform Call.close
        pure (.error (.migrate e))
      | .ok () => pure (.ok ())

/-- A process whose program knows so many migrations: it opens the store and serves. -/
def process (known : ℕ) : Program Unit := do
  match ← openStore (migrations.take known) with
  | .error _ => pure ()
  | .ok () => Prog.perform (Call.serve known)

/-- Processes on a new file, after a schedule of their calls. -/
def opened (world : Conditions) (schedule : List (Action ℕ)) : Config Database Call Call.Reply :=
  (Config.init Database.empty).after (exec world) process schedule

/-! ## What the calls do -/

theorem scanVersions_ok {fails : ℕ → Option String} {i : ℕ} {rows : List MigrationRow}
    {versions : List ℕ} (h : scanVersions fails i rows = .ok versions) :
    versions = rows.map MigrationRow.version := by
  induction rows generalizing i versions with
  | nil =>
    simp only [scanVersions] at h
    split at h
    · cases h
    · exact (Except.ok.inj h).symm
  | cons row rows ih =>
    simp only [scanVersions] at h
    split at h
    · cases h
    · cases hr : scanVersions fails (i + 1) rows with
      | error e => simp [hr, Except.map] at h
      | ok rest =>
        rw [hr] at h
        rw [← Except.ok.inj h, ih hr, List.map_cons]

theorem appliedMigrations_ok {fails : ℕ → Option String} {d : Database} {versions : List ℕ}
    (h : appliedMigrations fails d = .ok versions) :
    versions = d.schemaMigrations.map MigrationRow.version := by
  unfold appliedMigrations at h
  split at h
  · cases h
  · split_ifs at h
    exact scanVersions_ok h

theorem runStatements_ok {fails : ℕ → Option String} {i : ℕ} {statements : List Create}
    {c c' : Catalogue} (h : runStatements fails i statements c = .ok c') :
    Create.execAll statements c = .ok c' := by
  induction statements generalizing i c with
  | nil => rw [← Except.ok.inj h, Create.execAll]
  | cons s rest ih =>
    simp only [runStatements] at h
    split at h
    · cases h
    · split at h
      · cases h
      · rename_i hs
        simp only [Create.execAll, hs]
        exact ih h

theorem insertMigration_ok {row : MigrationRow} {d d' : Database}
    (h : insertMigration row d = .ok d') :
    row.version ∉ d.schemaMigrations.map MigrationRow.version ∧
      d' = { d with schemaMigrations := d.schemaMigrations ++ [row] } := by
  unfold insertMigration Sql.insertUnique at h
  split_ifs at h with ht hany
  refine ⟨fun hm => hany ?_, (Except.ok.inj h).symm⟩
  obtain ⟨other, ho, hv⟩ := List.mem_map.mp hm
  exact List.any_eq_true.mpr ⟨other, ho, by simpa using hv⟩

/-- A migration that takes effect was not recorded, ran all its statements and is recorded. -/
structure Applied (step : Migration) (d d' : Database) : Prop where
  fresh : step.version ∉ d.schemaMigrations.map MigrationRow.version
  statements : Create.execAll step.statements d.catalogue = .ok d'.catalogue
  recorded : ∃ time, d'.schemaMigrations = d.schemaMigrations ++ [⟨step.version, step.name, time⟩]

/-- A transaction takes effect as a whole or not at all, and it does if it reports success. -/
theorem applyMigration_cases (fails : ℕ → Option String) (lands : Bool) (now : Time)
    (step : Migration) (d : Database) :
    (applyMigration fails lands now step d).2 = d ∧
        (∃ e, (applyMigration fails lands now step d).1 = .error e) ∨
      Applied step d (applyMigration fails lands now step d).2 := by
  unfold applyMigration
  split
  · exact Or.inl ⟨rfl, _, rfl⟩
  · split
    · exact Or.inl ⟨rfl, _, rfl⟩
    · rename_i catalogue hrun
      split
      · exact Or.inl ⟨rfl, _, rfl⟩
      · split
        · exact Or.inl ⟨rfl, _, rfl⟩
        · rename_i d' hinsert
          obtain ⟨hfresh, rfl⟩ := insertMigration_ok hinsert
          have happlied : Applied step d
              { d with
                catalogue
                schemaMigrations :=
                  d.schemaMigrations ++ [⟨step.version, step.name, formatTime now⟩] } :=
            ⟨hfresh, runStatements_ok hrun, formatTime now, rfl⟩
          split
          · cases lands
            · exact Or.inl ⟨rfl, _, rfl⟩
            · exact Or.inr happlied
          · exact Or.inr happlied

/-! ## The invariant -/

section Invariant
variable {steps : List Migration} {d d' : Database} {k : ℕ}

/-- The statements of the first migrations, after that of the table of migrations. -/
def statementsOf (steps : List Migration) : List Create :=
  migrationTable :: steps.flatMap Migration.statements

/-- The first `k` migrations are recorded, and they are all that has happened. -/
structure Migrated (steps : List Migration) (k : ℕ) (d : Database) : Prop where
  rows : d.schemaMigrations.map (fun row => (row.version, row.name)) =
    (steps.take k).map (fun step => (step.version, step.name))
  catalogue : Create.execAll (statementsOf (steps.take k)) ∅ = .ok d.catalogue

/-- A list of migrations that can be applied one after the other. -/
structure Lawful (steps : List Migration) : Prop where
  versions : (steps.map Migration.version).Nodup
  runs : ∃ c, Create.execAll (statementsOf steps) ∅ = .ok c

/-- The file is new, or some first migrations are recorded. -/
def Tidy (steps : List Migration) (d : Database) : Prop :=
  d.catalogue = ∅ ∧ d.schemaMigrations = [] ∨ ∃ k ≤ steps.length, Migrated steps k d

theorem Migrated.versions (h : Migrated steps k d) :
    d.schemaMigrations.map MigrationRow.version = (steps.take k).map Migration.version := by
  simpa [List.map_map, Function.comp_def] using congrArg (List.map Prod.fst) h.rows

/-- Exactly the objects of the recorded migrations are there, each as it is declared. -/
theorem Migrated.lookup (h : Migrated steps k d) (name : String) :
    d.catalogue.lookup name = Create.created (statementsOf (steps.take k)) name := by
  rw [Create.lookup_execAll h.catalogue, Finmap.lookup_empty, Option.none_or]

theorem Migrated.lookup_migrationTable (h : Migrated steps k d) :
    d.catalogue.lookup migrationTable.name = some migrationTable.object := by
  rw [h.lookup]
  rfl

theorem Migrated.hasMigrationTable (h : Migrated steps k d) : hasMigrationTable d = true := by
  unfold Setup.hasMigrationTable
  rw [h.lookup_migrationTable]
  rfl

/-- The next migration finds what it needs. -/
theorem Lawful.next (h : Lawful steps) (hd : Migrated steps k d) {step : Migration}
    (hk : steps[k]? = some step) :
    ∃ c, Create.execAll step.statements d.catalogue = .ok c ∧
      Create.execAll (statementsOf (steps.take (k + 1))) ∅ = .ok c := by
  obtain ⟨c, hc⟩ := h.runs
  have hsplit : statementsOf steps = statementsOf (steps.take k) ++
      (step.statements ++ (steps.drop (k + 1)).flatMap Migration.statements) := by
    obtain ⟨hlt, hget⟩ := List.getElem?_eq_some_iff.mp hk
    conv_lhs => rw [← List.take_append_drop k steps, List.drop_eq_getElem_cons hlt, hget]
    simp [statementsOf]
  rw [hsplit, Create.execAll_append, hd.catalogue] at hc
  dsimp only at hc
  rw [Create.execAll_append] at hc
  split at hc
  · cases hc
  · rename_i c' hstep
    refine ⟨c', hstep, ?_⟩
    have hnext : statementsOf (steps.take (k + 1)) =
        statementsOf (steps.take k) ++ step.statements := by
      simp [statementsOf, List.take_add_one, hk]
    rw [hnext, Create.execAll_append, hd.catalogue]
    exact hstep

theorem Migrated.recorded_iff (h : Lawful steps) (hd : Migrated steps k d) {i : ℕ}
    {step : Migration} (hi : steps[i]? = some step) :
    step.version ∈ d.schemaMigrations.map MigrationRow.version ↔ i < k := by
  obtain ⟨hlt, rfl⟩ := List.getElem?_eq_some_iff.mp hi
  rw [hd.versions]
  constructor
  · intro hm
    obtain ⟨m, hm, hv⟩ := List.mem_map.mp hm
    obtain ⟨j, hj, hget⟩ := List.mem_take_iff_getElem.mp hm
    have hsame : m = steps[i] := List.inj_on_of_nodup_map h.versions (List.mem_of_mem_take hm)
      (List.getElem_mem hlt) hv
    have hij : j = i := h.versions.of_map.getElem_inj_iff.mp (hget.trans hsame)
    omega
  · intro hik
    exact List.mem_map_of_mem (List.mem_take_iff_getElem.mpr ⟨i, by omega, rfl⟩)

/-- The migration that takes effect is the next one. -/
theorem Migrated.applied (h : Lawful steps) (hd : Migrated steps k d) {i : ℕ} {step : Migration}
    (hi : steps[i]? = some step)
    (hbefore : ∀ m ∈ steps.take i, m.version ∈ d.schemaMigrations.map MigrationRow.version)
    (ha : Applied step d d') : i = k ∧ Migrated steps (k + 1) d' := by
  obtain ⟨hlt, -⟩ := List.getElem?_eq_some_iff.mp hi
  have hik : i = k := by
    have hge : k ≤ i := not_lt.mp (mt (hd.recorded_iff h hi).mpr ha.fresh)
    by_contra hne
    -- the migration at `k` comes before this one, so that it would be recorded
    have hk : k < steps.length := by omega
    have hmem : steps[k] ∈ steps.take i := List.mem_take_iff_getElem.mpr ⟨k, by omega, rfl⟩
    exact lt_irrefl k ((hd.recorded_iff h (List.getElem?_eq_getElem hk)).mp (hbefore _ hmem))
  subst hik
  refine ⟨rfl, ?_, ?_⟩
  · obtain ⟨time, hr⟩ := ha.recorded
    rw [hr, List.map_append, hd.rows, List.take_add_one, hi]
    simp
  · obtain ⟨c, hc, hall⟩ := h.next hd hi
    rw [ha.statements] at hc
    rw [hall, Except.ok.inj hc]

/-- Creating the table of migrations does nothing but the first time. -/
theorem Tidy.createTable (h : Tidy steps d) {c : Catalogue}
    (hc : Create.execAll [migrationTable] d.catalogue = .ok c)
    (hcat : d'.catalogue = c) (hrows : d'.schemaMigrations = d.schemaMigrations) :
    ∃ k ≤ steps.length, Migrated steps k d' := by
  rcases h with ⟨hempty, hnone⟩ | ⟨k, hk, hd⟩
  · refine ⟨0, Nat.zero_le _, ?_, ?_⟩
    · rw [hrows, hnone]
      rfl
    · rw [hcat, ← hc, hempty]
      rfl
  · have hsame : c = d.catalogue := by
      have htable := hd.hasMigrationTable
      simp only [Create.execAll] at hc
      split at hc
      · cases hc
      · rename_i c' hs
        obtain rfl := Except.ok.inj hc
        rcases Create.exec_ok hs with ⟨rfl, -⟩ | ⟨hl, -⟩
        · rfl
        · simp [hasMigrationTable, hl] at htable
    exact ⟨k, hk, by rw [hrows]; exact hd.rows, by rw [hcat, hsame]; exact hd.catalogue⟩

end Invariant

/-! ## What a process knows -/

abbrev SetupEvent := Event Call Call.Reply

/-- The versions that a reply says are recorded. -/
def knownBy : SetupEvent → List ℕ
  | ⟨.appliedMigrations, .ok versions⟩ => versions
  | ⟨.applyMigration step, .ok ()⟩ => [step.version]
  | _ => []

def known (past : List SetupEvent) : List ℕ := past.flatMap knownBy

theorem known_snoc (past : List SetupEvent) (event : SetupEvent) :
    known (past ++ [event]) = known past ++ knownBy event := by
  simp [known]

/-- The process has created the table and knows that these migrations are recorded. -/
def Complete (steps : List Migration) (past : List SetupEvent) : Prop :=
  ⟨.createTable, .ok ()⟩ ∈ past ∧ ∀ m ∈ steps, m.version ∈ known past

/-- A process applies a migration when all earlier ones are recorded, and it serves when all it
has are. -/
def Allowed (steps : List Migration) (past : List SetupEvent) : Call → Prop
  | .applyMigration step => ∃ i, steps[i]? = some step ∧ Complete (steps.take i) past
  | .serve n => Complete (steps.take n) past
  | _ => True

section Contract
variable {steps : List Migration} {past : List SetupEvent}

theorem applyPending_obeys {applied : List ℕ} {before rest : List Migration}
    (hsteps : before ++ rest <+: steps) (htable : ⟨.createTable, .ok ()⟩ ∈ past)
    (happlied : applied ⊆ known past) (hbefore : ∀ m ∈ before, m.version ∈ known past) :
    (applyPending applied rest).Obeys (Allowed steps) past
      (fun r past' => r = .ok () → Complete (before ++ rest) past') := by
  induction rest generalizing before past with
  | nil =>
    intro _
    rw [List.append_nil]
    exact ⟨htable, hbefore⟩
  | cons step rest ih =>
    rw [List.append_cons] at hsteps ⊢
    have hstep : steps[before.length]? = some step := by
      obtain ⟨more, rfl⟩ := hsteps
      simp
    have htake : steps.take before.length = before := by
      obtain ⟨more, rfl⟩ := hsteps
      simp
    unfold applyPending
    split_ifs with hdone
    · refine ih hsteps htable happlied (fun m hm => ?_)
      rcases List.mem_append.mp hm with hm | hm
      · exact hbefore m hm
      · exact List.mem_singleton.mp hm ▸ happlied hdone
    · refine ⟨⟨before.length, hstep, by rw [htake]; exact ⟨htable, hbefore⟩⟩, ?_⟩
      rintro (e | u)
      · intro h
        cases h
      · have hknown : known past ⊆ known (past ++ [⟨.applyMigration step, .ok u⟩]) := by
          rw [known_snoc]
          exact List.subset_append_left _ _
        refine ih hsteps (List.mem_append_left _ htable) (fun v hv => hknown (happlied hv))
          (fun m hm => ?_)
        rcases List.mem_append.mp hm with hm | hm
        · exact hknown (hbefore m hm)
        · rw [List.mem_singleton.mp hm, known_snoc]
          exact List.mem_append_right _ (List.mem_singleton_self _)

theorem migrate_obeys (n : ℕ) :
    (migrate (steps.take n)).Obeys (Allowed steps) past
      (fun r past' => r = .ok () → Complete (steps.take n) past') := by
  refine ⟨trivial, ?_⟩
  rintro (cause | u)
  · intro h
    cases h
  · refine ⟨trivial, ?_⟩
    rintro (e | applied)
    · intro h
      cases h
    · have hsteps : [] ++ steps.take n <+: steps := List.take_prefix n steps
      refine applyPending_obeys hsteps ?_ ?_ (by simp)
      · simp
      · rw [known_snoc]
        exact List.subset_append_right _ _

theorem openStore_obeys (n : ℕ) :
    (openStore (steps.take n)).Obeys (Allowed steps) past
      (fun r past' => r = .ok () → Complete (steps.take n) past') := by
  refine ⟨trivial, ?_⟩
  rintro (cause | u)
  · intro h
    cases h
  · refine ⟨trivial, ?_⟩
    rintro (cause | u)
    · refine ⟨trivial, fun _ h => ?_⟩
      cases h
    · refine (migrate_obeys n).bind ?_
      rintro (e | u) past' h
      · refine ⟨trivial, fun _ h => ?_⟩
        cases h
      · exact fun _ => h rfl

theorem process_obeys (n : ℕ) : (process n).Obeys (Allowed migrations) [] (fun _ _ => True) := by
  refine (openStore_obeys n).bind ?_
  rintro (e | u) past' h
  · trivial
  · exact ⟨h rfl, fun _ => trivial⟩

end Contract

/-! ## Runs -/

section Runs
variable {steps : List Migration} {past : List SetupEvent} {d d' : Database} {world : Conditions}

/-- What a process knows is true of the file. -/
structure Informed (steps : List Migration) (d : Database) (past : List SetupEvent) : Prop where
  table : ⟨.createTable, .ok ()⟩ ∈ past → ∃ k ≤ steps.length, Migrated steps k d
  known : ∀ v ∈ known past, v ∈ d.schemaMigrations.map MigrationRow.version

/-- The schema only grows. -/
structure Grown (steps : List Migration) (d d' : Database) : Prop where
  migrated : (∃ k ≤ steps.length, Migrated steps k d) → ∃ k ≤ steps.length, Migrated steps k d'
  versions : d.schemaMigrations.map MigrationRow.version ⊆
    d'.schemaMigrations.map MigrationRow.version

theorem Informed.grown (h : Informed steps d past) (hg : Grown steps d d') :
    Informed steps d' past :=
  ⟨fun ht => hg.migrated (h.table ht), fun v hv => hg.versions (h.known v hv)⟩

theorem Migrated.congr {k : ℕ} (h : Migrated steps k d) (hc : d'.catalogue = d.catalogue)
    (hr : d'.schemaMigrations = d.schemaMigrations) : Migrated steps k d' :=
  ⟨by rw [hr]; exact h.rows, by rw [hc]; exact h.catalogue⟩

theorem Grown.of_eq (hc : d'.catalogue = d.catalogue)
    (hr : d'.schemaMigrations = d.schemaMigrations) : Grown steps d d' where
  migrated := fun ⟨k, hk, hd⟩ => ⟨k, hk, hd.congr hc hr⟩
  versions := by
    rw [hr]
    exact List.Subset.refl _

theorem Grown.trans {d'' : Database} (h : Grown steps d d') (h' : Grown steps d' d'') :
    Grown steps d d'' :=
  ⟨fun hm => h'.migrated (h.migrated hm), fun _ hv => h'.versions (h.versions hv)⟩

theorem Tidy.of_eq (h : Tidy steps d) (hc : d'.catalogue = d.catalogue)
    (hr : d'.schemaMigrations = d.schemaMigrations) : Tidy steps d' := by
  rcases h with ⟨hempty, hnone⟩ | ⟨k, hk, hd⟩
  · exact Or.inl ⟨hc.trans hempty, hr.trans hnone⟩
  · exact Or.inr ⟨k, hk, hd.congr hc hr⟩

/-- A call that leaves the file alone tells the process at most what is recorded. -/
theorem Informed.unchanged (h : Informed steps d past) {event : SetupEvent}
    (hc : d'.catalogue = d.catalogue) (hr : d'.schemaMigrations = d.schemaMigrations)
    (htable : event ≠ ⟨.createTable, .ok ()⟩)
    (hknown : ∀ v ∈ knownBy event, v ∈ d.schemaMigrations.map MigrationRow.version) :
    Informed steps d' (past ++ [event]) where
  table := by
    intro hm
    rcases List.mem_append.mp hm with hm | hm
    · exact (h.grown (Grown.of_eq hc hr)).table hm
    · exact absurd (List.mem_singleton.mp hm).symm htable
  known := by
    intro v hv
    rw [known_snoc] at hv
    rw [hr]
    rcases List.mem_append.mp hv with hv | hv
    · exact h.known v hv
    · exact hknown v hv

theorem createTable_step (fails : ℕ → Option String) (ht : Tidy steps d)
    (hi : Informed steps d past) :
    Tidy steps (createTable fails d).2 ∧ Grown steps d (createTable fails d).2 ∧
      Informed steps (createTable fails d).2
        (past ++ [⟨.createTable, (createTable fails d).1⟩]) := by
  unfold createTable
  split
  · exact ⟨ht, Grown.of_eq rfl rfl, hi.unchanged rfl rfl (by simp) (by simp [knownBy])⟩
  · rename_i c hrun
    have hm : ∃ k ≤ steps.length, Migrated steps k { d with catalogue := c } :=
      ht.createTable (runStatements_ok hrun) rfl rfl
    refine ⟨Or.inr hm, ⟨fun _ => hm, List.Subset.refl _⟩, fun _ => hm, fun v hv => ?_⟩
    rw [known_snoc, show knownBy ⟨.createTable, .ok ()⟩ = [] from rfl, List.append_nil] at hv
    exact hi.known v hv

theorem applyMigration_step (hl : Lawful steps) (ht : Tidy steps d) (hi : Informed steps d past)
    {step : Migration} (ha : Allowed steps past (.applyMigration step)) (fails : ℕ → Option String)
    (lands : Bool) (now : Time) :
    Tidy steps (applyMigration fails lands now step d).2 ∧
      Grown steps d (applyMigration fails lands now step d).2 ∧
      Informed steps (applyMigration fails lands now step d).2
        (past ++ [⟨.applyMigration step, (applyMigration fails lands now step d).1⟩]) := by
  rcases applyMigration_cases fails lands now step d with ⟨hsame, e, he⟩ | happlied
  · rw [hsame, he]
    exact ⟨ht, Grown.of_eq rfl rfl, hi.unchanged rfl rfl (by simp) (by simp [knownBy])⟩
  · obtain ⟨i, hstep, htable, hbefore⟩ := ha
    obtain ⟨k, hk, hd⟩ := hi.table htable
    obtain ⟨rfl, hd'⟩ := hd.applied hl hstep (fun m hm => hi.known _ (hbefore m hm)) happlied
    have hm : ∃ k ≤ steps.length, Migrated steps k (applyMigration fails lands now step d).2 :=
      ⟨i + 1, (List.getElem?_eq_some_iff.mp hstep).1, hd'⟩
    obtain ⟨time, hrows⟩ := happlied.recorded
    have hg : Grown steps d (applyMigration fails lands now step d).2 := by
      refine ⟨fun _ => hm, ?_⟩
      rw [hrows, List.map_append]
      exact List.subset_append_left _ _
    refine ⟨Or.inr hm, hg, fun _ => hm, fun v hv => ?_⟩
    rw [known_snoc] at hv
    rcases List.mem_append.mp hv with hv | hv
    · exact hg.versions (hi.known v hv)
    · rw [hrows]
      generalize (applyMigration fails lands now step d).1 = reply at hv
      cases reply with
      | error e => simp [knownBy] at hv
      | ok u => simp [List.mem_singleton.mp hv]

/-- Every allowed call keeps the file tidy, and what the processes know stays true. -/
theorem exec_step (hl : Lawful steps) (ht : Tidy steps d) (hi : Informed steps d past) {c : Call}
    (ha : Allowed steps past c) :
    Tidy steps (exec world c d).2 ∧ Grown steps d (exec world c d).2 ∧
      Informed steps (exec world c d).2 (past ++ [⟨c, (exec world c d).1⟩]) := by
  have ht' : Tidy steps { d with calls := d.calls + 1 } := ht.of_eq rfl rfl
  have hcount : Grown steps d { d with calls := d.calls + 1 } := Grown.of_eq rfl rfl
  have hi' := hi.grown hcount
  cases c with
  | createTable =>
    obtain ⟨htidy, hgrown, hinformed⟩ :=
      createTable_step (world.fails d.calls) ht' hi'
    exact ⟨htidy, hcount.trans hgrown, hinformed⟩
  | applyMigration step =>
    obtain ⟨htidy, hgrown, hinformed⟩ := applyMigration_step hl ht' hi' ha
      (world.fails d.calls) (world.lands d.calls) (world.clock d.calls)
    exact ⟨htidy, hcount.trans hgrown, hinformed⟩
  | appliedMigrations =>
    refine ⟨ht', Grown.of_eq rfl rfl, hi.unchanged rfl rfl (by simp) ?_⟩
    simp only [exec]
    cases hr : appliedMigrations (world.fails d.calls) { d with calls := d.calls + 1 } with
    | error e => simp [knownBy]
    | ok versions => exact fun v hv => appliedMigrations_ok hr ▸ hv
  | sqlOpen =>
    simp only [exec]
    split <;>
      exact ⟨ht.of_eq rfl rfl, Grown.of_eq rfl rfl,
        hi.unchanged rfl rfl (by simp) (by simp [knownBy])⟩
  | ping | close | serve =>
    exact ⟨ht.of_eq rfl rfl, Grown.of_eq rfl rfl,
      hi.unchanged rfl rfl (by simp) (by simp [knownBy])⟩

end Runs

theorem migrations_lawful : Lawful migrations where
  versions := by decide
  runs := by
    have hruns : (Create.execAll (statementsOf migrations) ∅).toOption.isSome = true := by
      decide +kernel
    cases hc : Create.execAll (statementsOf migrations) ∅ with
    | error e => simp [hc, Except.toOption] at hruns
    | ok c => exact ⟨c, rfl⟩

/-- The file has the schema of exactly the first `k` migrations. -/
structure UpTo (k : ℕ) (d : Database) : Prop where
  rows : d.schemaMigrations.map (fun row => (row.version, row.name)) =
    (migrations.take k).map (fun step => (step.version, step.name))
  objects : ∀ name, d.catalogue.lookup name =
    Create.created (statementsOf (migrations.take k)) name

theorem Migrated.upTo {k : ℕ} {d : Database} (h : Migrated migrations k d) : UpTo k d :=
  ⟨h.rows, h.lookup⟩

/-- A process that serves has found or made the schema of its program. -/
def Served (d : Database) (events : List SetupEvent) : Prop :=
  ∀ n, ⟨.serve n, ()⟩ ∈ events → (∃ k ≤ migrations.length, Migrated migrations k d) ∧
    ∀ m ∈ migrations.take n, m.version ∈ d.schemaMigrations.map MigrationRow.version

theorem Served.step {world : Conditions} {past events : List SetupEvent} {d : Database} {c : Call}
    (ht : Tidy migrations d) (hi : Informed migrations d past) (ha : Allowed migrations past c)
    (h : Served d events) :
    Served (exec world c d).2 (events ++ [⟨c, (exec world c d).1⟩]) := by
  have hg : Grown migrations d (exec world c d).2 := (exec_step migrations_lawful ht hi ha).2.1
  have hlater : ∀ n, (∃ k ≤ migrations.length, Migrated migrations k d) ∧
      (∀ m ∈ migrations.take n, m.version ∈ d.schemaMigrations.map MigrationRow.version) →
      (∃ k ≤ migrations.length, Migrated migrations k (exec world c d).2) ∧
        ∀ m ∈ migrations.take n,
          m.version ∈ (exec world c d).2.schemaMigrations.map MigrationRow.version :=
    fun n hn => ⟨hg.migrated hn.1, fun m hm => hg.versions (hn.2 m hm)⟩
  intro n hm
  rcases List.mem_append.mp hm with hm | hm
  · exact hlater n (h n hm)
  · obtain ⟨rfl, -⟩ := Event.mk.inj (List.mem_singleton.mp hm)
    exact hlater n ⟨hi.table ha.1, fun m hm => hi.known _ (ha.2 m hm)⟩

theorem opened_tidy (world : Conditions) (schedule : List (Action ℕ)) :
    Tidy migrations (opened world schedule).state ∧
      Served (opened world schedule).state (opened world schedule).events := by
  have hnil : ∀ d, Informed migrations d [] :=
    fun d => ⟨fun h => absurd h List.not_mem_nil, fun v h => absurd h List.not_mem_nil⟩
  refine Config.contract_trace_rule process_obeys hnil ?_ ?_ schedule _
    (Config.init_contracted _ _) (Or.inl ⟨rfl, rfl⟩) ?_
  · intro d past c ht hi ha
    obtain ⟨ht', hg, hi'⟩ := exec_step migrations_lawful ht hi ha
    exact ⟨ht', hi', fun other ho => ho.grown hg⟩
  · exact fun d past events c ht hi ha h => h.step ht hi ha
  · exact fun n h => absurd h List.not_mem_nil

/-- However many processes open the file at once, whichever versions of the program they run
and whatever fails: the file is new, or the first migrations of the list are recorded, each
once and in order, and the schema is theirs and nothing else. Whoever serves has all migrations
its program knows. -/
theorem opened_upTo (world : Conditions) (schedule : List (Action ℕ)) :
    ((opened world schedule).state.catalogue = ∅ ∧
      (opened world schedule).state.schemaMigrations = [] ∧
      ∀ n, ⟨.serve n, ()⟩ ∉ (opened world schedule).events) ∨
    ∃ k ≤ migrations.length, UpTo k (opened world schedule).state ∧
      ∀ n, ⟨.serve n, ()⟩ ∈ (opened world schedule).events → min n migrations.length ≤ k := by
  obtain ⟨ht, hs⟩ := opened_tidy world schedule
  by_cases hm : ∃ k ≤ migrations.length, Migrated migrations k (opened world schedule).state
  · right
    obtain ⟨k, hk, hd⟩ := hm
    refine ⟨k, hk, hd.upTo, fun n hn => ?_⟩
    by_contra hlt
    obtain ⟨hkn, hkl⟩ := lt_min_iff.mp (not_le.mp hlt)
    have hmem : migrations[k] ∈ migrations.take n :=
      List.mem_take_iff_getElem.mpr ⟨k, lt_min hkn hkl, rfl⟩
    exact lt_irrefl k ((hd.recorded_iff migrations_lawful (List.getElem?_eq_getElem hkl)).mp
      ((hs n hn).2 _ hmem))
  · left
    obtain ⟨hc, hr⟩ := ht.resolve_right hm
    exact ⟨hc, hr, fun n hn => hm (hs n hn).1⟩

/-! ## Opening without faults -/

section Quiet
variable {fails : ℕ → Option String} {steps : List Migration} {world : Conditions} {d : Database}
  {k : ℕ}

theorem scanVersions_quiet (hq : ∀ i, fails i = none) (i : ℕ) (rows : List MigrationRow) :
    scanVersions fails i rows = .ok (rows.map MigrationRow.version) := by
  induction rows generalizing i with
  | nil => simp [scanVersions, hq]
  | cons row rows ih => simp [scanVersions, hq, ih, Except.map]

theorem runStatements_quiet (hq : ∀ i, fails i = none) {i : ℕ} {statements : List Create}
    {c c' : Catalogue} (h : Create.execAll statements c = .ok c') :
    runStatements fails i statements c = .ok c' := by
  induction statements generalizing i c with
  | nil => rw [← Except.ok.inj h, runStatements]
  | cons s rest ih =>
    simp only [Create.execAll] at h
    split at h
    · cases h
    · rename_i hs
      simp only [runStatements, hq, hs]
      exact ih h

/-- The next migration succeeds. -/
theorem Migrated.apply (hl : Lawful steps) (hd : Migrated steps k d) (hq : ∀ i, fails i = none)
    {step : Migration} (hk : steps[k]? = some step) (lands : Bool) (now : Time) :
    ∃ d', applyMigration fails lands now step d = (.ok (), d') ∧ Migrated steps (k + 1) d' ∧
      d.schemaMigrations <+: d'.schemaMigrations ∧ d'.handles = d.handles ∧ d'.calls = d.calls := by
  obtain ⟨c, hrun, hall⟩ := hl.next hd hk
  have hfresh : step.version ∉ d.schemaMigrations.map MigrationRow.version :=
    mt (hd.recorded_iff hl hk).mp (lt_irrefl k)
  have hnext : Migrated steps (k + 1)
      { d with
        catalogue := c
        schemaMigrations := d.schemaMigrations ++ [⟨step.version, step.name, formatTime now⟩] } :=
    ⟨by simp [hd.rows, List.take_add_one, hk], hall⟩
  have hinsert : insertMigration ⟨step.version, step.name, formatTime now⟩
      { d with catalogue := c } = .ok
        { d with
          catalogue := c
          schemaMigrations :=
            d.schemaMigrations ++ [⟨step.version, step.name, formatTime now⟩] } := by
    have htable : Setup.hasMigrationTable { d with catalogue := c } = true :=
      hnext.hasMigrationTable
    unfold insertMigration Sql.insertUnique
    rw [if_pos htable, if_neg]
    rw [List.any_eq_true]
    rintro ⟨row, hrow, hv⟩
    exact hfresh (List.mem_map.mpr ⟨row, hrow, by simpa using hv⟩)
  refine ⟨_, ?_, hnext, List.prefix_append _ _, rfl, rfl⟩
  simp only [applyMigration, hq, runStatements_quiet hq hrun, hinsert]

/-- Nothing fails from this call on. -/
def Quiet (world : Conditions) (call : ℕ) : Prop :=
  ∀ i, call ≤ i → ∀ stage, world.fails i stage = none

theorem applyPending_run (hl : Lawful steps) {applied : List ℕ}
    (happlied : ∀ i step, steps[i]? = some step → (step.version ∈ applied ↔ i < k))
    {before rest : List Migration} (hsteps : before ++ rest <+: steps) (hq : Quiet world d.calls)
    (hd : Migrated steps (max k before.length) d) :
    ∃ d', (applyPending applied rest).run (exec world) d = (.ok (), d') ∧
      Migrated steps (max k (before ++ rest).length) d' ∧
      d.schemaMigrations <+: d'.schemaMigrations ∧ d'.handles = d.handles := by
  induction rest generalizing before d with
  | nil => exact ⟨d, rfl, by rwa [List.append_nil], List.prefix_refl _, rfl⟩
  | cons step rest ih =>
    rw [List.append_cons] at hsteps ⊢
    have hstep : steps[before.length]? = some step := by
      obtain ⟨more, rfl⟩ := hsteps
      simp
    unfold applyPending
    split_ifs with hdone
    · have hlt := (happlied _ _ hstep).mp hdone
      refine ih hsteps hq ?_
      rwa [List.length_append, List.length_singleton, max_eq_left (by omega),
        ← max_eq_left hlt.le]
    · have hge : k ≤ before.length := not_lt.mp (mt (happlied _ _ hstep).mpr hdone)
      rw [max_eq_right hge] at hd
      have hd₀ : Migrated steps before.length { d with calls := d.calls + 1 } := hd.congr rfl rfl
      obtain ⟨d₁, hrun, hd₁, hrows, hhandles, hcalls⟩ := hd₀.apply hl (hq d.calls le_rfl) hstep
        (world.lands d.calls) (world.clock d.calls)
      obtain ⟨d₂, hrest, hd₂, hrows₂, hhandles₂⟩ := ih hsteps
        (fun i hi => hq i ((Nat.le_succ _).trans (hcalls.ge.trans hi)))
        (by rwa [List.length_append, List.length_singleton, max_eq_right (by omega)])
      refine ⟨d₂, ?_, hd₂, hrows.trans hrows₂, hhandles₂.trans hhandles⟩
      simp only [Prog.run_bind, Prog.run_perform, exec, hrun]
      exact hrest

theorem createTable_run (hq : ∀ i, fails i = none) (ht : Tidy steps d) :
    ∃ c, createTable fails d = (.ok (), { d with catalogue := c }) ∧
      ∃ k ≤ steps.length, Migrated steps k { d with catalogue := c } := by
  have hexec : ∃ c, Create.execAll [migrationTable] d.catalogue = .ok c := by
    rcases ht with ⟨hempty, -⟩ | ⟨k, -, hd⟩
    · rw [hempty]
      exact ⟨_, rfl⟩
    · refine ⟨d.catalogue, ?_⟩
      have hl := hd.lookup_migrationTable
      simp only [migrationTable, Create.name, Create.object] at hl
      simp [Create.execAll, migrationTable, Create.exec, hl]
  obtain ⟨c, hc⟩ := hexec
  exact ⟨c, by rw [createTable, runStatements_quiet hq hc], ht.createTable hc rfl rfl⟩

theorem appliedMigrations_run (hq : ∀ i, fails i = none) (hd : Migrated steps k d) :
    appliedMigrations fails d = .ok (d.schemaMigrations.map MigrationRow.version) := by
  simp only [appliedMigrations, hq, hd.hasMigrationTable, if_true, scanVersions_quiet hq]

theorem migrate_run (hl : Lawful steps) (n : ℕ) (hq : Quiet world d.calls) (ht : Tidy steps d) :
    ∃ d' k, (migrate (steps.take n)).run (exec world) d = (.ok (), d') ∧ k ≤ steps.length ∧
      min n steps.length ≤ k ∧ Migrated steps k d' ∧
      d.schemaMigrations <+: d'.schemaMigrations ∧ d'.handles = d.handles := by
  have ht₀ : Tidy steps { d with calls := d.calls + 1 } := ht.of_eq rfl rfl
  obtain ⟨c, hcreate, k, hk, hd₁⟩ := createTable_run (hq d.calls le_rfl) ht₀
  obtain ⟨d₂, hd₂def⟩ : ∃ d₂ : Database, d₂ = { d with catalogue := c, calls := d.calls + 2 } :=
    ⟨_, rfl⟩
  have hd₂ : Migrated steps k d₂ := by
    rw [hd₂def]
    exact hd₁.congr rfl rfl
  have hq₂ : Quiet world d₂.calls := fun i hi => hq i (by rw [hd₂def] at hi; dsimp at hi; omega)
  have hread := appliedMigrations_run (hq (d.calls + 1) (Nat.le_succ _)) hd₂
  have hsteps : [] ++ steps.take n <+: steps := List.take_prefix n steps
  obtain ⟨d', hrun, hd', hrows, hhandles⟩ := applyPending_run hl
    (fun i step hi => hd₂.recorded_iff hl hi) hsteps hq₂ (by simpa using hd₂)
  refine ⟨d', max k (steps.take n).length, ?_, ?_, ?_, hd', ?_, ?_⟩
  · rw [hd₂def] at hread hrun
    simp only [migrate, Prog.run_bind, Prog.run_perform, exec, hcreate, hread]
    exact hrun
  · exact max_le hk (List.length_take_le' n steps)
  · rw [List.length_take]
    exact le_max_right _ _
  · rw [hd₂def] at hrows
    exact hrows
  · rw [hhandles, hd₂def]

end Quiet

/-- From every state that any processes have left behind, a process that meets no fault opens
the store: what was recorded stays, and its own migrations are all there. -/
theorem openStore_recovers (world : Conditions) (schedule : List (Action ℕ)) (known : ℕ)
    (hq : Quiet world (opened world schedule).state.calls) :
    ∃ d' k, (openStore (migrations.take known)).run (exec world) (opened world schedule).state =
        (.ok (), d') ∧
      k ≤ migrations.length ∧ min known migrations.length ≤ k ∧ UpTo k d' ∧
      (opened world schedule).state.schemaMigrations <+: d'.schemaMigrations ∧
      d'.handles = (opened world schedule).state.handles + 1 := by
  have ht := (opened_tidy world schedule).1
  generalize (opened world schedule).state = d at hq ht
  obtain ⟨d₂, hd₂def⟩ : ∃ d₂ : Database,
    d₂ = { d with handles := d.handles + 1, calls := d.calls + 2 } := ⟨_, rfl⟩
  have ht₂ : Tidy migrations d₂ := by
    rw [hd₂def]
    exact ht.of_eq rfl rfl
  have hq₂ : Quiet world d₂.calls := fun i hi => hq i (by rw [hd₂def] at hi; dsimp at hi; omega)
  obtain ⟨d', k, hrun, hk, hmin, hd', hrows, hhandles⟩ :=
    migrate_run migrations_lawful known hq₂ ht₂
  refine ⟨d', k, ?_, hk, hmin, hd'.upTo, ?_, ?_⟩
  · rw [hd₂def] at hrun
    have hopen : attempt (world.fails d.calls) = .ok () := by simp [attempt, hq d.calls le_rfl]
    have hping : attempt (world.fails (d.calls + 1)) = .ok () := by
      simp [attempt, hq (d.calls + 1) (Nat.le_succ _)]
    simp only [openStore, Prog.run_bind, Prog.run_perform, exec, hopen, hping, hrun]
    rfl
  · rw [hd₂def] at hrows
    exact hrows
  · rw [hhandles, hd₂def]

/-- The disk is full when the second migration creates its first index. -/
def fullDisk : Conditions where
  clock := fun _ => 0
  fails := fun call stage => if call = 5 ∧ stage = 2 then some "disk full" else none
  lands := fun _ => false

def interrupted : List (Action ℕ) := Action.begin 4 0 7

theorem openStore_recovers_fullDisk :
    (opened fullDisk interrupted).state.schemaMigrations.map MigrationRow.version = [1] ∧
      (opened fullDisk interrupted).state.catalogue.lookup "messages" = none ∧
      ∃ d', (openStore migrations).run (exec fullDisk) (opened fullDisk interrupted).state =
          (.ok (), d') ∧ UpTo 4 d' := by
  refine ⟨by decide +kernel, by decide +kernel, ?_⟩
  have hcalls : (opened fullDisk interrupted).state.calls = 7 := by decide +kernel
  obtain ⟨d', k, hrun, hk, hmin, hup, -⟩ := openStore_recovers fullDisk interrupted 4 (by
    rw [hcalls]
    intro i hi stage
    simp only [fullDisk]
    rw [if_neg (by omega)])
  obtain rfl : k = 4 := le_antisymm hk hmin
  exact ⟨d', hrun, hup⟩

end RabbitmqLite.Storage.Sqlite.Setup
