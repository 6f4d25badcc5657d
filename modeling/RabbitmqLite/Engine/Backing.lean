import RabbitmqLite.Engine.Moves
import RabbitmqLite.Storage.WaitingLine

/-! # Hosts with a waiting line

What publishers and a consumer of one queue see of their host: the line of the
queue, the readings of the clock and the generated ids. The engine on either
driver shows them this, so what is proved of the line holds of both.
-/

namespace RabbitmqLite.Engine
open Broker Collections Storage Atomic
open Sqlite (JsonMaps InYears)

/-- The line, and how many readings of the clock and how many ids are used up. -/
structure Scene where
  line : Line
  ticks : ℕ
  ids : ℕ

/-- What the lease of a claim on the queue may be. -/
def leasesOf (registry : Registry) (q : String) : Set Duration :=
  {lease | ∃ queue, registry.queue q = .ok queue ∧ lease = queue.visibilityTimeout}

namespace Scene
section Effects
variable (env : Env) (registry : Registry) (q : String) (a : Scene)

def Admits : Effect → Prop
  | .store c | .settle _ _ c => a.line.Admits (Set.range env.clock) (leasesOf registry q) q c
  | .clock | .newID | .route _ _ | .queue _ | .notify _ => True
  | _ => False

/-- How the scene goes on with an effect and its reply. -/
inductive Shows : (e : Effect) → e.Reply → Scene → Prop where
  | store {c : Call} {reply : c.Reply} {l : Line} (h : a.line.Serves q c reply l) :
      Shows (.store c) reply { a with line := l }
  | settle {party : Party} {attempt : ℤ} {c : Call} {reply : c.Reply} {l : Line}
      (h : a.line.Serves q c reply l) : Shows (.settle party attempt c) reply { a with line := l }
  | clock : Shows .clock (env.clock a.ticks) { a with ticks := a.ticks + 1 }
  | newID : Shows .newID (env.newID a.ids) { a with ids := a.ids + 1 }
  | route (exchange routingKey : String) (reply : Except Broker.Error (List Queue)) :
      Shows (.route exchange routingKey) reply a
  | queue (name : String) : Shows (.queue name) (registry.queue name) a
  | notify (queues : List String) : Shows (.notify queues) () a

end Effects

/-- Nothing was appended since. -/
structure Frame (a a' : Scene) : Prop where
  latest : a'.line.latest = a.line.latest
  known : a'.line.known = a.line.known
  ticks : a.ticks ≤ a'.ticks
  ids : a.ids ≤ a'.ids

theorem Frame.refl (a : Scene) : Frame a a := ⟨rfl, rfl, le_rfl, le_rfl⟩

variable {env : Env} {registry : Registry} {q : String} {a a' : Scene} {e : Effect}
  {reply : e.Reply}

theorem Shows.frame (h : a.Shows env registry q e reply a')
    (hn : ∀ msgs, e.call? ≠ some (.append msgs)) : a.Frame a' := by
  cases h with
  | store h | settle h =>
    cases h with
    | appended msgs => exact absurd rfl (hn msgs)
    | refused | claimed | acknowledged | recorded | parked => exact ⟨rfl, rfl, le_rfl, le_rfl⟩
  | clock => exact ⟨rfl, rfl, Nat.le_succ _, le_rfl⟩
  | newID => exact ⟨rfl, rfl, le_rfl, Nat.le_succ _⟩
  | route | queue | notify => exact Frame.refl a

theorem Shows.waiting (h : a.Shows env registry q e reply a')
    (hn : ∀ msgs, e.call? ≠ some (.append msgs)) (hc : ∀ req, e.call? ≠ some (.claim req)) :
    a'.line.waiting = a.line.waiting := by
  cases h with
  | store h | settle h =>
    cases h with
    | appended msgs => exact absurd rfl (hn msgs)
    | @claimed req => exact absurd rfl (hc req)
    | refused | acknowledged | recorded | parked => rfl
  | clock | newID | route | queue | notify => rfl

theorem Shows.clock_eq {now : Time} (h : a.Shows env registry q .clock now a') :
    now = env.clock a.ticks := by
  cases h
  rfl

theorem Shows.queue_eq {name : String} {found : Except Broker.Error Queue}
    (h : a.Shows env registry q (.queue name) found a') : found = registry.queue name ∧ a' = a := by
  cases h
  exact ⟨rfl, rfl⟩

/-- A batch joins at the end, or it is refused. -/
theorem Shows.appended {msgs : List Message} {done : Except Storage.Error Unit}
    (h : a.Shows env registry q (.store (.append msgs)) done a') :
    done = .ok () ∧ a' = { a with line := a.line.join q msgs } ∨
      (∃ e, done = .error e) ∧ a' = a := by
  cases h with
  | store h =>
    cases h with
    | appended => exact Or.inl ⟨rfl, rfl⟩
    | refused _ e => exact Or.inr ⟨⟨e, rfl⟩, rfl⟩

/-- A claim takes from the front. -/
theorem Shows.claimed {req : ClaimRequest} {taken : Except Storage.Error (List Message)}
    (h : a.Shows env registry q (.store (.claim req)) taken a') :
    ∃ msgs, taken = .ok msgs ∧ a.line.waiting = msgs.map Message.id ++ a'.line.waiting := by
  cases h with
  | store h =>
    cases h with
    | claimed hfront => exact ⟨_, rfl, hfront⟩

end Scene

/-- A host that shows the scene of a queue, whatever the effects do that are admitted in it. -/
structure Backing {σ : Type} (host : Host σ) (env : Env) (registry : Registry) (q : String) where
  sees : σ → Scene → Prop
  serves : ∀ {w a e}, sees w a → a.Admits env registry q e →
    ∃ a', a.Shows env registry q e (host.perform e w).1 a' ∧ sees (host.perform e w).2 a'
  openSignal : ∀ {w a}, sees w a → ∀ queue, sees (host.openSignal queue w) a
  takeSignal : ∀ {w w' a queue}, sees w a → host.takeSignal queue w = some w' → sees w' a

theorem Backing.performed {σ : Type} {host : Host σ} {env : Env} {registry : Registry} {q : String}
    (B : Backing host env registry q) {w w' : σ} {a : Scene} {e : Effect} {reply : e.Reply}
    (hs : B.sees w a) (hp : host.perform e w = (reply, w')) (ha : a.Admits env registry q e) :
    ∃ a', a.Shows env registry q e reply a' ∧ B.sees w' a' := by
  have h := B.serves hs ha
  rwa [hp] at h

/-! ## Besides the store -/

/-- The clock, the ids and the registry are those of the scene. -/
structure Shared (registry : Registry) (w : World) (a : Scene) : Prop where
  registry : w.registry = registry
  ticks : w.ticks = a.ticks
  ids : w.ids = a.ids

section Shared
variable {env : Env} {registry : Registry} {q : String} {w w' : World} {a : Scene}

theorem Shared.of_store (h : Shared registry w a) (s : Memory.Store) (l : Line) :
    Shared registry { w with store := s } { a with line := l } := ⟨h.registry, h.ticks, h.ids⟩

theorem Shared.perform (h : Shared registry w a) {e : Effect} (hc : e.call? = none)
    (ha : a.Admits env registry q e) :
    ∃ a', a.Shows env registry q e (Engine.perform env e w).1 a' ∧ a'.line = a.line ∧
      Shared registry (Engine.perform env e w).2 a' := by
  cases e with
  | store | settle => cases hc
  | clock =>
    simp only [Engine.perform, h.ticks]
    exact ⟨_, .clock, rfl, h.registry, rfl, h.ids⟩
  | newID =>
    simp only [Engine.perform, h.ids]
    exact ⟨_, .newID, rfl, h.registry, h.ticks, rfl⟩
  | route exchange routingKey => exact ⟨a, .route _ _ _, rfl, h⟩
  | queue name =>
    simp only [Engine.perform, h.registry]
    exact ⟨a, .queue name, rfl, h⟩
  | notify queues => exact ⟨a, .notify queues, rfl, h.registry, h.ticks, h.ids⟩
  | float64 | submit | receive => exact ha.elim

theorem Shared.openSignal (h : Shared registry w a) (queue : String) :
    Shared registry (w.openSignal queue) a := by
  unfold World.openSignal
  split
  · exact h
  · exact ⟨h.registry, h.ticks, h.ids⟩

theorem Shared.takeSignal (h : Shared registry w a) {queue : String}
    (hw : w.takeSignal queue = some w') : Shared registry w' a := by
  unfold World.takeSignal at hw
  split_ifs at hw
  rw [← Option.some.inj hw]
  exact ⟨h.registry, h.ticks, h.ids⟩

end Shared

/-! ## The in-memory driver -/

/-- The engine on the in-memory driver shows a line. -/
def memoryBacking (env : Env) (registry : Registry) (q : String) :
    Backing (memoryHost env) env registry q where
  sees := fun w a => Backs q w.store a.line ∧ Shared registry w a
  serves := by
    rintro w a e ⟨hb, hs⟩ ha
    cases e with
    | store c =>
      obtain ⟨l, hserves, hb'⟩ := hb.serve ha
      exact ⟨_, .store hserves, hb', hs.of_store _ l⟩
    | settle party attempt c =>
      obtain ⟨l, hserves, hb'⟩ := hb.serve ha
      exact ⟨_, .settle hserves, hb', hs.of_store _ l⟩
    | clock | newID | route | queue | notify | float64 | submit | receive =>
      obtain ⟨a', hshows, hline, hs'⟩ := hs.perform rfl ha
      refine ⟨a', hshows, ?_, hs'⟩
      rw [hline, memoryHost, perform_store]
      exact hb
  openSignal := by
    rintro w a ⟨hb, hs⟩ queue
    exact ⟨(openSignal_store queue w).symm ▸ hb, hs.openSignal queue⟩
  takeSignal := by
    rintro w w' a queue ⟨hb, hs⟩ hw
    exact ⟨(takeSignal_store hw).symm ▸ hb, hs.takeSignal hw⟩

/-! ## The SQLite driver -/

/-- The in-memory store of `base` is not used. -/
structure SqliteWorld where
  db : Sqlite.Database
  base : World

/-- An engine that was just started on empty tables. -/
def SqliteWorld.init (registry : Registry) : SqliteWorld :=
  ⟨Sqlite.Database.new, World.init registry⟩

def SqliteWorld.callStore (json : JsonMaps) (c : Call) (w : SqliteWorld) : c.Reply × SqliteWorld :=
  ((Sqlite.call json c w.db).1, { w with db := (Sqlite.call json c w.db).2 })

def SqliteWorld.perform (json : JsonMaps) (env : Env) :
    (e : Effect) → SqliteWorld → e.Reply × SqliteWorld
  | .store c, w => w.callStore json c
  | .settle _ _ c, w => w.callStore json c
  | e, w => ((Engine.perform env e w.base).1, { w with base := (Engine.perform env e w.base).2 })

/-- The engine on the SQLite driver. -/
def sqliteHost (json : JsonMaps) (env : Env) : Host SqliteWorld where
  perform := SqliteWorld.perform json env
  openSignal := fun queue w => { w with base := w.base.openSignal queue }
  takeSignal := fun queue w => (w.base.takeSignal queue).map (fun base => { w with base := base })

/-- The clock stays in the years that are written with four digits, and so do the ends of the
leases of the queue. The zero instant stands for no lease. -/
structure Datable (env : Env) (registry : Registry) (q : String) : Prop where
  clock : ∀ n, InYears (env.clock n)
  lease : ∀ n, ∀ d ∈ leasesOf registry q, InYears (env.clock n + d) ∧ env.clock n + d ≠ zeroTime

/-- The engine on the SQLite driver shows a line. -/
def sqliteBacking (json : JsonMaps) {env : Env} {registry : Registry} {q : String}
    (hd : Datable env registry q) : Backing (sqliteHost json env) env registry q where
  sees := fun w a => BacksOnDisk json q w.db a.line ∧ Shared registry w.base a
  serves := by
    rintro w a e ⟨hb, hs⟩ ha
    have hyears : ∀ t ∈ Set.range env.clock, InYears t := by
      rintro _ ⟨n, rfl⟩
      exact hd.clock n
    have hends : ∀ t ∈ Set.range env.clock, ∀ d ∈ leasesOf registry q,
        InYears (t + d) ∧ t + d ≠ zeroTime := by
      rintro _ ⟨n, rfl⟩
      exact hd.lease n
    cases e with
    | store c =>
      obtain ⟨l, hserves, hb'⟩ := hb.serve hyears hends ha
      exact ⟨_, .store hserves, hb', hs.registry, hs.ticks, hs.ids⟩
    | settle party attempt c =>
      obtain ⟨l, hserves, hb'⟩ := hb.serve hyears hends ha
      exact ⟨_, .settle hserves, hb', hs.registry, hs.ticks, hs.ids⟩
    | clock | newID | route | queue | notify | float64 | submit | receive =>
      obtain ⟨a', hshows, hline, hs'⟩ := hs.perform rfl ha
      exact ⟨a', hshows, hline ▸ hb, hs'⟩
  openSignal := fun ⟨hb, hs⟩ queue => ⟨hb, hs.openSignal queue⟩
  takeSignal := by
    rintro w w' a queue ⟨hb, hs⟩ hw
    obtain ⟨base, hbase, rfl⟩ := Option.map_eq_some_iff.mp hw
    exact ⟨hb, hs.takeSignal hbase⟩

end RabbitmqLite.Engine
