import RabbitmqLite.App.Boot
import RabbitmqLite.Storage.Sqlite.Agreement
import RabbitmqLite.Storage.Sqlite.Topology

/-! # Starting again with the same configuration

A start that was accepted leaves a registry in which everything the
configuration lists is declared, and a database that records it. The next start
meets the same declarations, and accepts them as long as what it restored is
what was declared.
-/

namespace RabbitmqLite.App
open Broker Collections Sql Storage Storage.Sqlite Atomic

variable {json : JsonMaps} {cfg : Config}

/-! ## One declaration -/

/-- The declaration is in the registry. -/
def Declared (cfg : Config) (r : Registry) : Declaration → Prop
  | .exchange d => ∃ kind x, parseExchangeKind (.ofText d.kind) = .ok kind ∧
      (⟨d.name, kind, d.durable⟩ : ExchangeSpec).validate = .ok () ∧
        r.exchanges.lookup d.name = some x ∧ x.toExchangeSpec = ⟨d.name, kind, d.durable⟩
  | .queue d => (cfg.queueSpec d).withDefaults.validate = .ok () ∧
      ∃ queue, r.queues.lookup d.name = some queue ∧
        queue.toQueueSpec = (cfg.queueSpec d).withDefaults
  | .binding d => r.queueExists d.queue = true ∧
      ∃ x, r.exchanges.lookup d.exchange = some x ∧ d.spec.validate x.kind = .ok ()

/-- An accepted declaration adds at most one entry to the registry, and writes it to the database
if it is to last. -/
inductive Accepted (cfg : Config) (now : Time) (n : Node) : Declaration → Node → Prop where
  | exchange {d kind x registry} (hkind : parseExchangeKind (.ofText d.kind) = .ok kind)
      (h : n.registry.declareExchange ⟨d.name, kind, d.durable⟩ now = (.ok x, registry)) :
      Accepted cfg now n (.exchange d) ⟨registry, { n.db with
        exchanges := if x.durable then enterExchange x n.db.exchanges else n.db.exchanges }⟩
  | queue {d queue registry}
      (h : n.registry.declareQueue (cfg.queueSpec d) now = (.ok queue, registry)) :
      Accepted cfg now n (.queue d) ⟨registry, { n.db with
        queues := if queue.durable then enterQueue queue n.db.queues else n.db.queues }⟩
  | binding {d b registry} (h : n.registry.bind d.spec now = (.ok b, registry)) :
      Accepted cfg now n (.binding d) ⟨registry, (n.db.saveBinding b).2⟩

/-- A write that cannot fail. -/
theorem Node.inBoth_eq_ok {α : Type} {n n' : Node} {answer : Except Broker.Error α × Registry}
    {write : α → Node → Except Storage.Error Unit × Node} {saved : α → Database}
    (hw : ∀ a r, write a ⟨r, n.db⟩ = (.ok (), ⟨r, saved a⟩)) {a : α} :
    (site json).inBoth n answer write = (.ok a, n') ↔
      ∃ registry, answer = (.ok a, registry) ∧ n' = ⟨registry, saved a⟩ := by
  obtain ⟨reply, registry⟩ := answer
  unfold Engine.Site.inBoth
  cases reply with
  | error e => simp
  | ok b =>
    dsimp only
    rw [show (site json).withRegistry n registry = ⟨registry, n.db⟩ from rfl, hw]
    simp only [Prod.mk.injEq, Except.ok.injEq]
    constructor
    · rintro ⟨rfl, rfl⟩
      exact ⟨registry, ⟨rfl, rfl⟩, rfl⟩
    · rintro ⟨_, ⟨rfl, rfl⟩, rfl⟩
      exact ⟨rfl, rfl⟩

theorem Node.declareExchange_eq_ok {n n' : Node} (ho : n.db.closed = false) {spec : ExchangeSpec}
    {now : Time} {x : Exchange} :
    (site json).declareExchange n none spec now = (.ok x, n') ↔
      ∃ registry, n.registry.declareExchange spec now = (.ok x, registry) ∧
        n' = ⟨registry, { n.db with
          exchanges := if x.durable then enterExchange x n.db.exchanges else n.db.exchanges }⟩ := by
  apply Node.inBoth_eq_ok
  intro x r
  simp only [Engine.Site.write, site, call_saveExchange ho]
  split_ifs <;> rfl

theorem Node.declareQueue_eq_ok {n n' : Node} (ho : n.db.closed = false) {spec : QueueSpec}
    {now : Time} {queue : Queue} :
    (site json).declareQueue n none spec now = (.ok queue, n') ↔
      ∃ registry, n.registry.declareQueue spec now = (.ok queue, registry) ∧
        n' = ⟨registry, { n.db with
          queues := if queue.durable then enterQueue queue n.db.queues else n.db.queues }⟩ := by
  apply Node.inBoth_eq_ok
  intro queue r
  simp only [Engine.Site.write, site, call_saveQueue ho]
  split_ifs <;> rfl

theorem Node.bind_eq_ok {n n' : Node} (ho : n.db.closed = false) {spec : BindingSpec}
    {now : Time} {b : Binding} :
    (site json).bind n none spec now = (.ok b, n') ↔
      ∃ registry, n.registry.bind spec now = (.ok b, registry) ∧
        n' = ⟨registry, (n.db.saveBinding b).2⟩ := by
  apply Node.inBoth_eq_ok
  intro b r
  simp only [Engine.Site.write, site, call_of_open json ho]
  rfl

theorem wrapped_eq_ok {α : Type} {wrap : Engine.Error → Error}
    {outcome : Except Engine.Error α × Node} {n' : Node} :
    wrapped wrap outcome = (.ok (), n') ↔ ∃ a, outcome = (.ok a, n') := by
  obtain ⟨_ | a, n⟩ := outcome <;> simp [wrapped]

theorem declare_eq_ok {n n' : Node} {now : Time} {d : Declaration} (ho : n.db.closed = false) :
    declare json cfg now d n = (.ok (), n') ↔ Accepted cfg now n d n' := by
  cases d with
  | exchange d =>
    cases hkind : parseExchangeKind (.ofText d.kind) with
    | error e =>
      simp only [declare, hkind, Prod.mk.injEq, reduceCtorEq, false_and, false_iff]
      rintro ⟨hkind', -⟩
      cases hkind.symm.trans hkind'
    | ok kind =>
      simp only [declare, hkind]
      rw [wrapped_eq_ok]
      simp only [Node.declareExchange_eq_ok ho]
      constructor
      · rintro ⟨x, registry, hr, rfl⟩
        exact .exchange hkind hr
      · rintro ⟨hkind', hr⟩
        cases hkind.symm.trans hkind'
        exact ⟨_, _, hr, rfl⟩
  | queue d =>
    simp only [declare]
    rw [wrapped_eq_ok]
    simp only [Node.declareQueue_eq_ok ho]
    constructor
    · rintro ⟨queue, registry, hr, rfl⟩
      exact .queue hr
    · rintro ⟨⟩
      exact ⟨_, _, ‹_›, rfl⟩
  | binding d =>
    simp only [declare]
    rw [wrapped_eq_ok]
    simp only [Node.bind_eq_ok ho]
    constructor
    · rintro ⟨b, registry, hr, rfl⟩
      exact .binding hr
    · rintro ⟨⟩
      exact ⟨_, _, ‹_›, rfl⟩

/-! ## What declarations keep -/

/-- Nothing is lost, and what is new was among the declarations. -/
structure Grows (ds : List Declaration) (n n' : Node) : Prop where
  opened : n.db.closed = false → n'.db.closed = false
  exchanges : ∀ {k x}, n.registry.exchanges.lookup k = some x →
    n'.registry.exchanges.lookup k = some x
  queues : ∀ {k queue}, n.registry.queues.lookup k = some queue →
    n'.registry.queues.lookup k = some queue
  newExchange : ∀ {k x}, n'.registry.exchanges.lookup k = some x →
    n.registry.exchanges.lookup k = some x ∨ ∃ d, .exchange d ∈ ds ∧ d.name = k
  newQueue : ∀ {k queue}, n'.registry.queues.lookup k = some queue →
    n.registry.queues.lookup k = some queue ∨ ∃ d, .queue d ∈ ds ∧ d.name = k
  exchangeRows : ∀ {k}, k ∈ n.db.exchanges.map ExchangeRow.name →
    k ∈ n'.db.exchanges.map ExchangeRow.name
  queueRows : ∀ {k}, k ∈ n.db.queues.map QueueRow.name → k ∈ n'.db.queues.map QueueRow.name

theorem Grows.refl (n : Node) : Grows [] n n :=
  ⟨id, id, id, Or.inl, Or.inl, id, id⟩

theorem Grows.trans {d : Declaration} {ds : List Declaration} {n n' n'' : Node}
    (h : Grows [d] n n') (h' : Grows ds n' n'') : Grows (d :: ds) n n'' where
  opened ho := h'.opened (h.opened ho)
  exchanges hx := h'.exchanges (h.exchanges hx)
  queues hq := h'.queues (h.queues hq)
  newExchange hx := by
    rcases h'.newExchange hx with hx | ⟨d', hd', hname⟩
    · rcases h.newExchange hx with hx | ⟨d', hd', hname⟩
      · exact Or.inl hx
      · exact Or.inr ⟨d', by simp [List.mem_singleton.mp hd'], hname⟩
    · exact Or.inr ⟨d', List.mem_cons_of_mem d hd', hname⟩
  newQueue hq := by
    rcases h'.newQueue hq with hq | ⟨d', hd', hname⟩
    · rcases h.newQueue hq with hq | ⟨d', hd', hname⟩
      · exact Or.inl hq
      · exact Or.inr ⟨d', by simp [List.mem_singleton.mp hd'], hname⟩
    · exact Or.inr ⟨d', List.mem_cons_of_mem d hd', hname⟩
  exchangeRows hk := h'.exchangeRows (h.exchangeRows hk)
  queueRows hk := h'.queueRows (h.queueRows hk)

/-- The map has the entry after it was added, if it was not there before. -/
structure Added {β : Type} (m : Map String β) (k : String) (v : β) (m' : Map String β) : Prop where
  before : m.lookup k = none ∨ m.lookup k = some v
  entered : m'.lookup k = some v
  other : ∀ k', k' ≠ k → m'.lookup k' = m.lookup k'

namespace Added
variable {β : Type} {m m' : Map String β} {k : String} {v : β}

theorem refl (hv : m.lookup k = some v) : Added m k v m := ⟨Or.inr hv, hv, fun _ _ => rfl⟩

theorem insert (hnone : m.lookup k = none) : Added m k v (m.insert k v) where
  before := Or.inl hnone
  entered := by rw [lookup_insert_eq, if_pos rfl]
  other k' hk' := by rw [lookup_insert_eq, if_neg hk']

theorem lookup (h : Added m k v m') {k' : String} {v' : β} (hv' : m.lookup k' = some v') :
    m'.lookup k' = some v' := by
  by_cases hk' : k' = k
  · subst hk'
    rcases h.before with hbefore | hbefore
    · cases hbefore.symm.trans hv'
    · rw [h.entered, ← hbefore, hv']
  · rw [h.other k' hk', hv']

theorem of_lookup (h : Added m k v m') {k' : String} {v' : β} (hv' : m'.lookup k' = some v') :
    m.lookup k' = some v' ∨ k = k' := by
  by_cases hk' : k' = k
  · exact Or.inr hk'.symm
  · exact Or.inl (by rwa [h.other k' hk'] at hv')

end Added

theorem added_of_declareExchange {r r' : Registry} {spec : ExchangeSpec} {now : Time} {x : Exchange}
    (h : r.declareExchange spec now = (.ok x, r')) :
    Added r.exchanges spec.name x r'.exchanges ∧ r'.queues = r.queues := by
  obtain ⟨-, -, ⟨hx, rfl⟩ | ⟨hnone, -, rfl⟩⟩ := Registry.declareExchange_eq_ok.mp h
  · exact ⟨.refl hx, rfl⟩
  · exact ⟨.insert hnone, rfl⟩

theorem added_of_declareQueue {r r' : Registry} {spec : QueueSpec} {now : Time} {queue : Queue}
    (h : r.declareQueue spec now = (.ok queue, r')) :
    Added r.queues spec.name queue r'.queues ∧ r'.exchanges = r.exchanges := by
  obtain ⟨-, -, ⟨hq, rfl⟩ | ⟨hnone, -, rfl⟩⟩ := Registry.declareQueue_eq_ok.mp h
  · exact ⟨.refl hq, rfl⟩
  · exact ⟨.insert hnone, rfl⟩

theorem Accepted.grows {n n' : Node} {now : Time} {d : Declaration}
    (h : Accepted cfg now n d n') : Grows [d] n n' := by
  cases h with
  | @exchange d kind x registry hkind h =>
    obtain ⟨hadded, hqueues⟩ := added_of_declareExchange h
    refine ⟨id, hadded.lookup, fun hq => hqueues ▸ hq, fun hx => ?_,
      fun hq => Or.inl (hqueues ▸ hq), fun hk => ?_, id⟩
    · exact (hadded.of_lookup hx).imp_right (fun hk => ⟨d, List.mem_singleton_self _, hk⟩)
    · dsimp only
      split_ifs
      · exact (mem_keys_upsert (fun _ => rfl)).mpr (Or.inr hk)
      · exact hk
  | @queue d queue registry h =>
    obtain ⟨hadded, hexchanges⟩ := added_of_declareQueue h
    refine ⟨id, fun hx => hexchanges ▸ hx, hadded.lookup,
      fun hx => Or.inl (hexchanges ▸ hx), fun hq => ?_, id, fun hk => ?_⟩
    · exact (hadded.of_lookup hq).imp_right (fun hk => ⟨d, List.mem_singleton_self _, hk⟩)
    · dsimp only
      split_ifs
      · exact (mem_keys_upsert (fun _ => rfl)).mpr (Or.inr hk)
      · exact hk
  | @binding d b registry h =>
    have hkept := n.registry.bind_keeps d.spec now
    rw [h] at hkept
    obtain ⟨hexchanges, hqueues⟩ := hkept
    exact ⟨id, fun hx => hexchanges ▸ hx, fun hq => hqueues ▸ hq,
      fun hx => Or.inl (hexchanges ▸ hx), fun hq => Or.inl (hqueues ▸ hq), id, id⟩

theorem Accepted.declared {n n' : Node} {now : Time} {d : Declaration}
    (h : Accepted cfg now n d n') : Declared cfg n'.registry d := by
  cases h with
  | @exchange d kind x registry hkind h =>
    obtain ⟨hvalid, hspec, -⟩ := Registry.declareExchange_eq_ok.mp h
    exact ⟨kind, x, hkind, hvalid, (added_of_declareExchange h).1.entered, hspec⟩
  | @queue d queue registry h =>
    obtain ⟨hvalid, hspec, -⟩ := Registry.declareQueue_eq_ok.mp h
    exact ⟨hvalid, queue, (added_of_declareQueue h).1.entered, hspec⟩
  | @binding d b registry h =>
    have hkept := n.registry.bind_keeps d.spec now
    have hok := Registry.bind_ok_iff.mp ⟨b, congrArg Prod.fst h⟩
    rw [h] at hkept
    obtain ⟨hexchanges, hqueues⟩ := hkept
    dsimp only [Declared, Registry.queueExists] at hok ⊢
    rw [hexchanges, hqueues]
    exact hok

theorem Declared.of_grows {ds : List Declaration} {n n' : Node} (h : Grows ds n n')
    {d : Declaration} (hd : Declared cfg n.registry d) : Declared cfg n'.registry d := by
  cases d with
  | exchange d =>
    obtain ⟨kind, x, hkind, hvalid, hx, hspec⟩ := hd
    exact ⟨kind, x, hkind, hvalid, h.exchanges hx, hspec⟩
  | queue d =>
    obtain ⟨hvalid, queue, hq, hspec⟩ := hd
    exact ⟨hvalid, queue, h.queues hq, hspec⟩
  | binding d =>
    obtain ⟨hq, x, hx, hvalid⟩ := hd
    obtain ⟨queue, hqueue⟩ := Option.isSome_iff_exists.mp hq
    refine ⟨?_, x, h.exchanges hx, hvalid⟩
    rw [Registry.queueExists, h.queues hqueue]
    rfl

/-! ## The database records the registry -/

/-- The row of a queue has its specification, less what is below a millisecond; nothing is below
a millisecond in what was read from a row. -/
def QueueFits (queue stored : Queue) : Prop :=
  stored.toQueueSpec = inMilliseconds queue.toQueueSpec ∧
    (queue.durable = true ∨ millisecond ∣ queue.visibilityTimeout)

structure Saved (n : Node) : Prop where
  opened : n.db.closed = false
  exchanges : Recorded ExchangeRow.name scanExchange (fun x => x.durable)
    (fun x stored => stored.toExchangeSpec = x.toExchangeSpec) n.registry.exchanges n.db.exchanges
  queues : Recorded QueueRow.name scanQueue (fun queue => queue.durable) QueueFits
    n.registry.queues n.db.queues
  bindings : ∀ row ∈ n.db.bindings, ∃ b, scanBinding row = .ok b
  bound : ∀ e, ∀ b ∈ n.registry.bindingsFor e, b.toBindingSpec ∈ n.db.bindings.map BindingRow.spec

theorem scanExchange_saved {row : ExchangeRow} {x : Exchange} {t : Time}
    (hkind : parseExchangeKind x.kind = .ok x.kind) (h : readTime row.createdAt = .ok t) :
    scanExchange { exchangeRow x with createdAt := row.createdAt } = .ok ⟨x.toExchangeSpec, t⟩ := by
  refine scanExchange_eq_ok.mpr ⟨h, ?_⟩
  simp only [exchangeRow, ofText_text hkind]

theorem scanExchange_exchangeRow {x : Exchange} (hkind : parseExchangeKind x.kind = .ok x.kind)
    (h : InYears x.createdAt) :
    scanExchange (exchangeRow x) = .ok ⟨x.toExchangeSpec, x.createdAt⟩ :=
  @scanExchange_saved (exchangeRow x) x _ hkind (readTime_formatTime h)

theorem parse_of_validate {spec : ExchangeSpec} (h : spec.validate = .ok ()) :
    parseExchangeKind spec.kind = .ok spec.kind := by
  unfold ExchangeSpec.validate at h
  cases hkind : spec.kind with
  | other raw =>
    cases hname : validateName "exchange name" spec.name <;>
      simp [hname, hkind, parseExchangeKind, bind, Except.bind] at h
  | _ => rfl

/-- The table of bindings after one was saved; a row that was there stays. -/
def enterBinding (b : Binding) (rows : List BindingRow) : List BindingRow :=
  upsert BindingRow.spec (fun old _ => old)
    ⟨b.exchange, b.queue, b.routingKey, formatTime b.createdAt⟩ rows

theorem mem_spec_enterBinding {b : Binding} {rows : List BindingRow} {spec : BindingSpec}
    (h : spec = b.toBindingSpec ∨ spec ∈ rows.map BindingRow.spec) :
    spec ∈ (enterBinding b rows).map BindingRow.spec := by
  unfold enterBinding upsert
  have hspec : (⟨b.exchange, b.queue, b.routingKey, formatTime b.createdAt⟩ : BindingRow).spec =
      b.toBindingSpec := rfl
  rw [hspec]
  split_ifs with hany
  · rw [update, List.map_congr_left (g := id) (fun row _ => ite_self row), List.map_id]
    rcases h with rfl | h
    · simpa using hany
    · exact h
  · rw [List.map_append, List.mem_append]
    rcases h with rfl | h
    · exact Or.inr (by simp [hspec])
    · exact Or.inl h

theorem readable_enterBinding {rows : List BindingRow} {b : Binding}
    (hrows : ∀ row ∈ rows, ∃ b, scanBinding row = .ok b)
    (hb : InYears b.createdAt ∨ b.toBindingSpec ∈ rows.map BindingRow.spec) :
    ∀ row ∈ enterBinding b rows, ∃ b, scanBinding row = .ok b := by
  intro row hrow
  rcases mem_upsert hrow with ⟨hold, -⟩ | ⟨old, hold, -, rfl⟩ | ⟨rfl, hnone⟩
  · exact hrows row hold
  · exact hrows row hold
  · rcases hb with hy | hb
    · exact ⟨_, scanBinding_eq_ok (readTime_formatTime hy)⟩
    · exact absurd hb hnone

theorem Accepted.saved {n n' : Node} {now : Time} (hy : InYears now) {d : Declaration}
    (h : Accepted cfg now n d n') (hs : Saved n) : Saved n' := by
  cases h with
  | @exchange d kind x registry hkind h =>
    obtain ⟨⟨hbefore, hafter, hother⟩, hqueues⟩ := added_of_declareExchange h
    obtain ⟨hvalid, hspec, hcases⟩ := Registry.declareExchange_eq_ok.mp h
    have hx : parseExchangeKind x.kind = .ok x.kind := by
      rw [← hspec] at hvalid
      exact parse_of_validate hvalid
    have hname : (exchangeRow x).name = d.name := congrArg ExchangeSpec.name hspec
    refine ⟨hs.opened, ?_, hqueues ▸ hs.queues, hs.bindings, ?_⟩
    · refine hs.exchanges.enter hname hbefore hafter hother (fun _ => hname)
        (fun _ old stored hscan => ?_) (fun _ hnone => ?_)
      · exact ⟨_, scanExchange_saved hx (scanExchange_eq_ok.mp hscan).1, rfl⟩
      · have hnow : x.createdAt = now := by
          rcases hcases with ⟨hsome, -⟩ | ⟨-, hnow, -⟩
          · cases hnone.symm.trans hsome
          · exact hnow
        exact ⟨_, scanExchange_exchangeRow hx (hnow ▸ hy), rfl⟩
    · rcases hcases with ⟨-, rfl⟩ | ⟨-, -, rfl⟩ <;> exact hs.bound
  | @queue d queue registry h =>
    obtain ⟨⟨hbefore, hafter, hother⟩, hexchanges⟩ := added_of_declareQueue h
    obtain ⟨hvalid, hspec, hcases⟩ := Registry.declareQueue_eq_ok.mp h
    have hname : (queueRow queue).name = d.name := congrArg QueueSpec.name hspec
    refine ⟨hs.opened, hexchanges ▸ hs.exchanges, ?_, hs.bindings, ?_⟩
    · refine hs.queues.enter hname hbefore hafter hother (fun _ => hname)
        (fun hd old stored hscan => ?_) (fun hd hnone => ?_)
      · exact ⟨_, scanQueue_saved (scanQueue_eq_ok.mp hscan).1, rfl, Or.inl hd⟩
      · have hnow : queue.createdAt = now := by
          rcases hcases with ⟨hsome, -⟩ | ⟨-, hnow, -⟩
          · cases hnone.symm.trans hsome
          · exact hnow
        exact ⟨_, scanQueue_queueRow (hnow ▸ hy), rfl, Or.inl hd⟩
    · rcases hcases with ⟨-, rfl⟩ | ⟨-, -, rfl⟩ <;> exact hs.bound
  | @binding d b registry h =>
    have hkept := n.registry.bind_keeps d.spec now
    rw [h] at hkept
    obtain ⟨hexchanges, hqueues⟩ := hkept
    refine ⟨hs.opened, hexchanges ▸ hs.exchanges, hqueues ▸ hs.queues, ?_, ?_⟩
    · apply readable_enterBinding hs.bindings
      rcases n.registry.bind_cases d.spec now with ⟨e, heq⟩ | ⟨b', hb', -, heq⟩ | ⟨-, heq⟩ <;>
        cases h.symm.trans heq
      · exact Or.inr (hs.bound _ b hb')
      · exact Or.inl hy
    · intro e b' hb'
      apply mem_spec_enterBinding
      rcases n.registry.bind_cases d.spec now with ⟨_, heq⟩ | ⟨_, -, -, heq⟩ | ⟨-, heq⟩ <;>
        cases h.symm.trans heq
      · exact Or.inr (hs.bound e b' hb')
      · rw [Registry.bindingsFor_setBindings] at hb'
        split_ifs at hb' with he
        · rcases List.mem_append.mp hb' with hb' | hb'
          · exact Or.inr (hs.bound _ b' hb')
          · exact Or.inl (by rw [List.mem_singleton.mp hb'])
        · exact Or.inr (hs.bound e b' hb')

/-! ## Restoring -/

/-- The new engine of a start, before anything is restored. -/
def opened (db : Database) : Node := ⟨Registry.newRegistry, { db with closed := false }⟩

/-- The three tables as they were listed. -/
structure Listed (db : Database) (exchanges : List Exchange) (queues : List Queue)
    (bindings : List Binding) : Prop where
  exchanges : scanRows scanExchange (orderBy (fun a b => a.name ≤ b.name) db.exchanges) =
    .ok exchanges
  queues : scanRows scanQueue (orderBy (fun a b => a.name ≤ b.name) db.queues) = .ok queues
  bindings : scanRows scanBinding (orderBy listedBefore db.bindings) = .ok bindings

theorem exists_listed {db : Database} (hx : ∀ row ∈ db.exchanges, ∃ x, scanExchange row = .ok x)
    (hq : ∀ row ∈ db.queues, ∃ queue, scanQueue row = .ok queue)
    (hb : ∀ row ∈ db.bindings, ∃ b, scanBinding row = .ok b) :
    ∃ exchanges queues bindings, Listed db exchanges queues bindings := by
  obtain ⟨exchanges, hexchanges⟩ : ∃ exchanges, scanRows scanExchange
      (orderBy (fun a b => a.name ≤ b.name) db.exchanges) = .ok exchanges := listed_ok_iff.mpr hx
  obtain ⟨queues, hqueues⟩ : ∃ queues, scanRows scanQueue
      (orderBy (fun a b => a.name ≤ b.name) db.queues) = .ok queues := listed_ok_iff.mpr hq
  obtain ⟨bindings, hbindings⟩ : ∃ bindings, scanRows scanBinding
      (orderBy listedBefore db.bindings) = .ok bindings := listed_ok_iff.mpr hb
  exact ⟨exchanges, queues, bindings, hexchanges, hqueues, hbindings⟩

theorem restore_eq_ok {db : Database} {n : Node} :
    (Node.site json).restore (opened db) = .ok n ↔ ∃ exchanges queues bindings,
      Listed db exchanges queues bindings ∧
        n = ⟨Registry.newRegistry.restore exchanges queues bindings,
          { db with closed := false }⟩ := by
  have hcall : ∀ c, call json c (opened db).db = serve json c (opened db).db :=
    call_of_open json rfl
  simp only [Engine.Site.restore, Node.site]
  rw [hcall, hcall, hcall]
  constructor
  · intro h
    obtain ⟨exchanges, hexchanges, h⟩ := exists_of_bind_eq_ok h
    obtain ⟨queues, hqueues, h⟩ := exists_of_bind_eq_ok h
    obtain ⟨bindings, hbindings, h⟩ := exists_of_bind_eq_ok h
    exact ⟨exchanges, queues, bindings, ⟨hexchanges, hqueues, hbindings⟩, (Except.ok.inj h).symm⟩
  · rintro ⟨exchanges, queues, bindings, ⟨hexchanges, hqueues, hbindings⟩, rfl⟩
    simp only [serve, Database.listExchanges, Database.listQueues, Database.listBindings, opened,
      hexchanges, hqueues, hbindings]
    rfl

theorem name_of_scanExchange {row : ExchangeRow} {x : Exchange} (h : scanExchange row = .ok x) :
    x.name = row.name := congrArg ExchangeSpec.name (scanExchange_eq_ok.mp h).2

theorem name_of_scanQueue {row : QueueRow} {queue : Queue} (h : scanQueue row = .ok queue) :
    queue.name = row.name := congrArg QueueSpec.name (scanQueue_eq_ok.mp h).2

theorem dvd_of_scanQueue {row : QueueRow} {queue : Queue} (h : scanQueue row = .ok queue) :
    millisecond ∣ queue.visibilityTimeout := by
  rw [show queue.visibilityTimeout = row.visibilityTimeoutMs * millisecond from
    congrArg QueueSpec.visibilityTimeout (scanQueue_eq_ok.mp h).2]
  exact Int.dvd_mul_left _ _

section Restored
variable {db : Database} {n : Node}
variable (hk : Keyed db) (h : (Node.site json).restore (opened db) = .ok n)
include hk h

theorem restored_exchange {k : String} {x : Exchange} :
    n.registry.exchanges.lookup k = some x ↔
      ∃ row ∈ db.exchanges, row.name = k ∧ scanExchange row = .ok x := by
  obtain ⟨exchanges, queues, bindings, hlisted, rfl⟩ := restore_eq_ok.mp h
  dsimp only
  rw [Registry.restore, Registry.exchanges_restoreBindings]
  exact lookup_refilled hk.exchanges (List.perm_insertionSort _ _)
    (scanRows_eq_ok.mp hlisted.exchanges) (fun _ _ => name_of_scanExchange)

theorem restored_queue {k : String} {queue : Queue} :
    n.registry.queues.lookup k = some queue ↔
      ∃ row ∈ db.queues, row.name = k ∧ scanQueue row = .ok queue := by
  obtain ⟨exchanges, queues, bindings, hlisted, rfl⟩ := restore_eq_ok.mp h
  dsimp only
  rw [Registry.restore, Registry.queues_restoreBindings]
  exact lookup_refilled hk.queues (List.perm_insertionSort _ _)
    (scanRows_eq_ok.mp hlisted.queues) (fun _ _ => name_of_scanQueue)

theorem restored_saved : Saved n := by
  obtain ⟨exchanges, queues, bindings, hlisted, rfl⟩ := restore_eq_ok.mp h
  refine ⟨rfl, ?_, ?_, listed_ok_iff.mp ⟨_, hlisted.bindings⟩, fun e b hb => ?_⟩
  · rw [Registry.restore, Registry.exchanges_restoreBindings]
    exact recorded_refilled hk.exchanges (List.perm_insertionSort _ _)
      (scanRows_eq_ok.mp hlisted.exchanges) (fun _ _ => name_of_scanExchange) (fun _ _ _ => rfl)
  · rw [Registry.restore, Registry.queues_restoreBindings]
    refine recorded_refilled hk.queues (List.perm_insertionSort _ _)
      (scanRows_eq_ok.mp hlisted.queues) (fun _ _ => name_of_scanQueue) (fun row queue hscan => ?_)
    have hdvd := dvd_of_scanQueue hscan
    exact ⟨(inMilliseconds_eq_self.mpr hdvd).symm, Or.inr hdvd⟩
  · rw [Registry.restore, Registry.bindingsFor_restoreBindings] at hb
    rcases List.mem_append.mp hb with hb | hb
    · simp [Registry.bindingsFor, Registry.newRegistry] at hb
    · obtain ⟨row, hrow, hscan⟩ := (mem_listed hlisted.bindings).mp (List.mem_filter.mp hb).1
      obtain ⟨t, -, heq⟩ := exists_of_bind_eq_ok hscan
      exact List.mem_map.mpr ⟨row, hrow, by rw [← Except.ok.inj heq]⟩

end Restored

/-! ## All declarations -/

theorem declareLoop_cons_eq_ok {d : Declaration} {ds : List Declaration} {clock : ℕ → Time}
    {n n' : Node} :
    declareLoop json cfg (d :: ds) clock n = (.ok (), n') ↔
      ∃ middle, declare json cfg (clock 0) d n = (.ok (), middle) ∧
        declareLoop json cfg ds (fun i => clock (i + 1)) middle = (.ok (), n') := by
  rw [declareLoop]
  rcases declare json cfg (clock 0) d n with ⟨_ | _, middle⟩ <;> simp

/-- Declarations that were all accepted. -/
theorem declareLoop_accepted {ds : List Declaration} {clock : ℕ → Time} {n n' : Node}
    (ho : n.db.closed = false) (h : declareLoop json cfg ds clock n = (.ok (), n')) :
    Grows ds n n' ∧ (∀ d ∈ ds, Declared cfg n'.registry d) ∧
      ((∀ i, InYears (clock i)) → Saved n → Saved n') := by
  induction ds generalizing clock n with
  | nil =>
    cases h
    exact ⟨.refl _, by simp, fun _ hs => hs⟩
  | cons d ds ih =>
    obtain ⟨middle, hfirst, hrest⟩ := declareLoop_cons_eq_ok.mp h
    have haccepted := (declare_eq_ok ho).mp hfirst
    have hgrows := haccepted.grows
    obtain ⟨hgrows', hdeclared, hsaved⟩ := ih (hgrows.opened ho) hrest
    refine ⟨hgrows.trans hgrows', ?_, fun hy hs => ?_⟩
    · rw [List.forall_mem_cons]
      exact ⟨haccepted.declared.of_grows hgrows', hdeclared⟩
    · exact hsaved (fun i => hy (i + 1)) (haccepted.saved (hy 0) hs)

/-! ## The second start -/

/-- Everything in the one registry is specified the same in the other. -/
structure Under (r whole : Registry) : Prop where
  exchanges : ∀ {k x}, r.exchanges.lookup k = some x →
    ∃ y, whole.exchanges.lookup k = some y ∧ x.toExchangeSpec = y.toExchangeSpec
  queues : ∀ {k queue}, r.queues.lookup k = some queue →
    ∃ other, whole.queues.lookup k = some other ∧ queue.toQueueSpec = other.toQueueSpec

/-- Both ends of a binding are there. -/
def Ready (r : Registry) : Declaration → Prop
  | .binding d => r.queueExists d.queue = true ∧ ∃ x, r.exchanges.lookup d.exchange = some x
  | _ => True

theorem Ready.of_grows {ds : List Declaration} {n n' : Node} (h : Grows ds n n') {d : Declaration}
    (hd : Ready n.registry d) : Ready n'.registry d := by
  cases d with
  | binding d =>
    obtain ⟨hq, x, hx⟩ := hd
    obtain ⟨queue, hqueue⟩ := Option.isSome_iff_exists.mp hq
    exact ⟨by rw [Registry.queueExists, h.queues hqueue]; rfl, x, h.exchanges hx⟩
  | _ => trivial

/-- What one registry has accepted, another one accepts that disagrees with it nowhere. -/
theorem Under.accepts {n : Node} {whole : Registry} (hu : Under n.registry whole)
    {d : Declaration} (hd : Declared cfg whole d) (hr : Ready n.registry d) (now : Time) :
    ∃ n', Accepted cfg now n d n' := by
  cases d with
  | exchange d =>
    obtain ⟨kind, y, hkind, hvalid, hy, hspec⟩ := hd
    cases hx : n.registry.exchanges.lookup d.name with
    | none =>
      have hnew := Registry.declareExchange_eq_ok (x := ⟨⟨d.name, kind, d.durable⟩, now⟩).mpr
        ⟨hvalid, rfl, Or.inr ⟨hx, rfl, rfl⟩⟩
      exact ⟨_, .exchange hkind hnew⟩
    | some x =>
      obtain ⟨y', hy', hsame⟩ := hu.exchanges hx
      cases hy.symm.trans hy'
      exact ⟨_, .exchange hkind (Registry.declareExchange_eq_ok.mpr
        ⟨hvalid, hsame.trans hspec, Or.inl ⟨hx, rfl⟩⟩)⟩
  | queue d =>
    obtain ⟨hvalid, other, hother, hspec⟩ := hd
    cases hq : n.registry.queues.lookup d.name with
    | none =>
      obtain ⟨registry, hnew⟩ : ∃ registry, n.registry.declareQueue (cfg.queueSpec d) now =
          (.ok ⟨(cfg.queueSpec d).withDefaults, now⟩, registry) :=
        ⟨_, Registry.declareQueue_eq_ok.mpr ⟨hvalid, rfl, Or.inr ⟨hq, rfl, rfl⟩⟩⟩
      exact ⟨_, .queue hnew⟩
    | some queue =>
      obtain ⟨other', hother', hsame⟩ := hu.queues hq
      cases hother.symm.trans hother'
      exact ⟨_, .queue (Registry.declareQueue_eq_ok.mpr
        ⟨hvalid, hsame.trans hspec, Or.inl ⟨hq, rfl⟩⟩)⟩
  | binding d =>
    obtain ⟨hq, x, hx⟩ := hr
    obtain ⟨-, y, hy, hvalid⟩ := hd
    obtain ⟨y', hy', hsame⟩ := hu.exchanges hx
    cases hy.symm.trans hy'
    have hkind : x.kind = y.kind := congrArg ExchangeSpec.kind hsame
    obtain ⟨b, hb⟩ := Registry.bind_ok_iff.mpr ⟨hq, x, hx, hkind ▸ hvalid⟩
    exact ⟨_, .binding (Prod.ext hb rfl)⟩

/-- Two registries agree on what is declared in both. -/
theorem Declared.exchange_eq {r r' : Registry} {d : ExchangeDeclaration} {x x' : Exchange}
    (h : Declared cfg r (.exchange d)) (h' : Declared cfg r' (.exchange d))
    (hx : r.exchanges.lookup d.name = some x) (hx' : r'.exchanges.lookup d.name = some x') :
    x.toExchangeSpec = x'.toExchangeSpec := by
  obtain ⟨kind, y, hkind, -, hy, hspec⟩ := h
  obtain ⟨kind', y', hkind', -, hy', hspec'⟩ := h'
  cases hx.symm.trans hy
  cases hx'.symm.trans hy'
  cases hkind.symm.trans hkind'
  rw [hspec, hspec']

theorem Under.grows {n n' : Node} {whole : Registry} {d : Declaration}
    (hu : Under n.registry whole) (hg : Grows [d] n n') (hd : Declared cfg whole d)
    (hd' : Declared cfg n'.registry d) : Under n'.registry whole := by
  constructor
  · intro k x hx
    rcases hg.newExchange hx with hold | ⟨d', hmem, rfl⟩
    · exact hu.exchanges hold
    · cases List.mem_singleton.mp hmem
      obtain ⟨kind, y, hkind, hvalid, hy, hspec⟩ := hd
      exact ⟨y, hy, hd'.exchange_eq ⟨kind, y, hkind, hvalid, hy, hspec⟩ hx hy⟩
  · intro k queue hq
    rcases hg.newQueue hq with hold | ⟨d', hmem, rfl⟩
    · exact hu.queues hold
    · cases List.mem_singleton.mp hmem
      obtain ⟨-, other, hother, hspec⟩ := hd
      obtain ⟨-, queue', hq', hspec'⟩ := hd'
      cases hq.symm.trans hq'
      exact ⟨other, hother, hspec'.trans hspec.symm⟩

theorem declareLoop_accepts {ds : List Declaration} {clock : ℕ → Time} {n : Node}
    {whole : Registry} (ho : n.db.closed = false) (hu : Under n.registry whole)
    (hd : ∀ d ∈ ds, Declared cfg whole d) (hr : ∀ d ∈ ds, Ready n.registry d) :
    ∃ n', declareLoop json cfg ds clock n = (.ok (), n') ∧ Under n'.registry whole := by
  induction ds generalizing clock n with
  | nil => exact ⟨n, rfl, hu⟩
  | cons d ds ih =>
    rw [List.forall_mem_cons] at hd hr
    obtain ⟨middle, haccepted⟩ := hu.accepts hd.1 hr.1 (clock 0)
    have hgrows := haccepted.grows
    obtain ⟨n', hrest, hu'⟩ := ih (hgrows.opened ho) (hu.grows hgrows hd.1 haccepted.declared) hd.2
      (fun d' hd' => (hr.2 d' hd').of_grows hgrows)
    exact ⟨n', declareLoop_cons_eq_ok.mpr ⟨middle, (declare_eq_ok ho).mpr haccepted, hrest⟩, hu'⟩

theorem declareLoop_append {ds es : List Declaration} {clock : ℕ → Time} {n middle : Node}
    (h : declareLoop json cfg ds clock n = (.ok (), middle)) :
    declareLoop json cfg (ds ++ es) clock n =
      declareLoop json cfg es (fun i => clock (i + ds.length)) middle := by
  induction ds generalizing clock n with
  | nil =>
    cases h
    rfl
  | cons d ds ih =>
    obtain ⟨first, hfirst, hrest⟩ := declareLoop_cons_eq_ok.mp h
    rw [List.cons_append, declareLoop, hfirst]
    dsimp only
    rw [ih hrest]
    congr 1

/-- The queue keeps its whole specification in the database. -/
def Whole (cfg : Config) (d : QueueDeclaration) : Prop :=
  d.durable = true → millisecond ∣ (cfg.queueSpec d).withDefaults.visibilityTimeout

section Twice
variable {db later : Database} {clock : ℕ → Time} {restored first second : Node}
  (hk : Keyed db) (hrestored : (Node.site json).restore (opened db) = .ok restored)
  (hfirst : declareTopology json cfg clock restored = (.ok (), first))
  (hy : ∀ i, InYears (clock i)) (hsame : SameTopology first.db later)
include hk hrestored hfirst

theorem first_grows : Grows cfg.topology.declarations restored first :=
  (declareLoop_accepted (restored_saved hk hrestored).opened hfirst).1

theorem first_declared {d : Declaration} (hd : d ∈ cfg.topology.declarations) :
    Declared cfg first.registry d :=
  (declareLoop_accepted (restored_saved hk hrestored).opened hfirst).2.1 d hd

include hy

theorem first_saved : Saved first :=
  (declareLoop_accepted (restored_saved hk hrestored).opened hfirst).2.2 hy
    (restored_saved hk hrestored)

include hsame

theorem later_keyed : Keyed later := by
  have hfinal := first_saved hk hrestored hfirst hy
  exact hsame.keyed ⟨hfinal.exchanges.distinct, hfinal.queues.distinct⟩

/-- The next start can read the whole topology. -/
theorem exists_second : ∃ second, (Node.site json).restore (opened later) = .ok second := by
  have hfinal := first_saved hk hrestored hfirst hy
  have hexchanges : ∀ row ∈ later.exchanges, ∃ x, scanExchange row = .ok x := by
    intro row hrow
    obtain ⟨-, stored, hscan, -⟩ := hfinal.exchanges.read row (hsame.exchanges ▸ hrow)
    exact ⟨stored, hscan⟩
  have hqueues : ∀ row ∈ later.queues, ∃ queue, scanQueue row = .ok queue := by
    intro row hrow
    obtain ⟨-, stored, hscan, -⟩ := hfinal.queues.read row (hsame.queues ▸ hrow)
    exact ⟨stored, hscan⟩
  obtain ⟨exchanges, queues, bindings, hlisted⟩ := exists_listed hexchanges hqueues
    (hsame.bindings ▸ hfinal.bindings)
  exact ⟨_, restore_eq_ok.mpr ⟨exchanges, queues, bindings, hlisted, rfl⟩⟩

variable (hsecond : (Node.site json).restore (opened later) = .ok second)
include hsecond

/-- If every durable queue fits in its row, what is restored is what was declared. -/
theorem second_under (hwhole : ∀ d ∈ cfg.topology.queues, Whole cfg d) :
    Under second.registry first.registry := by
  have hfinal := first_saved hk hrestored hfirst hy
  have hk' := later_keyed hk hrestored hfirst hy hsame
  constructor
  · intro k x hx
    obtain ⟨row, hrow, rfl, hscan⟩ := (restored_exchange hk' hsecond).mp hx
    obtain ⟨y, stored, hscan', hy, hfits⟩ := hfinal.exchanges.read row (hsame.exchanges ▸ hrow)
    cases hscan.symm.trans hscan'
    exact ⟨y, hy, hfits⟩
  · intro k queue hq
    obtain ⟨row, hrow, rfl, hscan⟩ := (restored_queue hk' hsecond).mp hq
    obtain ⟨other, stored, hscan', hother, hfits, hdurable⟩ :=
      hfinal.queues.read row (hsame.queues ▸ hrow)
    cases hscan.symm.trans hscan'
    refine ⟨other, hother, hfits.trans (inMilliseconds_eq_self.mpr ?_)⟩
    rcases hdurable with hdurable | hdvd
    · rcases (first_grows hk hrestored hfirst).newQueue hother with hold | ⟨d, hd, hname⟩
      · obtain ⟨_, -, -, hscan⟩ := (restored_queue hk hrestored).mp hold
        exact dvd_of_scanQueue hscan
      · obtain ⟨-, other', hother', hspec⟩ := first_declared hk hrestored hfirst hd
        rw [hname] at hother'
        cases hother.symm.trans hother'
        have hd' : d ∈ cfg.topology.queues := by simpa [Topology.declarations] using hd
        rw [show other.visibilityTimeout = _ from congrArg QueueSpec.visibilityTimeout hspec]
        exact hwhole d hd' (hdurable ▸ (congrArg QueueSpec.durable hspec).symm)
    · exact hdvd

/-- What the first start had is restored or will be declared again. -/
theorem second_exchange {k : String} {x : Exchange}
    (hx : first.registry.exchanges.lookup k = some x) :
    (∃ y, second.registry.exchanges.lookup k = some y) ∨
      ∃ d ∈ cfg.topology.exchanges, d.name = k := by
  have hgrows := first_grows hk hrestored hfirst
  have hk' := later_keyed hk hrestored hfirst hy hsame
  rcases hgrows.newExchange hx with hold | ⟨d, hd, hname⟩
  · obtain ⟨row, hrow, hname, -⟩ := (restored_exchange hk hrestored).mp hold
    obtain ⟨_, _, _, -, rfl⟩ := restore_eq_ok.mp hrestored
    obtain ⟨row', hrow', hname'⟩ := List.mem_map.mp
      (hgrows.exchangeRows (List.mem_map_of_mem hrow))
    obtain ⟨-, stored, hscan, -⟩ :=
      (first_saved hk hrestored hfirst hy).exchanges.read row' hrow'
    exact Or.inl ⟨stored, (restored_exchange hk' hsecond).mpr
      ⟨row', hsame.exchanges ▸ hrow', hname'.trans hname, hscan⟩⟩
  · exact Or.inr ⟨d, by simpa [Topology.declarations] using hd, hname⟩

theorem second_queue {k : String} {queue : Queue}
    (hq : first.registry.queues.lookup k = some queue) :
    (∃ other, second.registry.queues.lookup k = some other) ∨
      ∃ d ∈ cfg.topology.queues, d.name = k := by
  have hgrows := first_grows hk hrestored hfirst
  have hk' := later_keyed hk hrestored hfirst hy hsame
  rcases hgrows.newQueue hq with hold | ⟨d, hd, hname⟩
  · obtain ⟨row, hrow, hname, -⟩ := (restored_queue hk hrestored).mp hold
    obtain ⟨_, _, _, -, rfl⟩ := restore_eq_ok.mp hrestored
    obtain ⟨row', hrow', hname'⟩ := List.mem_map.mp (hgrows.queueRows (List.mem_map_of_mem hrow))
    obtain ⟨-, stored, hscan, -⟩ := (first_saved hk hrestored hfirst hy).queues.read row' hrow'
    exact Or.inl ⟨stored, (restored_queue hk' hsecond).mpr
      ⟨row', hsame.queues ▸ hrow', hname'.trans hname, hscan⟩⟩
  · exact Or.inr ⟨d, by simpa [Topology.declarations] using hd, hname⟩

theorem second_accepted (clock' : ℕ → Time) (hwhole : ∀ d ∈ cfg.topology.queues, Whole cfg d) :
    (declareTopology json cfg clock' second).1 = .ok () := by
  have hdeclared : ∀ d ∈ cfg.topology.declarations, Declared cfg first.registry d :=
    fun _ => first_declared hk hrestored hfirst
  have hu := second_under hk hrestored hfirst hy hsame hsecond hwhole
  have ho := (restored_saved (later_keyed hk hrestored hfirst hy hsame) hsecond).opened
  -- The loops over the exchanges and queues come first.
  obtain ⟨middle, hmiddle, hu'⟩ : ∃ middle, declareLoop json cfg
      (cfg.topology.exchanges.map .exchange ++ cfg.topology.queues.map .queue) clock' second =
        (.ok (), middle) ∧ Under middle.registry first.registry := by
    refine declareLoop_accepts ho hu (fun d hd => hdeclared d (List.mem_append_left _ hd))
      (fun d hd => ?_)
    simp only [List.mem_append, List.mem_map] at hd
    rcases hd with ⟨_, -, rfl⟩ | ⟨_, -, rfl⟩ <;> trivial
  obtain ⟨hgrows, hdeclared', -⟩ := declareLoop_accepted ho hmiddle
  -- After them both ends of every binding are there.
  have hready : ∀ d ∈ cfg.topology.bindings.map Declaration.binding, Ready middle.registry d := by
    intro d hd
    obtain ⟨b, hb, rfl⟩ := List.mem_map.mp hd
    obtain ⟨hq, x, hx, -⟩ := hdeclared (.binding b) (List.mem_append_right _ hd)
    obtain ⟨queue, hqueue⟩ := Option.isSome_iff_exists.mp hq
    constructor
    · rw [Registry.queueExists]
      rcases second_queue hk hrestored hfirst hy hsame hsecond hqueue with
        ⟨other, hother⟩ | ⟨q, hmem, hname⟩
      · rw [hgrows.queues hother]
        rfl
      · obtain ⟨-, other, hother, -⟩ := hdeclared' (.queue q)
          (List.mem_append_right _ (List.mem_map_of_mem hmem))
        rw [← hname, hother]
        rfl
    · rcases second_exchange hk hrestored hfirst hy hsame hsecond hx with
        ⟨y, hy'⟩ | ⟨e, hmem, hname⟩
      · exact ⟨y, hgrows.exchanges hy'⟩
      · obtain ⟨-, y, -, -, hy', -⟩ := hdeclared' (.exchange e)
          (List.mem_append_left _ (List.mem_map_of_mem hmem))
        exact ⟨y, hname ▸ hy'⟩
  obtain ⟨last, hlast, -⟩ : ∃ last, declareLoop json cfg (cfg.topology.bindings.map .binding)
      (fun i => clock' (i + (cfg.topology.exchanges.map Declaration.exchange ++
        cfg.topology.queues.map Declaration.queue).length)) middle = (.ok (), last) ∧
        Under last.registry first.registry :=
    declareLoop_accepts (hgrows.opened ho) hu'
      (fun d hd => hdeclared d (List.mem_append_right _ hd)) hready
  rw [declareTopology, Topology.declarations, declareLoop_append hmiddle, hlast]

theorem whole_of_second_accepted {clock' : ℕ → Time}
    (h : (declareTopology json cfg clock' second).1 = .ok ()) :
    ∀ d ∈ cfg.topology.queues, Whole cfg d := by
  intro d hd hdurable
  have hk' := later_keyed hk hrestored hfirst hy hsame
  have hmem : Declaration.queue d ∈ cfg.topology.declarations := by
    simpa [Topology.declarations] using hd
  -- The first start left a row for the queue.
  obtain ⟨-, queue, hqueue, hspec⟩ := first_declared hk hrestored hfirst hmem
  have hfinal := first_saved hk hrestored hfirst hy
  have hkept := hfinal.queues.kept d.name queue hqueue
    ((congrArg QueueSpec.durable hspec).trans hdurable)
  obtain ⟨row, hrow, hname⟩ := List.mem_map.mp hkept
  obtain ⟨queue', stored, hscan, hqueue', hfits, -⟩ := hfinal.queues.read row hrow
  rw [hname] at hqueue'
  cases hqueue.symm.trans hqueue'
  -- The second start restores it and accepts the declaration next to it.
  have hstored := (restored_queue hk' hsecond).mpr ⟨row, hsame.queues ▸ hrow, hname, hscan⟩
  obtain ⟨last, hlast⟩ : ∃ last, declareTopology json cfg clock' second = (.ok (), last) :=
    ⟨_, Prod.ext h rfl⟩
  obtain ⟨hgrows, hdeclared, -⟩ :=
    declareLoop_accepted (restored_saved hk' hsecond).opened hlast
  obtain ⟨-, again, hagain, hspec'⟩ := hdeclared _ hmem
  cases (hgrows.queues hstored).symm.trans hagain
  rw [← hspec]
  apply inMilliseconds_eq_self.mp
  rw [← hfits, hspec', hspec]

end Twice

/-- A start that is accepted has restored the topology and declared the configuration. -/
theorem build_eq_ok {db : Database} {clock : ℕ → Time} {n : Node} :
    build json cfg clock db = (.ok (), n) ↔
      ∃ restored, (Node.site json).restore (opened db) = .ok restored ∧
        declareTopology json cfg clock restored = (.ok (), n) := by
  have hopened : (⟨Registry.newRegistry, { db with closed := false }⟩ : Node) = opened db := rfl
  simp only [build, hopened]
  cases (Node.site json).restore (opened db) <;> simp

/-- Queue specifications survive the database, and an accepted configuration the next start,
exactly if no durable queue has a visibility timeout with a part below a millisecond: a queue that
is saved is listed with the same specification if and only if that holds for it, and after an
accepted start and any calls on messages the next start with the same configuration is accepted
if and only if it holds for all queues the configuration declares. -/
theorem declarations_survive_iff (json : JsonMaps) (cs : List Call) :
    let db := after (call json) Database.new cs
    (∀ (spec : QueueSpec) createdAt, spec.withDefaults.validate = .ok () → spec.durable = true →
      InYears createdAt → db.closed = false → (∃ queues, (call json .queues db).1 = .ok queues) →
        ∃ queues, (call json .queues
            (call json (.saveQueue ⟨spec.withDefaults, createdAt⟩) db).2).1 = .ok queues ∧
          ((∃ stored ∈ queues, stored.toQueueSpec = spec.withDefaults) ↔
            millisecond ∣ spec.withDefaults.visibilityTimeout)) ∧
    ∀ cfg clock clock' used, (∀ i, InYears (clock i)) → (∀ c ∈ used, ¬ c.WritesTopology) →
      (build json cfg clock db).1 = .ok () →
        ((build json cfg clock'
            (after (call json) (build json cfg clock db).2.db used)).1 = .ok () ↔
          ∀ d ∈ cfg.topology.queues, Whole cfg d) := by
  intro db
  constructor
  · intro spec createdAt _ _ hy ho hread
    exact saveQueue_listed ho hy hread
  · intro cfg clock clock' used hy hused hfirst
    have hk : Keyed db := after_keyed json cs
    obtain ⟨restored, hrestored, hdeclared⟩ := build_eq_ok.mp (Prod.ext hfirst rfl)
    have hsame := after_sameTopology json (build json cfg clock db).2.db hused
    obtain ⟨second, hsecond⟩ := exists_second hk hrestored hdeclared hy hsame
    constructor
    · intro hagain
      obtain ⟨second', hsecond', hdeclared'⟩ := build_eq_ok.mp (Prod.ext hagain rfl)
      exact whole_of_second_accepted hk hrestored hdeclared hy hsame hsecond'
        (congrArg Prod.fst hdeclared')
    · intro hwhole
      have haccepted := second_accepted hk hrestored hdeclared hy hsame hsecond clock' hwhole
      exact congrArg Prod.fst (build_eq_ok.mpr ⟨second, hsecond, Prod.ext haccepted rfl⟩)

/-- A configuration with one durable queue. -/
def oneQueue (visibilityTimeout : Duration) : Config :=
  ⟨⟨30 * second, 3⟩, ⟨[], [⟨"orders", true, 0, visibilityTimeout, ""⟩], []⟩⟩

theorem declarations_survive_iff_oneQueue :
    (build tally (oneQueue 0) (fun _ => 0) Database.new).1 = .ok () ∧
      (build tally (oneQueue 0) (fun _ => 0)
        (build tally (oneQueue 0) (fun _ => 0) Database.new).2.db).1 = .ok () := by
  have hfirst : (build tally (oneQueue 0) (fun _ => 0) Database.new).1 = .ok () := by
    decide +kernel
  have h := (declarations_survive_iff tally []).2 (oneQueue 0) (fun _ => 0) (fun _ => 0) []
    (fun _ => by decide) (by simp) hfirst
  refine ⟨hfirst, h.mpr (fun d hd _ => ?_)⟩
  rw [List.mem_singleton.mp hd]
  decide

/-- A timeout of one and a half milliseconds. -/
theorem declarations_survive_iff_halfMillisecond :
    (build tally (oneQueue 1500000) (fun _ => 0) Database.new).1 = .ok () ∧
      (build tally (oneQueue 1500000) (fun _ => 0)
        (build tally (oneQueue 1500000) (fun _ => 0) Database.new).2.db).1 =
          .error (.declareQueue "orders" (.broker .queueExists)) := by
  constructor <;> decide +kernel

end RabbitmqLite.App
