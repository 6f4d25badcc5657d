import RabbitmqLite.Engine.Conduct
import RabbitmqLite.Engine.Topology
import RabbitmqLite.Storage.Memory.Tables

/-! # The registry and the store describe the same topology

Durable exchanges and queues and all bindings are in both, each name under
itself and each binding under its key. Message operations touch neither copy,
every topology operation changes both alike, and a restart rebuilds from the
store what the registry said, up to what was not durable.
-/

namespace RabbitmqLite.Engine
open Broker Collections Storage Atomic
open Memory (SameTables Declaring exec_sameTables exec_closed)

structure Mirrored (r : Registry) (s : Memory.Store) : Prop where
  exchangeNames : ∀ n x, r.exchanges.lookup n = some x → x.name = n
  queueNames : ∀ n q, r.queues.lookup n = some q → q.name = n
  home : ∀ e, ∀ b ∈ r.bindingsFor e, b.exchange = e ∧ b.Named
  distinct : ∀ e, ((r.bindingsFor e).map (fun b => b.key)).Nodup
  exchanges : ∀ n, s.exchanges.lookup n = (r.exchanges.lookup n).filter (fun x => x.durable)
  queues : ∀ n, s.queues.lookup n = (r.queues.lookup n).filter (fun q => q.durable)
  bindings : ∀ k b, s.bindings.lookup k = some b ↔ b ∈ r.bindingsFor b.exchange ∧ b.key = k

theorem new_mirrored : Mirrored Registry.newRegistry Memory.Store.new where
  exchangeNames := by simp [Registry.newRegistry]
  queueNames := by simp [Registry.newRegistry]
  home := by simp [Registry.newRegistry, Registry.bindingsFor]
  distinct := by simp [Registry.newRegistry, Registry.bindingsFor]
  exchanges := by simp [Registry.newRegistry, Memory.Store.new]
  queues := by simp [Registry.newRegistry, Memory.Store.new]
  bindings := by simp [Registry.newRegistry, Registry.bindingsFor, Memory.Store.new]

namespace Mirrored
variable {r : Registry} {s : Memory.Store}

theorem sameTables (h : Mirrored r s) {t : Memory.Store} (ht : SameTables s t) : Mirrored r t where
  exchangeNames := h.exchangeNames
  queueNames := h.queueNames
  home := h.home
  distinct := h.distinct
  exchanges := by rw [ht.exchanges]; exact h.exchanges
  queues := by rw [ht.queues]; exact h.queues
  bindings := by rw [ht.bindings]; exact h.bindings

/-- Inserting what a map holds already changes nothing. -/
theorem insert_of_lookup {β : Type} {m : Map String β} {n : String} {v : β}
    (h : m.lookup n = some v) : m.insert n v = m := by
  apply Finmap.ext_lookup
  intro x
  rw [lookup_insert_eq]
  split_ifs with hx
  · rw [hx, h]
  · rfl

/-! ## Exchanges and queues -/

/-- A table of declarations and the table of the durable ones grow by the same entry. -/
theorem lookup_declared {β : Type} {m n : Map String β} {durable : β → Bool} {name : String}
    {v : β} (h : ∀ x, n.lookup x = (m.lookup x).filter durable) (hnew : m.lookup name = none)
    (x : String) :
    (if durable v then n.insert name v else n).lookup x =
      ((m.insert name v).lookup x).filter durable := by
  by_cases hd : durable v = true
  · rw [if_pos hd, lookup_insert_eq, lookup_insert_eq]
    split_ifs
    · simp [Option.filter, hd]
    · exact h x
  · rw [if_neg hd, lookup_insert_eq]
    split_ifs with hx
    · subst hx
      simp [h, hnew, Option.filter, hd]
    · exact h x

theorem declareExchange (h : Mirrored r s) {spec : ExchangeSpec} (now : Time)
    (hnew : r.exchanges.lookup spec.name = none) :
    Mirrored { r with exchanges := r.exchanges.insert spec.name ⟨spec, now⟩ }
      { s with exchanges :=
        if spec.durable then s.exchanges.insert spec.name ⟨spec, now⟩ else s.exchanges } where
  exchangeNames := by
    intro n x hl
    rw [lookup_insert_eq] at hl
    split_ifs at hl with hn
    · rw [← Option.some.inj hl, hn]
    · exact h.exchangeNames n x hl
  queueNames := h.queueNames
  home := h.home
  distinct := h.distinct
  exchanges := lookup_declared (v := (⟨spec, now⟩ : Exchange)) h.exchanges hnew
  queues := h.queues
  bindings := h.bindings

theorem declareQueue (h : Mirrored r s) (queue : Queue)
    (hnew : r.queues.lookup queue.name = none) :
    Mirrored { r with queues := r.queues.insert queue.name queue }
      { s with queues :=
        if queue.durable then s.queues.insert queue.name queue else s.queues } where
  exchangeNames := h.exchangeNames
  queueNames := by
    intro n q hl
    rw [lookup_insert_eq] at hl
    split_ifs at hl with hn
    · rw [← Option.some.inj hl, hn]
    · exact h.queueNames n q hl
  home := h.home
  distinct := h.distinct
  exchanges := h.exchanges
  queues := lookup_declared (v := queue) h.queues hnew
  bindings := h.bindings

theorem deleteQueue (h : Mirrored r s) (name : String) {t : Memory.Store}
    (he : t.exchanges = s.exchanges) (hb : t.bindings = s.bindings)
    (hq : ∀ n, t.queues.lookup n = if n = name then none else s.queues.lookup n) :
    Mirrored { r with queues := r.queues.erase name } t where
  exchangeNames := h.exchangeNames
  queueNames := by
    intro n q hl
    rw [lookup_erase_eq] at hl
    split_ifs at hl
    exact h.queueNames n q hl
  home := h.home
  distinct := h.distinct
  exchanges := by rw [he]; exact h.exchanges
  queues := by
    intro n
    rw [hq, lookup_erase_eq]
    split_ifs
    · rfl
    · exact h.queues n
  bindings := by rw [hb]; exact h.bindings

/-! ## Bindings -/

/-- Bindings of the registry are told apart by their keys. -/
theorem eq_of_key (h : Mirrored r s) {e e' : String} {b b' : Binding} (hb : b ∈ r.bindingsFor e)
    (hb' : b' ∈ r.bindingsFor e') (hk : b.key = b'.key) : b = b' := by
  have hspec := BindingSpec.key_injective (h.home e b hb).2 (h.home e' b' hb').2 hk
  have he : e = e' := by rw [← (h.home e b hb).1, ← (h.home e' b' hb').1, hspec]
  subst he
  exact List.inj_on_of_nodup_map (h.distinct e) hb hb' hk

theorem bind (h : Mirrored r s) {spec : BindingSpec} (hb : r.Bindable spec) (now : Time) :
    Mirrored (r.setBindings spec.exchange (r.bindingsFor spec.exchange ++ [⟨spec, now⟩]))
      { s with bindings := s.bindings.insert spec.key ⟨spec, now⟩ } := by
  obtain ⟨exchange, -, hvalid⟩ := hb.valid
  have hnamed : spec.Named := BindingSpec.named_of_validate hvalid
  have hmem : ∀ e b, b ∈ (r.setBindings spec.exchange
      (r.bindingsFor spec.exchange ++ [⟨spec, now⟩])).bindingsFor e ↔
      b ∈ r.bindingsFor e ∨ e = spec.exchange ∧ b = ⟨spec, now⟩ := by
    intro e b
    rw [Registry.bindingsFor_setBindings]
    split_ifs with he
    · subst he
      simp
    · simp [he]
  have hhome : ∀ e b, b ∈ r.bindingsFor e ∨ e = spec.exchange ∧ b = ⟨spec, now⟩ →
      b.exchange = e ∧ b.Named := by
    rintro e b (hold | ⟨rfl, rfl⟩)
    · exact h.home e b hold
    · exact ⟨rfl, hnamed⟩
  refine ⟨h.exchangeNames, h.queueNames, fun e b hm => hhome e b ((hmem e b).mp hm), fun e => ?_,
    h.exchanges, h.queues, fun k b => ?_⟩
  · rw [Registry.bindingsFor_setBindings]
    split_ifs with he
    · rw [List.map_append]
      refine (h.distinct _).append (List.nodup_singleton _) (List.disjoint_singleton.mpr ?_)
      rw [List.mem_map]
      rintro ⟨b, hm, hk⟩
      exact hb.unused b hm hk
    · exact h.distinct e
  · rw [lookup_insert_eq, hmem]
    split_ifs with hk
    · subst hk
      constructor
      · intro hnew
        obtain rfl := Option.some.inj hnew
        exact ⟨Or.inr ⟨rfl, rfl⟩, rfl⟩
      · rintro ⟨hold | ⟨-, rfl⟩, hkey⟩
        · have hspec := BindingSpec.key_injective (h.home _ b hold).2 hnamed hkey
          exact absurd hkey (hb.unused b (hspec ▸ hold))
        · rfl
    · rw [h.bindings]
      constructor
      · exact fun ⟨hold, hkey⟩ => ⟨Or.inl hold, hkey⟩
      · rintro ⟨hold | ⟨-, rfl⟩, hkey⟩
        · exact ⟨hold, hkey⟩
        · exact absurd hkey.symm hk

theorem unbind (h : Mirrored r s) {spec : BindingSpec} {before later : List Binding} {b : Binding}
    (hsplit : r.bindingsFor spec.exchange = before ++ b :: later) (hk : b.key = spec.key) :
    Mirrored (r.setBindings spec.exchange (before ++ later))
      { s with bindings := s.bindings.erase spec.key } := by
  have hb : b ∈ r.bindingsFor spec.exchange := by simp [hsplit]
  have hsub : (before ++ later).Sublist (r.bindingsFor spec.exchange) := by
    rw [hsplit]
    exact (List.Sublist.refl before).append (List.sublist_cons_self b later)
  have hgone : ∀ b' ∈ before ++ later, b'.key ≠ spec.key := by
    have hn := h.distinct spec.exchange
    rw [hsplit, List.map_append, List.map_cons, List.nodup_middle, List.nodup_cons,
      ← List.map_append, List.mem_map] at hn
    exact fun b' hb' hkey => hn.1 ⟨b', hb', by rw [hkey, hk]⟩
  have hmem : ∀ e b', b' ∈ (r.setBindings spec.exchange (before ++ later)).bindingsFor e ↔
      b' ∈ r.bindingsFor e ∧ b'.key ≠ spec.key := by
    intro e b'
    rw [Registry.bindingsFor_setBindings]
    split_ifs with he
    · subst he
      refine ⟨fun hb' => ⟨hsub.subset hb', hgone b' hb'⟩, fun ⟨hold, hkey⟩ => ?_⟩
      rw [hsplit, List.mem_append, List.mem_cons] at hold
      rcases hold with hold | rfl | hold
      · exact List.mem_append_left later hold
      · exact absurd hk hkey
      · exact List.mem_append_right before hold
    · refine ⟨fun hb' => ⟨hb', fun hkey => he ?_⟩, fun hb' => hb'.1⟩
      have heq := h.eq_of_key hb' hb (hkey.trans hk.symm)
      rw [← (h.home e b' hb').1, heq, (h.home _ b hb).1]
  refine ⟨h.exchangeNames, h.queueNames, fun e b' hb' => h.home e b' ((hmem e b').mp hb').1,
    fun e => ?_, h.exchanges, h.queues, fun k b' => ?_⟩
  · rw [Registry.bindingsFor_setBindings]
    split_ifs with he
    · exact (h.distinct _).sublist (hsub.map _)
    · exact h.distinct e
  · rw [lookup_erase_eq, hmem]
    split_ifs with hkey
    · subst hkey
      simp only [false_iff]
      exact fun ⟨hold, hkey⟩ => hold.2 hkey
    · rw [h.bindings]
      exact ⟨fun ⟨hold, hk'⟩ => ⟨⟨hold, hk' ▸ hkey⟩, hk'⟩, fun ⟨hold, hk'⟩ => ⟨hold.1, hk'⟩⟩

end Mirrored

/-! ## The operations -/

/-- The part of the world that topology operations are about. -/
structure World.Mirrors (w : World) : Prop where
  mirrored : Mirrored w.registry w.store
  opened : w.store.closed = false

namespace World
variable {w : World}

theorem declareExchange_of_open (ho : w.store.closed = false) (spec : ExchangeSpec) (now : Time) :
    site.declareExchange w none spec now =
      match w.registry.declareExchange spec now with
      | (.error e, r) => (.error (.broker e), { w with registry := r })
      | (.ok exchange, r) => (.ok exchange, { w with
          registry := r
          store := { w.store with exchanges :=
            if exchange.durable then w.store.exchanges.insert exchange.name exchange
            else w.store.exchanges } }) := by
  change site.inBoth w (w.registry.declareExchange spec now) _ = _
  rcases w.registry.declareExchange spec now with ⟨e | a, r⟩
  · rfl
  · by_cases hd : a.durable = true
    · simp [Site.inBoth, Site.write, site, callStore, Memory.exec, Memory.Store.saveExchange,
        Memory.Store.unlessClosed, ho, hd]
    · simp [Site.inBoth, site, hd]

theorem declareQueue_of_open (ho : w.store.closed = false) (spec : QueueSpec) (now : Time) :
    site.declareQueue w none spec now =
      match w.registry.declareQueue spec now with
      | (.error e, r) => (.error (.broker e), { w with registry := r })
      | (.ok queue, r) => (.ok queue, { w with
          registry := r
          store := { w.store with queues :=
            if queue.durable then w.store.queues.insert queue.name queue
            else w.store.queues } }) := by
  change site.inBoth w (w.registry.declareQueue spec now) _ = _
  rcases w.registry.declareQueue spec now with ⟨e | a, r⟩
  · rfl
  · by_cases hd : a.durable = true
    · simp [Site.inBoth, Site.write, site, callStore, Memory.exec, Memory.Store.saveQueue,
        Memory.Store.unlessClosed, ho, hd]
    · simp [Site.inBoth, site, hd]

theorem bind_of_open (ho : w.store.closed = false) (spec : BindingSpec) (now : Time) :
    site.bind w none spec now =
      match w.registry.bind spec now with
      | (.error e, r) => (.error (.broker e), { w with registry := r })
      | (.ok binding, r) => (.ok binding, { w with
          registry := r
          store := { w.store with
            bindings := w.store.bindings.insert binding.key binding } }) := by
  change site.inBoth w (w.registry.bind spec now) _ = _
  rcases w.registry.bind spec now with ⟨e | a, r⟩
  · rfl
  · simp [Site.inBoth, Site.write, site, callStore, Memory.exec, Memory.Store.saveBinding,
      Memory.Store.unlessClosed, ho]

theorem Mirrors.declareExchange (h : w.Mirrors) (spec : ExchangeSpec) (now : Time) :
    (site.declareExchange w none spec now).2.Mirrors := by
  rw [declareExchange_of_open h.opened]
  rcases w.registry.declareExchange_cases spec now with
    ⟨e, hr⟩ | ⟨exchange, hl, hr⟩ | ⟨hnew, hr⟩ <;> rw [hr]
  · exact h
  · -- An exchange that is declared again is saved again, to the same effect.
    have hsame : (if exchange.durable then w.store.exchanges.insert exchange.name exchange
        else w.store.exchanges) = w.store.exchanges := by
      split_ifs with hd
      · apply Mirrored.insert_of_lookup
        rw [h.mirrored.exchangeNames _ _ hl, h.mirrored.exchanges, hl]
        simp [Option.filter, hd]
      · rfl
    dsimp only
    rw [hsame]
    exact h
  · exact ⟨h.mirrored.declareExchange now hnew, h.opened⟩

theorem Mirrors.declareQueue (h : w.Mirrors) (spec : QueueSpec) (now : Time) :
    (site.declareQueue w none spec now).2.Mirrors := by
  rw [declareQueue_of_open h.opened]
  rcases w.registry.declareQueue_cases spec now with ⟨e, hr⟩ | ⟨queue, hl, hr⟩ | ⟨hnew, hr⟩ <;>
    rw [hr]
  · exact h
  · have hsame : (if queue.durable then w.store.queues.insert queue.name queue
        else w.store.queues) = w.store.queues := by
      split_ifs with hd
      · apply Mirrored.insert_of_lookup
        rw [h.mirrored.queueNames _ _ hl, h.mirrored.queues, hl]
        simp [Option.filter, hd]
      · rfl
    dsimp only
    rw [hsame]
    exact h
  · exact ⟨h.mirrored.declareQueue ⟨spec.withDefaults, now⟩ hnew, h.opened⟩

theorem Mirrors.bind (h : w.Mirrors) (spec : BindingSpec) (now : Time) :
    (site.bind w none spec now).2.Mirrors := by
  rw [bind_of_open h.opened]
  rcases w.registry.bind_cases spec now with ⟨e, hr⟩ | ⟨b, hb, -, hr⟩ | ⟨hnew, hr⟩ <;> rw [hr]
  · exact h
  · have hstored : w.store.bindings.lookup b.key = some b :=
      (h.mirrored.bindings b.key b).mpr ⟨by rwa [(h.mirrored.home _ b hb).1], rfl⟩
    dsimp only
    rw [Mirrored.insert_of_lookup hstored]
    exact h
  · exact ⟨h.mirrored.bind hnew now, h.opened⟩

theorem Mirrors.unbind (h : w.Mirrors) (spec : BindingSpec) :
    (site.unbind w none spec).2.Mirrors := by
  change (site.inBoth w (w.registry.unbind spec) _).2.Mirrors
  unfold Site.inBoth
  rcases w.registry.unbind_cases spec with ⟨-, hr⟩ | ⟨before, b, later, hsplit, hk, hr⟩ <;> rw [hr]
  · exact h
  · have hb : b ∈ w.registry.bindingsFor spec.exchange := by simp [hsplit]
    have hstored : w.store.bindings.lookup spec.key = some b :=
      (h.mirrored.bindings spec.key b).mpr ⟨by rwa [(h.mirrored.home _ b hb).1], hk⟩
    simp only [Site.write, Site.ignoreNotFound, site, callStore, Memory.exec,
      Memory.Store.deleteBinding, hstored]
    exact ⟨h.mirrored.unbind hsplit hk, h.opened⟩

theorem Mirrors.deleteQueue (h : w.Mirrors) (name : String) :
    (site.deleteQueue w none name).2.Mirrors := by
  change (site.inBoth w (w.registry.deleteQueue name) _).2.Mirrors
  unfold Site.inBoth
  rcases w.registry.deleteQueue_cases name with ⟨e, hr⟩ | ⟨-, -, hr⟩ <;> rw [hr]
  · exact h
  · cases hl : w.store.queues.lookup name with
    | none =>
      simp only [Site.write, Site.ignoreNotFound, site, callStore, Memory.exec,
        Memory.Store.deleteQueue, hl]
      refine ⟨h.mirrored.deleteQueue name rfl rfl (fun n => ?_), h.opened⟩
      split_ifs with hn
      · rw [hn, hl]
      · rfl
    | some queue =>
      simp only [Site.write, Site.ignoreNotFound, site, callStore, Memory.exec,
        Memory.Store.deleteQueue, hl]
      exact ⟨h.mirrored.deleteQueue name rfl rfl (fun n => lookup_erase_eq _ _ _), h.opened⟩

end World

theorem TopologyOp.exec_mirrors (op : TopologyOp) (now : Time) {w : World} (h : w.Mirrors) :
    (op.exec none now w).2.Mirrors := by
  cases op with
  | declareExchange spec => exact h.declareExchange spec now
  | declareQueue spec => exact h.declareQueue spec now
  | bind spec => exact h.bind spec now
  | unbind spec => exact h.unbind spec
  | deleteQueue name => exact h.deleteQueue name

/-! ## Message operations -/

/-- An effect the contract allows does not touch the topology in the store. -/
theorem Conduct.frame {engine : Engine} {past : List EngineEvent} {e : Effect}
    (h : Conduct engine past e) (env : Env) (w : World) :
    SameTables w.store (perform env e w).2.store ∧
      (perform env e w).2.store.closed = w.store.closed := by
  rw [perform_store]
  cases hc : e.call? with
  | none => exact ⟨SameTables.refl _, rfl⟩
  | some c =>
    have hs := h.serving hc
    exact ⟨exec_sameTables hs.tables _, exec_closed hs.opened _⟩

theorem Conduct.mirrors {engine : Engine} {past : List EngineEvent} {e : Effect}
    (h : Conduct engine past e) (env : Env) {w : World} (hw : w.Mirrors) :
    (perform env e w).2.Mirrors := by
  obtain ⟨ht, hc⟩ := h.frame env w
  refine ⟨?_, hc.trans hw.opened⟩
  rw [perform_registry]
  exact hw.mirrored.sameTables ht

/-! ## Restarts -/

namespace World
variable {w : World}

theorem restart_eq (w : World) :
    w.restart = { w.reopened with
      registry := Registry.newRegistry.restore (Memory.Store.sortedValues w.store.exchanges)
        (Memory.Store.sortedValues w.store.queues)
        (Memory.Store.sortedValues w.store.bindings) } := rfl

@[simp] theorem restart_store (w : World) : w.restart.store = w.store := rfl

theorem Mirrors.restart_exchanges (h : w.Mirrors) (n : String) :
    w.restart.registry.exchanges.lookup n =
      (w.registry.exchanges.lookup n).filter (fun x => x.durable) := by
  rw [restart_eq, ← h.mirrored.exchanges]
  simp only [Registry.restore, Registry.exchanges_restoreBindings]
  refine lookup_insertAll_values _ (fun n x hl => ?_) n
  rw [h.mirrored.exchanges] at hl
  exact h.mirrored.exchangeNames n x (Option.filter_eq_some_iff.mp hl).1

theorem Mirrors.restart_queues (h : w.Mirrors) (n : String) :
    w.restart.registry.queues.lookup n =
      (w.registry.queues.lookup n).filter (fun q => q.durable) := by
  rw [restart_eq, ← h.mirrored.queues]
  simp only [Registry.restore, Registry.queues_restoreBindings]
  refine lookup_insertAll_values _ (fun n q hl => ?_) n
  rw [h.mirrored.queues] at hl
  exact h.mirrored.queueNames n q (Option.filter_eq_some_iff.mp hl).1

theorem restart_bindingsFor (w : World) (e : String) :
    w.restart.registry.bindingsFor e =
      (Memory.Store.sortedValues w.store.bindings).filter (fun b => b.exchange = e) := by
  rw [restart_eq]
  simp only [Registry.restore, Registry.bindingsFor_restoreBindings]
  simp [Registry.bindingsFor, Registry.newRegistry]

theorem Mirrors.mem_sortedValues (h : w.Mirrors) {b : Binding} :
    b ∈ Memory.Store.sortedValues w.store.bindings ↔
      b ∈ w.registry.bindingsFor b.exchange := by
  simp only [Memory.Store.sortedValues, List.mem_filterMap, mem_sortedKeys, mem_iff_lookup,
    h.mirrored.bindings]
  constructor
  · rintro ⟨k, -, hb, -⟩
    exact hb
  · exact fun hb => ⟨b.key, ⟨b, hb, rfl⟩, hb, rfl⟩

theorem Mirrors.mem_restart_bindingsFor (h : w.Mirrors) {e : String} {b : Binding} :
    b ∈ w.restart.registry.bindingsFor e ↔ b ∈ w.registry.bindingsFor e := by
  rw [restart_bindingsFor, List.mem_filter, h.mem_sortedValues, decide_eq_true_eq]
  constructor
  · rintro ⟨hb, rfl⟩
    exact hb
  · intro hb
    have he := (h.mirrored.home e b hb).1
    exact ⟨by rwa [he], he⟩

theorem Mirrors.restart (h : w.Mirrors) : w.restart.Mirrors where
  opened := h.opened
  mirrored :=
    { exchangeNames := by
        intro n x hl
        rw [h.restart_exchanges] at hl
        exact h.mirrored.exchangeNames n x (Option.filter_eq_some_iff.mp hl).1
      queueNames := by
        intro n q hl
        rw [h.restart_queues] at hl
        exact h.mirrored.queueNames n q (Option.filter_eq_some_iff.mp hl).1
      home := fun e b hb => h.mirrored.home e b (h.mem_restart_bindingsFor.mp hb)
      distinct := by
        intro e
        have hkeys := map_key_values (fun b : Binding => b.key) (m := w.store.bindings)
          (fun k b hl => ((h.mirrored.bindings k b).mp hl).2)
        rw [restart_bindingsFor]
        refine List.Nodup.sublist (List.filter_sublist.map _) ?_
        rw [Memory.Store.sortedValues, hkeys]
        exact sortedKeys_nodup _
      exchanges := by
        intro n
        rw [h.restart_exchanges, restart_store, h.mirrored.exchanges, Option.filter_filter]
        simp
      queues := by
        intro n
        rw [h.restart_queues, restart_store, h.mirrored.queues, Option.filter_filter]
        simp
      bindings := by
        intro k b
        rw [h.mem_restart_bindingsFor]
        exact h.mirrored.bindings k b }

end World

/-! ## Runs -/

section Rule
variable {engine : Engine} {env : Env} (I : World → Prop)
  (means : World → List EngineEvent → Prop)

/-- What every request keeps holds after every run: the steps of the message operations,
which know what their pasts mean, topology operations and restarts. -/
theorem served_rule (hnil : ∀ w, means w [])
    (hstep : ∀ w past e, I w → means w past → Conduct engine past e →
      I (perform env e w).2 ∧ means (perform env e w).2 (past ++ [⟨e, (perform env e w).1⟩]) ∧
        ∀ other, means w other → means (perform env e w).2 other)
    (htopology : ∀ w (op : TopologyOp) now, I w → I (op.exec none now w).2 ∧
      ∀ past, means w past → means (op.exec none now w).2 past)
    (hrestart : ∀ w, I w → I w.restart) (hinit : I (World.init Registry.newRegistry))
    (requests : List Request) :
    I (engine.served env requests).state := by
  suffices h : (engine.served env requests).Contracted (Conduct engine) means ∧
      I (engine.served env requests).state from h.2
  unfold served
  induction requests using List.reverseRecOn with
  | nil => exact ⟨Config.init_contracted _ _, hinit⟩
  | append_singleton requests request ih =>
    obtain ⟨hx, hI⟩ := ih
    rw [after_append, after_singleton]
    cases request with
    | act action =>
      have hprogram : ∀ op, True → (engine.program op).void.Obeys (Conduct engine) []
          (fun _ _ => True) := fun op _ => (program_obeys op).void.mono (fun _ _ _ => trivial)
      exact hx.act hprogram hnil (fun w past e hI hm hc (_ : True) => hstep w past e hI hm hc)
        (fun _ _ => trivial) (Config.meets_true _ action) hI
    | topology op now =>
      obtain ⟨hI', hmeans⟩ := htopology _ op now hI
      refine ⟨fun p hp => ?_, hI'⟩
      obtain ⟨past, hobeys, hm⟩ := hx p hp
      exact ⟨past, hobeys, hmeans past hm⟩
    | restart => exact ⟨fun p hp => absurd hp List.not_mem_nil, hrestart _ hI⟩

end Rule

theorem served_mirrors (engine : Engine) (env : Env) (requests : List Request) :
    (engine.served env requests).state.Mirrors := by
  refine served_rule World.Mirrors (fun _ _ => True) (fun _ => trivial) ?_ ?_ ?_ ?_ requests
  · exact fun w past e hw _ he => ⟨he.mirrors env hw, trivial, fun _ _ => trivial⟩
  · exact fun w op now hw => ⟨op.exec_mirrors now hw, fun _ _ => trivial⟩
  · exact fun w hw => hw.restart
  · exact ⟨new_mirrored, rfl⟩

end RabbitmqLite.Engine
