import RabbitmqLite.Engine.Restart
import RabbitmqLite.Storage.Memory.QueueContents

/-! # Managing queues

Depth, purge and deletion ask the store, and the store knows a queue only if it
is durable. They do what they are for exactly for the durable queues.
-/

namespace RabbitmqLite.Engine
open Broker Collections Storage Atomic
open Memory (Indexed Stocked Declaring pending countOf exec_indexed exec_recordStep)

/-! ## The invariant -/

structure Managed (w : World) : Prop where
  mirrors : w.Mirrors
  indexed : Indexed w.store
  stocked : Stocked w.store.messages

theorem stocked_exec {s : Memory.Store} (h : Stocked s.messages) (hk : s.Keyed) {c : Call}
    (happ : ∀ msgs, c = .append msgs → ∀ msg ∈ msgs, msg.state = .queued) :
    Stocked (Memory.exec c s).2.messages := by
  intro id entry hl
  have hs := exec_recordStep hk c id
  rw [hl] at hs
  cases hold : s.messages.lookup id with
  | some e =>
    rw [hold] at hs
    exact RecordStep.states hs (h id e hold)
  | none =>
    rw [hold] at hs
    obtain ⟨msgs, msg, rfl, -, hm, -, rfl⟩ := hs.of_none
    have hqueued := happ msgs rfl msg hm
    simp [Memory.unleased, hqueued, State.Resting]

theorem Managed.step {engine : Engine} {env : Env} {past : List EngineEvent} {e : Effect}
    {w : World} (h : Managed w) (hg : Generated env w past) (he : Conduct engine past e) :
    Managed (perform env e w).2 := by
  have hm := he.mirrors env h.mirrors
  cases hc : e.call? with
  | none =>
    have hstore : (perform env e w).2.store = w.store := by rw [perform_store, hc]
    exact ⟨hm, by rw [hstore]; exact h.indexed, by rw [hstore]; exact h.stocked⟩
  | some c =>
    have hstore : (perform env e w).2.store = (Memory.exec c w.store).2 := by
      rw [perform_store, hc]
    have hs := he.serving hc
    refine ⟨hm, ?_, ?_⟩ <;> rw [hstore]
    · refine exec_indexed h.indexed c ?_
      cases c with
      | append msgs => exact hg.nodup.sublist (hs.append msgs rfl).1
      | _ => exact List.nodup_nil
    · refine stocked_exec h.stocked h.indexed.keyed (fun msgs hm msg hmem => ?_)
      exact ((hs.append msgs hm).2 msg hmem).state

/-- What holds of a world under every registry and is kept by the write holds after the
operation. -/
theorem World.inBoth_rule {α : Type} {w : World} {P : World → Prop}
    (answer : Except Broker.Error α × Registry)
    {write : α → World → Except Storage.Error Unit × World}
    (hskip : ∀ r, P { w with registry := r })
    (hwrite : ∀ a r, P (write a { w with registry := r }).2) :
    P (site.inBoth w answer write).2 := by
  rcases answer with ⟨e | a, r⟩
  · exact hskip r
  · have hw := hwrite a r
    unfold Site.inBoth
    dsimp only [site]
    split <;> rename_i heq <;> rw [heq] at hw <;> exact hw

/-- The store after a topology operation has seen a declaring call or none, and a queue is only
deleted by the operation for it. -/
def Redeclared (op : TopologyOp) (w w' : World) : Prop :=
  w'.ids = w.ids ∧ w'.tasks = w.tasks ∧
    (w'.store = w.store ∨
      ∃ c, Declaring c ∧ (∀ name, c = .deleteQueue name → op = .deleteQueue name) ∧
        w'.store = (Memory.exec c w.store).2)

theorem TopologyOp.exec_redeclared (op : TopologyOp) (now : Time) (w : World) :
    Redeclared op w (op.exec none now w).2 := by
  have hskip : ∀ r, Redeclared op w { w with registry := r } := fun r => ⟨rfl, rfl, Or.inl rfl⟩
  cases op with
  | declareExchange =>
    refine World.inBoth_rule _ hskip (fun a r => ?_)
    split_ifs
    · exact ⟨rfl, rfl, Or.inr ⟨.saveExchange a, trivial, nofun, rfl⟩⟩
    · exact hskip r
  | declareQueue =>
    refine World.inBoth_rule _ hskip (fun a r => ?_)
    split_ifs
    · exact ⟨rfl, rfl, Or.inr ⟨.saveQueue a, trivial, nofun, rfl⟩⟩
    · exact hskip r
  | bind =>
    exact World.inBoth_rule _ hskip
      (fun a r => ⟨rfl, rfl, Or.inr ⟨.saveBinding a, trivial, nofun, rfl⟩⟩)
  | unbind spec =>
    refine World.inBoth_rule _ hskip (fun a r => ?_)
    rw [Site.ignoreNotFound_snd]
    exact ⟨rfl, rfl, Or.inr ⟨.deleteBinding spec, trivial, nofun, rfl⟩⟩
  | deleteQueue name =>
    refine World.inBoth_rule _ hskip (fun a r => ?_)
    rw [Site.ignoreNotFound_snd]
    exact ⟨rfl, rfl, Or.inr ⟨.deleteQueue name, trivial,
      fun _ h => congrArg _ (Call.deleteQueue.inj h), rfl⟩⟩

theorem Managed.topology {w : World} (h : Managed w) (op : TopologyOp) (now : Time) :
    Managed (op.exec none now w).2 := by
  have hm := op.exec_mirrors now h.mirrors
  obtain ⟨-, -, hstore | ⟨c, hc, -, hstore⟩⟩ := op.exec_redeclared now w
  · exact ⟨hm, by rw [hstore]; exact h.indexed, by rw [hstore]; exact h.stocked⟩
  · refine ⟨hm, ?_, ?_⟩ <;> rw [hstore]
    · refine exec_indexed h.indexed c ?_
      cases c with
      | append => exact hc.elim
      | _ => exact List.nodup_nil
    · exact stocked_exec h.stocked h.indexed.keyed (by rintro msgs rfl; exact hc.elim)

theorem served_managed (engine : Engine) {env : Env} (hinj : Function.Injective env.newID)
    (requests : List Request) : Managed (engine.served env requests).state := by
  refine served_rule Managed (Generated env) (Generated.nil env) ?_ ?_ ?_ ?_ requests
  · intro w past e hw hg he
    exact ⟨hw.step hg he, hg.step hinj e, fun other ho => ho.mono (ids_le_perform env e w)⟩
  · intro w op now hw
    refine ⟨hw.topology op now, fun past hg => hg.mono ?_⟩
    exact (op.exec_redeclared now w).1.ge
  · exact fun w hw => ⟨hw.mirrors.restart, hw.indexed, hw.stocked⟩
  · refine ⟨⟨new_mirrored, rfl⟩, Memory.new_indexed, ?_⟩
    intro id entry hl
    simp [World.init, Memory.Store.new] at hl

/-! ## The contract -/

/-- What the methods for whole queues are for. -/
structure Manageable (engine : Engine) (env : Env) (w : World) (name : String) : Prop where
  depth : (w.callStore (.depth name)).1 = .ok
    { ready := countOf w.store.messages name (· == .queued)
      inFlight := countOf w.store.messages name (· == .processing)
      scheduled := countOf w.store.messages name (· == .retrying)
      total := countOf w.store.messages name (fun state => !state.terminal) }
  purge : ∃ purged, (w.callStore (.purge name)).1 = .ok purged
  purged : ∀ id, (w.callStore (.purge name)).2.store.messages.lookup id =
    if pending w.store.messages name id then none else w.store.messages.lookup id
  deleted : ∀ w', World.site.deleteQueue w none name = (.ok (), w') →
    (∀ id, pending w'.store.messages name id = false) ∧
      ∀ spec now req msgs, spec.name = name → req.queue = name →
        (engine.exec env (.pull req) (World.site.declareQueue w' none spec now).2).1 = .ok msgs →
        msgs = []

/-- A claim hands out pending messages of its queue only. -/
theorem claim_eq_nil {s : Memory.Store} (h : Indexed s) {req : ClaimRequest} {msgs : List Message}
    (hnone : ∀ id, pending s.messages req.queue id = false)
    (hr : (Memory.exec (.claim req) s).1 = .ok msgs) : msgs = [] := by
  have ho : s.closed = false := by
    by_contra hc
    rw [Bool.not_eq_false] at hc
    simp [Memory.exec, Memory.Store.claim, Memory.Store.unlessClosed, hc] at hr
  have hlim : 0 ≤ req.limit := by
    by_contra hneg
    obtain ⟨t, hcl, -⟩ := h.compactLocked req.queue
    simp [Memory.exec, Memory.Store.claim, Memory.Store.unlessClosed, ho, hcl, not_le.mp hneg] at hr
  obtain ⟨t, messages, hc, -, he⟩ := h.claim ho hlim
  have hfilter : (t.order req.queue).filter (Memory.claimableIn s.messages req.now) = [] := by
    rw [List.filter_eq_nil_iff]
    intro id hid hclaimable
    obtain ⟨entry, hl, hentry⟩ := Memory.claimableIn_iff.mp hclaimable
    obtain ⟨entry', hl', hq⟩ := hc.indexed.listed req.queue id hid
    rw [hc.messages_eq, hl] at hl'
    obtain rfl := Option.some.inj hl'
    have hpending : pending s.messages req.queue id = true :=
      Memory.holds_iff.mpr ⟨entry, hl, hq, by simp [Memory.terminal_of_claimable hentry]⟩
    rw [hnone id] at hpending
    cases hpending
  simp only [Memory.exec, he, hfilter] at hr
  simpa using hr.symm

theorem pull_eq_nil {engine : Engine} {env : Env} {w : World} (h : Indexed w.store)
    {req : PullRequest} {msgs : List Message}
    (hnone : ∀ id, pending w.store.messages req.queue id = false)
    (hr : (engine.exec env (.pull req) w).1 = .ok msgs) : msgs = [] := by
  simp only [exec, program, pull, Prog.run_bind, Prog.run_perform, perform] at hr
  cases hq : w.registry.queue req.queue with
  | error e => simp [hq] at hr
  | ok queue =>
    simp only [hq, clock, store, Prog.run_bind, Prog.run_perform, perform, World.callStore] at hr
    split at hr
    · simp at hr
    · rename_i claimed hclaim
      simp only [Prog.run_bind, Prog.run_pure, Except.ok.injEq] at hr
      subst hr
      exact claim_eq_nil h hnone hclaim

theorem declareQueue_messages {w : World} (ho : w.store.closed = false) (spec : QueueSpec)
    (now : Time) :
    (World.site.declareQueue w none spec now).2.store.messages = w.store.messages := by
  rw [World.declareQueue_of_open ho]
  split <;> rfl

/-- Deleting a queue the store knows leaves no pending message of it. -/
theorem Managed.deleteQueue_pending {w w' : World} (h : Managed w) {name : String} {queue : Queue}
    (hstored : w.store.queues.lookup name = some queue)
    (hw' : World.site.deleteQueue w none name = (.ok (), w')) (id : String) :
    pending w'.store.messages name id = false := by
  have hgone := h.indexed.deleteQueue_pending hstored id
  change World.site.inBoth w (w.registry.deleteQueue name) _ = _ at hw'
  rcases w.registry.deleteQueue_cases name with ⟨e, hr⟩ | ⟨-, -, hr⟩ <;> rw [hr] at hw'
  · simp [Site.inBoth] at hw'
  · simp only [Memory.Store.deleteQueue, hstored] at hgone
    simp only [Site.inBoth, Site.write, Site.ignoreNotFound, World.site, World.callStore,
      Memory.exec, Memory.Store.deleteQueue, hstored] at hw'
    rw [← (Prod.mk.inj hw').2]
    exact hgone

/-- In every reachable state, the methods for whole queues work for a declared queue exactly
if it is durable. -/
theorem manageable_iff_durable (engine : Engine) (env : Env) (hinj : Function.Injective env.newID)
    (requests : List Request) (name : String) (queue : Queue)
    (hq : (engine.served env requests).state.registry.queues.lookup name = some queue) :
    Manageable engine env (engine.served env requests).state name ↔ queue.durable = true := by
  have h := served_managed engine hinj requests
  generalize (engine.served env requests).state = w at hq h
  constructor
  · intro hm
    have hdepth := hm.depth
    by_contra hd
    have hstored : w.store.queues.lookup name = none := by
      rw [h.mirrors.mirrored.queues, hq]
      simp [Option.filter, hd]
    simp [World.callStore, Memory.exec, Memory.Store.depth, hstored] at hdepth
  · intro hd
    have hstored : w.store.queues.lookup name = some queue := by
      rw [h.mirrors.mirrored.queues, hq]
      simp [Option.filter, hd]
    obtain ⟨hpurge, hpurged⟩ := h.indexed.purge_pending hstored
    refine ⟨?_, ⟨_, hpurge⟩, hpurged, fun w' hw' => ?_⟩
    · simp only [World.callStore, Memory.exec, h.indexed.depth_eq h.stocked hstored]
    · have hgone := h.deleteQueue_pending hstored hw'
      have hm : Managed w' := by
        have hm := h.topology (.deleteQueue name) 0
        simpa only [TopologyOp.exec, hw'] using hm
      refine ⟨hgone, fun spec now req msgs hspec hreq hr => ?_⟩
      refine pull_eq_nil (hm.topology (.declareQueue spec) now).indexed (fun id => ?_) hr
      rw [hreq]
      simp only [TopologyOp.exec, withoutResult, declareQueue_messages hm.mirrors.opened]
      exact hgone id

/-- A message is published to a durable queue and to one that is not. -/
def twoQueues : List Request :=
  [.topology (.declareExchange ⟨"shop", .fanout, true⟩) 1,
   .topology (.declareQueue ⟨"orders", true, 3, 30, ""⟩) 2,
   .topology (.declareQueue ⟨"drafts", false, 3, 30, ""⟩) 3,
   .topology (.bind ⟨"shop", "orders", "orders"⟩) 4,
   .topology (.bind ⟨"shop", "drafts", "drafts"⟩) 5] ++
  (Action.begin (.publish order) 0 8).map .act

def twoQueuesEngine : Engine := ordersEngine 3 threeAttempts

theorem manageable_iff_durable_orders :
    (twoQueuesEngine.served steadyEnv twoQueues).state.registry.queues.lookup "orders" =
        some ⟨⟨"orders", true, 3, 30, ""⟩, 2⟩ ∧
      Manageable twoQueuesEngine steadyEnv (twoQueuesEngine.served steadyEnv twoQueues).state
        "orders" := by
  have hq : (twoQueuesEngine.served steadyEnv twoQueues).state.registry.queues.lookup "orders" =
      some ⟨⟨"orders", true, 3, 30, ""⟩, 2⟩ := by decide +kernel
  exact ⟨hq, (manageable_iff_durable twoQueuesEngine steadyEnv (ordersEnv_injective []) twoQueues
    "orders" _ hq).mpr rfl⟩

/-- The queue that is not durable can be neither measured nor purged, and its message is
still queued after the queue was unbound and deleted. -/
theorem manageable_draftsLeft :
    ¬ Manageable twoQueuesEngine steadyEnv (twoQueuesEngine.served steadyEnv twoQueues).state
        "drafts" ∧
      ((twoQueuesEngine.served steadyEnv twoQueues).state.callStore (.purge "drafts")).1 =
        .error .notFound ∧
      ((twoQueuesEngine.served steadyEnv (twoQueues ++
        [.topology (.unbind ⟨"shop", "drafts", "drafts"⟩) 6,
         .topology (.deleteQueue "drafts") 7])).state.store.messages.lookup "|").map
          (fun entry => (entry.msg.queue, entry.msg.state)) = some ("drafts", .queued) := by
  refine ⟨fun h => ?_, by decide +kernel, by decide +kernel⟩
  have hdepth := h.depth
  revert hdepth
  decide +kernel

end RabbitmqLite.Engine
