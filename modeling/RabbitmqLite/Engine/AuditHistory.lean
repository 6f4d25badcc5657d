import RabbitmqLite.Engine.Change
import RabbitmqLite.Engine.NoLoss

/-! # The audit history

The history of a message is a chain of legal transitions from its creation to
its stored state, if the message never fails. A failure breaks the chain: the
engine records that a failed message is retried or given up, but not that a
message in processing failed, nor that one waiting for its retry was queued
again. A refused hand-off breaks it too, since the release is not recorded.
-/

namespace RabbitmqLite.Engine
open Broker Collections Storage Atomic
open Memory (Record)

/-- The events lead from one state to another by legal transitions. -/
def Chained : State → List HistoryEvent → State → Prop
  | s, [], t => s = t
  | s, event :: events, t =>
    event.source = s ∧ s.canTransitionTo event.target = true ∧ Chained event.target events t

instance decidableChained :
    (s : State) → (events : List HistoryEvent) → (t : State) → Decidable (Chained s events t)
  | s, [], t => inferInstanceAs (Decidable (s = t))
  | _, event :: events, t =>
    have := decidableChained event.target events t
    inferInstanceAs (Decidable (_ ∧ _ ∧ _))

theorem Chained.snoc {s t : State} {events : List HistoryEvent} {event : HistoryEvent}
    (h : Chained s events t) (hs : event.source = t)
    (ht : t.canTransitionTo event.target = true) :
    Chained s (events ++ [event]) event.target := by
  induction events generalizing s with
  | nil =>
    obtain rfl : s = t := h
    exact ⟨hs, ht, rfl⟩
  | cons first events ih => exact ⟨h.1, h.2.1, ih h.2.2⟩

/-- The states of a message that has not failed. -/
def Untroubled (state : State) : Prop :=
  state = .queued ∨ state = .processing ∨ state = .acknowledged

/-- The history explains the record, which is that of a message that has not failed. -/
structure View.Explained (v : View) (e : Record) : Prop where
  state : Untroubled e.msg.state
  chain : Chained .created v.history e.msg.state

def View.Audited (v : View) : Prop := ∀ e, v.record = some e → v.Explained e

variable {engine : Engine} {env : Env}

/-- A settlement with its event keeps the chain. -/
theorem View.Audited.settled {v : View} (h : v.Audited) {change : Message → Message}
    {event : HistoryEvent} (hs : event.source = .processing)
    (ht : State.canTransitionTo .processing event.target = true)
    (hc : ∀ msg, (change msg).state = event.target) (hu : Untroubled event.target) :
    (v.settled change [event]).Audited := by
  by_cases hp : v.Leased
  · obtain ⟨e, hr, hp⟩ := hp
    rw [View.settled_of_leased hr hp]
    intro e' he'
    obtain rfl := Option.some.inj he'
    have hchain := (h e hr).chain
    rw [hp] at hchain
    simp only [Memory.unleased]
    exact ⟨hc e.msg ▸ hu, hc e.msg ▸ hchain.snoc hs ht⟩
  · rw [View.settled_of_not_leased hp]
    exact h

/-- A claim with its event keeps the chain. -/
theorem View.Audited.delivered {v : View} (h : v.Audited) {e : Record} (hr : v.record = some e)
    {req : ClaimRequest} (hc : Memory.claimable e.msg req.now = true) {event : HistoryEvent}
    (hs : event.source = .queued) (ht : event.target = .processing) :
    ((v.takenOver req).recorded [event]).Audited := by
  intro e' he'
  have htaken : v.record.map (Memory.takenOver req) = some e' := he'
  rw [hr, Option.map_some] at htaken
  obtain rfl := Option.some.inj htaken
  have hqueued : e.msg.state = .queued := by
    -- A message that has not failed does not wait for a retry.
    obtain ⟨hstate | hstate, -⟩ := Memory.claimable_iff.mp hc
    · exact hstate
    · rcases (h e hr).state with hu | hu | hu <;> rw [hstate] at hu <;> cases hu
  have hchain := (h e hr).chain
  rw [hqueued] at hchain
  have hnext := hchain.snoc hs (by rw [ht]; rfl)
  rw [ht] at hnext
  exact ⟨Or.inr (Or.inl rfl), hnext⟩

/-- A view with the same record and history. -/
theorem View.Audited.congr {v v' : View} (h : v.Audited) (hr : v'.record = v.record)
    (hh : v'.history = v.history) : v'.Audited := by
  intro e he
  rw [hr] at he
  exact ⟨(h e he).state, hh ▸ (h e he).chain⟩

/-- A failure of a message that is not in processing changes neither record nor history. -/
theorem View.Audited.failed {v : View} (h : v.Audited) {consumer : String} {d : Delivery}
    {cause : Cause} {g : View → View} (hg : FailedBy engine consumer d cause g)
    (hp : ¬ v.Leased) : (g v).Audited := by
  unfold FailedBy at hg
  split_ifs at hg
  · obtain ⟨availableAt, now, rfl⟩ := hg
    rw [retriedBy, View.settled_of_not_leased hp]
    exact h
  · obtain ⟨firstFailedAt, now, id, rfl⟩ := hg
    rw [buriedBy, View.settled_of_not_leased (v := v.filed _) hp]
    exact h.congr rfl rfl

/-- The message does not fail: nobody reports a failure of it while it is in processing, and
no reclaim pass finds its last lease expired. -/
def Unfailing (engine : Engine) (env : Env) (id : String) (w : World) : Op → Prop
  | .nack i _ false _ => i = id →
    ∀ e ∈ w.store.messages.lookup id, e.msg.state ≠ .processing
  | .work consumer (some _) => ∀ d ∈ (w.tasks consumer.name).head?, d.message.id = id →
    ∀ e ∈ w.store.messages.lookup id, e.msg.state ≠ .processing
  | .reclaim => ∀ e ∈ w.store.messages.lookup id, e.msg ∈ overdue w (env.clock w.ticks) →
    engine.policy.shouldRetry e.msg.attempts = true
  | _ => True

instance (engine : Engine) (env : Env) (id : String) (w : World) :
    (op : Op) → Decidable (Unfailing engine env id w op)
  | .nack _ _ false _ | .work _ (some _) | .reclaim => by
    dsimp only [Unfailing]
    infer_instance
  | .publish _ | .pull _ | .ack _ _ | .nack _ _ true _ | .claimBatch _ | .work _ none
  | .replayDeadLetter _ | .purge _ | .discardDeadLetter _ => .isTrue trivial

theorem Change.audited (hpool : ∀ j, env.submit j = none) {w : World} {op : Op}
    {reply : op.Reply} {id : String} {v v' : View} (hc : Change engine env w op reply id v v')
    (hv : v = w.view id) (hop : Unfailing engine env id w op) (h : v.Audited) : v'.Audited := by
  cases hc with
  | same => exact h
  | publish hs ha hg | replay hs ha hg =>
    intro e he
    rw [hg] at he ⊢
    obtain rfl := Option.some.inj he
    exact ⟨Or.inl hs, rfl, rfl, hs.symm⟩
  | reject => exact h.congr rfl rfl
  | pull hr hc hm hn hg =>
    rw [hg]
    exact h.delivered hr hc rfl rfl
  | dispatch hr hc hg =>
    obtain ⟨a, ⟨now, rfl | ⟨⟨j, hj⟩, -⟩⟩, rfl⟩ := hg
    · exact h.delivered hr hc rfl rfl
    · exact absurd (hpool j) hj
  | ack | handled => exact h.settled rfl rfl (fun _ => rfl) (Or.inr (Or.inr rfl))
  | requeue => exact h.settled rfl rfl (fun _ => rfl) (Or.inl rfl)
  | nack hr hg =>
    apply h.failed hg
    rintro ⟨e, hr', hp⟩
    rw [hv] at hr'
    exact hop rfl e hr' hp
  | failed hd hg =>
    apply h.failed hg
    rintro ⟨e, hr', hp⟩
    rw [hv] at hr'
    exact hop _ hd rfl e hr' hp
  | reclaim hr hm hp hg =>
    rw [hv] at hr
    rw [ReclaimedBy, if_pos (hop _ hr hm)] at hg
    rw [hg]
    exact h.settled rfl rfl (fun _ => rfl) (Or.inl rfl)
  | replayed | discard => exact h.congr rfl rfl
  | purge =>
    intro e he
    cases he

/-- The history of a stored message is a chain of legal transitions, from its creation to
its state. -/
def HistoryExplains (w : World) (id : String) : Prop :=
  ∀ e, w.store.messages.lookup id = some e →
    w.store.history id ≠ [] ∧ Chained .created (w.store.history id) e.msg.state

/-- One operation at a time, with pools that accept every task: the history explains the state
of every message that does not fail. -/
theorem history_explains (engine : Engine) (env : Env) (hinj : Function.Injective env.newID)
    (hpool : ∀ j, env.submit j = none) (registry : Registry) (ops : List Op) (id : String)
    (hops : StepsMeet (exec engine env) (Unfailing engine env id) (World.init registry) ops) :
    HistoryExplains (running engine env registry ops) id := by
  have haudit : ((running engine env registry ops).view id).Audited := by
    apply running_rule hinj (Unfailing engine env id) (fun w _ => (w.view id).Audited) _ _ hops
    · intro e he
      simp [World.view, viewOf, World.init, Memory.Store.new] at he
    · intro w es op _ hop hchanges h
      exact (hchanges.2 id).audited hpool rfl hop h
  intro e hl
  obtain ⟨hstate, hchain⟩ := haudit e hl
  have hchain' : Chained .created ((running engine env registry ops).store.history id)
      e.msg.state := hchain
  refine ⟨fun hnil => ?_, hchain'⟩
  rw [hnil] at hchain'
  have hcreated : State.created = e.msg.state := hchain'
  rw [← hcreated] at hstate
  rcases hstate with h | h | h <;> cases h

/-- The message is pulled, its lease runs out, it is reclaimed, pulled again, requeued,
dispatched and handled. -/
def handledAtLast : List Op :=
  [.publish order, .pull ⟨"orders", "a", 1, 10⟩, .reclaim, .pull ⟨"orders", "a", 1, 10⟩,
    .nack "|" "" true 2, .claimBatch ⟨"b", "orders", 1, 1, 30⟩,
    .work ⟨"b", "orders", 1, 1, 30⟩ none]

theorem history_explains_handledAtLast :
    StepsMeet (exec (ordersEngine 5 (by decide)) steadyEnv)
        (Unfailing (ordersEngine 5 (by decide)) steadyEnv "|") (World.init (ordersRegistry 5))
        handledAtLast ∧
      ((running (ordersEngine 5 (by decide)) steadyEnv (ordersRegistry 5)
        handledAtLast).store.messages.lookup "|").map (fun e => e.msg.state) =
        some .acknowledged ∧
      HistoryExplains (running (ordersEngine 5 (by decide)) steadyEnv (ordersRegistry 5)
        handledAtLast) "|" := by
  have hops : StepsMeet (exec (ordersEngine 5 (by decide)) steadyEnv)
      (Unfailing (ordersEngine 5 (by decide)) steadyEnv "|") (World.init (ordersRegistry 5))
      handledAtLast := by
    decide +kernel
  exact ⟨hops, by decide +kernel, history_explains (ordersEngine 5 (by decide)) steadyEnv
    (ordersEnv_injective []) (fun _ => rfl) (ordersRegistry 5) handledAtLast "|" hops⟩

/-- The message is pulled and nacked, and it will be retried. -/
def nackedOnce : World :=
  running (ordersEngine 5 (by decide)) (ordersEnv []) (ordersRegistry 5)
    [.publish order, .pull ⟨"orders", "a", 1, 10⟩, .nack "|" "" false 1]

theorem history_explains_nackedOnce : ¬ HistoryExplains nackedOnce "|" := by
  intro h
  have hstate : (nackedOnce.store.messages.lookup "|").map (fun e => e.msg.state) =
      some .retrying := by
    decide +kernel
  obtain ⟨e, hl, he⟩ := Option.map_eq_some_iff.mp hstate
  have hbroken : ¬ Chained .created (nackedOnce.store.history "|") .retrying := by
    decide +kernel
  have hchain := (h e hl).2
  rw [he] at hchain
  exact hbroken hchain

end RabbitmqLite.Engine
