import RabbitmqLite.Engine.Change
import RabbitmqLite.Engine.NoLoss

/-! # The policy bounds the attempts

The store counts an attempt when it hands a message out, and the engine decides
at the end of an attempt whether there is another one. If no message is given
back without such a decision, no message has more attempts than the policy
allows, and it is given up exactly at the last one.
-/

namespace RabbitmqLite.Engine
open Broker Collections Storage Atomic
open Memory (Record)

/-- The attempts of a message against a limit, by its state. -/
structure Limited (limit : ℤ) (msg : Message) : Prop where
  attempts_le : msg.attempts ≤ limit
  waiting : msg.state = .queued ∨ msg.state = .retrying → msg.attempts < limit
  deadLettered : msg.state = .deadLettered → msg.attempts = limit

namespace Limited
variable {limit : ℤ} {msg : Message}

theorem of_new (hl : 1 ≤ limit) (hs : msg.state = .queued) (ha : msg.attempts = 0) :
    Limited limit msg where
  attempts_le := by omega
  waiting := by omega
  deadLettered := by simp [hs]

theorem takenOver {req : ClaimRequest} {e : Record} (h : Limited limit e.msg)
    (hc : Memory.claimable e.msg req.now = true) :
    Limited limit (Memory.takenOver req e).msg where
  attempts_le := by
    have hlt := h.waiting (Memory.claimable_iff.mp hc).1
    simp only [Memory.takenOver]
    omega
  waiting := by simp [Memory.takenOver]
  deadLettered := by simp [Memory.takenOver]

theorem acknowledged (h : Limited limit msg) (now : Time) :
    Limited limit (Memory.acknowledged msg now) where
  attempts_le := h.attempts_le
  waiting := by simp [Memory.acknowledged]
  deadLettered := by simp [Memory.acknowledged]

theorem retried (h : msg.attempts < limit) (req : RetryRequest) :
    Limited limit (Memory.retried msg req) where
  attempts_le := h.le
  waiting := fun _ => h
  deadLettered := by simp [Memory.retried]

theorem released (h : msg.attempts < limit) (now : Time) :
    Limited limit (Memory.released msg now) where
  attempts_le := h.le
  waiting := fun _ => h
  deadLettered := by simp [Memory.released]

theorem buried (h : Limited limit msg) (he : limit ≤ msg.attempts) (reason : String) (now : Time) :
    Limited limit (Memory.deadLettered msg reason now) where
  attempts_le := h.attempts_le
  waiting := by simp [Memory.deadLettered]
  deadLettered := fun _ => le_antisymm h.attempts_le he

end Limited

/-- The record of a view, if there is one, is within the limit. -/
def View.Limited (limit : ℤ) (v : View) : Prop :=
  ∀ e, v.record = some e → Engine.Limited limit e.msg

theorem View.Limited.settled {limit : ℤ} {v : View} (h : v.Limited limit)
    {change : Message → Message} (events : List HistoryEvent)
    (hc : ∀ e, v.record = some e → e.msg.state = .processing →
      Engine.Limited limit (change e.msg)) :
    (v.settled change events).Limited limit := by
  intro e' he'
  rcases View.record_settled_cases he' with hr | ⟨e, hr, hp, rfl⟩
  · exact h e' hr
  · exact hc e hr hp

/-- The operations that give a message back only after a decision about its attempts. -/
def Op.Counted : Op → Prop
  | .publish _ | .pull _ | .ack _ _ | .nack _ _ false _ | .reclaim | .replayDeadLetter _ => True
  | _ => False

instance (op : Op) : Decidable op.Counted := by
  unfold Op.Counted
  split <;> infer_instance

variable {engine : Engine} {env : Env}

theorem retryable_iff (engine : Engine) {cause : Cause} (hperm : isPermanent cause = false)
    (attempt : ℤ) :
    retryable engine cause attempt = true ↔ attempt < engine.policy.maxAttempts := by
  simp [retryable, hperm, Retry.Policy.shouldRetry]

/-- A failure of the attempt that is stored keeps the message within the limit of the
policy. -/
theorem View.Limited.failed {v : View} (h : v.Limited engine.policy.maxAttempts)
    {consumer : String} {d : Delivery} {cause : Cause} {g : View → View}
    (hg : FailedBy engine consumer d cause g) (hperm : isPermanent cause = false)
    (hd : ∀ e, v.record = some e → e.msg.state = .processing → e.msg.attempts = d.attempt) :
    (g v).Limited engine.policy.maxAttempts := by
  have hiff := retryable_iff engine hperm d.attempt
  unfold FailedBy at hg
  split_ifs at hg with hr
  · obtain ⟨availableAt, now, rfl⟩ := hg
    apply h.settled
    intro e he hp
    apply Limited.retried
    rw [hd e he hp]
    exact hiff.mp hr
  · obtain ⟨firstFailedAt, now, id, rfl⟩ := hg
    apply View.Limited.settled (v := v.filed _) h
    intro e he hp
    apply (h e he).buried
    rw [hd e he hp]
    exact not_lt.mp (fun hlt => hr (hiff.mpr hlt))

theorem View.Limited.reclaimed {v : View} {e : Record} (hr : v.record = some e)
    (h : v.Limited engine.policy.maxAttempts) {now : Time} {g : View → View}
    (hg : ReclaimedBy engine now e.msg g) : (g v).Limited engine.policy.maxAttempts := by
  have hsame : ∀ e', v.record = some e' → e' = e := fun e' he' =>
    Option.some.inj (he'.symm.trans hr)
  unfold ReclaimedBy at hg
  split_ifs at hg with hs
  · rw [hg]
    apply h.settled
    intro e' he' _
    rw [hsame e' he']
    exact Limited.released (by simpa [Retry.Policy.shouldRetry] using hs) now
  · obtain ⟨firstFailedAt, id, rfl⟩ := hg
    apply View.Limited.settled (v := v.filed _) h
    intro e' he' _
    apply (h e' he').buried
    rw [hsame e' he']
    simpa [Retry.Policy.shouldRetry] using hs

/-- One operation keeps every message within the limit of the policy. -/
theorem Change.limited {w : World} {op : Op} {reply : op.Reply} {id : String} {v v' : View}
    (hc : Change engine env w op reply id v v') (hop : op.Counted)
    (h : v.Limited engine.policy.maxAttempts) : v'.Limited engine.policy.maxAttempts := by
  have hone : 1 ≤ engine.policy.maxAttempts := Retry.Policy.one_le_maxAttempts engine.valid
  cases hc with
  | same => exact h
  | publish hs ha hg | replay hs ha hg =>
    intro e he
    rw [hg] at he
    obtain rfl := Option.some.inj he
    exact Limited.of_new hone hs ha
  | reject => exact h
  | pull hr hc hm hn hg =>
    intro e' he'
    rw [hg] at he'
    have htaken : v.record.map (Memory.takenOver _) = some e' := he'
    rw [hr, Option.map_some] at htaken
    obtain rfl := Option.some.inj htaken
    exact (h _ hr).takenOver hc
  | ack => exact h.settled _ (fun e hr _ => (h e hr).acknowledged _)
  | nack hr hg =>
    apply h.failed hg rfl
    intro e' he' _
    rw [Option.some.inj (he'.symm.trans hr)]
  | reclaim hr hm hp hg => exact View.Limited.reclaimed hr h hg
  | replayed => exact h
  | dispatch | requeue | handled | failed | purge | discard => exact hop.elim

/-! ## How often a message is pulled -/

/-- The messages an operation returns to a polling client. -/
def returned : (op : Op) → op.Reply → List Message
  | .pull _, .ok claimed => claimed
  | _, _ => []

/-- How often a message was returned by pulls. -/
def pulls (events : List (Event Op Op.Reply)) (id : String) : ℕ :=
  (events.flatMap (fun event => (returned event.call event.reply).map Message.id)).count id

theorem pulls_snoc (events : List (Event Op Op.Reply)) (op : Op) (reply : op.Reply) (id : String) :
    pulls (events ++ [⟨op, reply⟩]) id =
      pulls events id + ((returned op reply).map Message.id).count id := by
  simp [pulls]

theorem count_of_not_pulled {op : Op} {reply : op.Reply} {id : String}
    (h : ¬ Pulled op reply id) : ((returned op reply).map Message.id).count id = 0 := by
  cases op with
  | pull req =>
    cases reply with
    | error e => rfl
    | ok claimed => exact List.count_eq_zero.mpr h
  | _ => rfl

/-- The attempts counted in a record. -/
def attemptsOf (r : Option Record) : ℤ := (r.map (fun e => e.msg.attempts)).getD 0

theorem attemptsOf_settled (v : View) {change : Message → Message}
    (hc : ∀ msg, (change msg).attempts = msg.attempts) (events : List HistoryEvent) :
    attemptsOf (v.settled change events).record = attemptsOf v.record := by
  by_cases hp : v.Leased
  · obtain ⟨e, hr, hp⟩ := hp
    rw [View.settled_of_leased hr hp]
    simp [attemptsOf, hr, Memory.unleased, hc]
  · rw [View.settled_of_not_leased hp]

theorem attemptsOf_failed {consumer : String} {d : Delivery} {cause : Cause} {g : View → View}
    (hg : FailedBy engine consumer d cause g) (v : View) :
    attemptsOf (g v).record = attemptsOf v.record := by
  unfold FailedBy at hg
  split_ifs at hg
  · obtain ⟨availableAt, now, rfl⟩ := hg
    apply attemptsOf_settled
    exact fun _ => rfl
  · obtain ⟨firstFailedAt, now, id, rfl⟩ := hg
    apply attemptsOf_settled
    exact fun _ => rfl

theorem attemptsOf_reclaimed {now : Time} {msg : Message} {g : View → View}
    (hg : ReclaimedBy engine now msg g) (v : View) :
    attemptsOf (g v).record = attemptsOf v.record := by
  unfold ReclaimedBy at hg
  split_ifs at hg
  · rw [hg]
    apply attemptsOf_settled
    exact fun _ => rfl
  · obtain ⟨firstFailedAt, id, rfl⟩ := hg
    apply attemptsOf_settled
    exact fun _ => rfl

/-- Every return by a pull is counted as an attempt. -/
theorem Change.counted {w : World} {op : Op} {reply : op.Reply} {id : String} {v v' : View}
    (hc : Change engine env w op reply id v v') (hop : op.Counted) :
    attemptsOf v.record + ((returned op reply).map Message.id).count id ≤
      attemptsOf v'.record := by
  cases hc with
  | same hp => simp [count_of_not_pulled hp]
  | publish hs ha hg | replay hs ha hg =>
    rw [hg]
    simp [attemptsOf, View.empty, returned, View.recorded, View.stored, Memory.unleased, ha]
  | reject => simp [attemptsOf, View.empty, returned, View.filed]
  | @pull _ claimed claim _ e _ hr hc hm hn hg =>
    have hcount : (claimed.map Message.id).count e.msg.id = 1 :=
      List.count_eq_one_of_mem hn (List.mem_map.mpr ⟨_, hm, rfl⟩)
    rw [hg]
    simp only [attemptsOf, View.recorded, View.takenOver, hr, Option.map_some,
      Option.getD_some, Memory.takenOver, returned]
    omega
  | ack => simp [attemptsOf_settled, returned, Memory.acknowledged]
  | nack hr hg => simp [attemptsOf_failed hg, returned]
  | reclaim hr hm hp hg => simp [attemptsOf_reclaimed hg, returned]
  | replayed => simp [attemptsOf, returned, View.replayed]
  | dispatch | requeue | handled | failed | purge | discard => exact hop.elim

/-- Publications, pulls, acks, nacks without requeue, reclaim passes and replays, one at a
time: no message has more attempts than the policy allows, one that waits has an attempt left,
one that was given up has none, and no message is pulled more often. -/
theorem attempts_bounded (engine : Engine) (env : Env) (hinj : Function.Injective env.newID)
    (registry : Registry) (ops : List Op) (hops : ∀ op ∈ ops, op.Counted) (id : String) :
    (∀ e, (running engine env registry ops).store.messages.lookup id = some e →
      Limited engine.policy.maxAttempts e.msg) ∧
    (pulls (runningTrace engine env registry ops) id : ℤ) ≤ engine.policy.maxAttempts := by
  have hrun : ((running engine env registry ops).view id).Limited engine.policy.maxAttempts ∧
      (pulls (runningTrace engine env registry ops) id : ℤ) ≤
        attemptsOf ((running engine env registry ops).view id).record := by
    apply running_rule hinj (fun _ op => op.Counted)
      (fun w es => (w.view id).Limited engine.policy.maxAttempts ∧
        (pulls es id : ℤ) ≤ attemptsOf (w.view id).record)
    · constructor
      · intro e he
        simp [World.view, viewOf, World.init, Memory.Store.new] at he
      · simp [pulls, attemptsOf, World.view, viewOf, World.init, Memory.Store.new]
    · rintro w es op - hop hchanges ⟨hlim, hpulls⟩
      refine ⟨(hchanges.2 id).limited hop hlim, ?_⟩
      have hcount := (hchanges.2 id).counted hop
      rw [pulls_snoc]
      push_cast
      omega
    · exact stepsMeet_of_forall _ hops _
  refine ⟨hrun.1, hrun.2.trans ?_⟩
  cases hr : ((running engine env registry ops).view id).record with
  | none =>
    have hone : 1 ≤ engine.policy.maxAttempts := Retry.Policy.one_le_maxAttempts engine.valid
    simp only [attemptsOf, Option.map_none, Option.getD_none]
    omega
  | some e => simpa [attemptsOf, hr] using (hrun.1 e hr).attempts_le

/-- With two attempts allowed, a message fails twice and its dead letter is replayed. -/
def failsTwice : List Op :=
  [.publish order, .pull ⟨"orders", "a", 1, 10⟩, .nack "|" "" false 1,
    .pull ⟨"orders", "a", 1, 10⟩, .nack "|" "" false 2, .replayDeadLetter "||"]

def failsTwiceEnv : Env := ordersEnv [0, 1, 2, 10]

theorem attempts_bounded_failsTwice :
    (∀ op ∈ failsTwice, op.Counted) ∧
    ((running (ordersEngine 2 (by decide)) failsTwiceEnv (ordersRegistry 2)
        failsTwice).store.messages.lookup "|").map (fun e => (e.msg.state, e.msg.attempts)) =
      some (.deadLettered, 2) ∧
    (∀ e, (running (ordersEngine 2 (by decide)) failsTwiceEnv (ordersRegistry 2)
        failsTwice).store.messages.lookup "|" = some e → Limited 2 e.msg) ∧
    (pulls (runningTrace (ordersEngine 2 (by decide)) failsTwiceEnv (ordersRegistry 2)
      failsTwice) "|" : ℤ) ≤ 2 := by
  have hops : ∀ op ∈ failsTwice, op.Counted := by decide
  exact ⟨hops, by decide +kernel, attempts_bounded (ordersEngine 2 (by decide)) failsTwiceEnv
    (ordersEnv_injective _) (ordersRegistry 2) failsTwice hops "|"⟩

end RabbitmqLite.Engine
