import RabbitmqLite.Collections.Earliest
import RabbitmqLite.Engine.Replaying

/-! # The first failure of a message

A dead letter says when the message failed for the first time. The engine looks
this up in the history, as the first event that leads to a retry. A lease that
expires with attempts left is a failure too, but the history shows it as a
message that is queued again, and the search passes over it. So the letter has
the earliest of the failures the history shows, which is the first failure of
all unless a reclaim pass gave the message back before.
-/

namespace RabbitmqLite.Engine
open Broker Collections Storage Atomic
open Memory (Record)

/-- A delivery that has failed, and whether the message went straight back to its queue. -/
structure Failure where
  time : Time
  requeued : Bool
  deriving DecidableEq

/-- The failed delivery of a message that an operation deals with: a handler or a client reports
it while the message is in processing, or a reclaim pass finds its lease expired. -/
def failureIn (engine : Engine) (env : Env) (id : String) (w : World) : Op → Option Failure
  | .nack i _ false _ =>
    if i = id ∧ stateIn w.store id = some .processing then some ⟨env.clock w.ticks, false⟩
    else none
  | .work consumer (some _) =>
    -- The first reading of the clock is for the start of the handler.
    if (w.tasks consumer.name).head?.map (fun d => d.message.id) = some id ∧
        stateIn w.store id = some .processing then
      some ⟨env.clock (w.ticks + 1), false⟩
    else none
  | .reclaim =>
    ((overdue w (env.clock w.ticks)).find? (fun msg => msg.id = id)).map
      (fun msg => ⟨env.clock w.ticks, engine.policy.shouldRetry msg.attempts⟩)
  | _ => none

/-- The failed deliveries of a message in a run, oldest first. -/
def failures (engine : Engine) (env : Env) (registry : Registry) (ops : List Op) (id : String) :
    List Failure :=
  observed (exec engine env) (failureIn engine env id) (World.init registry) ops

variable {engine : Engine} {env : Env}

theorem leased_iff {w : World} {id : String} :
    (w.view id).Leased ↔ stateIn w.store id = some .processing := by
  simp [View.Leased, stateIn, World.view, viewOf]

/-! ## What a failure does -/

/-- What the failure of a delivery makes of the view of its message. The letter takes its contents
from the stored message or from the task of the consumer. -/
inductive FailedTo (env : Env) (w : World) (id : String) (f : Failure) : View → Prop where
  | requeued {queue reason : String} (hf : f.requeued = true) :
      FailedTo env w id f (requeuedBy id queue reason f.time (w.view id))
  | retried {consumer : String} {d : Delivery} {cause : Cause} {availableAt : Time}
      (hf : f.requeued = false) :
      FailedTo env w id f (retriedBy consumer d cause availableAt f.time (w.view id))
  | buried {consumer : String} {d : Delivery} {cause : Cause} {a : String}
      (hf : f.requeued = false) (hid : d.message.id = id) (hnew : ¬ Used env w a)
      (hd : (∃ e, (w.view id).record = some e ∧ e.msg = d.message) ∨
        ∃ name, d ∈ w.tasks name) :
      FailedTo env w id f (buriedSince consumer d cause a f.time (w.view id))

theorem FailedAt.failedTo {w : World} {now : Time} {consumer : String} {d : Delivery}
    {cause : Cause} {g : View → View} (h : FailedAt engine env w now consumer d cause g)
    {id : String} (hid : d.message.id = id)
    (hd : (∃ e, (w.view id).record = some e ∧ e.msg = d.message) ∨ ∃ name, d ∈ w.tasks name) :
    FailedTo env w id ⟨now, false⟩ (g (w.view id)) := by
  unfold FailedAt at h
  split_ifs at h
  · obtain ⟨availableAt, rfl⟩ := h
    exact .retried rfl
  · obtain ⟨a, hnew, rfl⟩ := h
    exact .buried rfl hid hnew hd

theorem ReclaimedAt.failedTo {w : World} {now : Time} {e : Record} {g : View → View}
    (h : ReclaimedAt engine env w now e.msg g) (hr : (w.view e.msg.id).record = some e) :
    FailedTo env w e.msg.id ⟨now, engine.policy.shouldRetry e.msg.attempts⟩
      (g (w.view e.msg.id)) := by
  unfold ReclaimedAt at h
  split_ifs at h with hretry
  · rw [h]
    exact .requeued hretry
  · obtain ⟨a, hnew, rfl⟩ := h
    exact .buried (by simpa using hretry) rfl hnew (Or.inl ⟨e, hr, rfl⟩)

section Step
variable {w : World} {id : String} {f : Failure}

theorem nack_failedTo (hinj : Function.Injective env.newID) (h : Tidy env w) {i reason : String}
    {held : ℤ} (hf : failureIn engine env id w (.nack i reason false held) = some f) :
    (w.view id).Leased ∧
      Runs env (nack engine i reason false held) w
        (fun _ w' => FailedTo env w id f (w'.view id)) := by
  obtain ⟨⟨rfl, hp⟩, heq⟩ := Option.ite_none_right_eq_some.mp hf
  obtain rfl := Option.some.inj heq
  rw [← leased_iff] at hp
  refine ⟨hp, (nack_runs_fail engine hinj h.healthy i reason held).mono ?_⟩
  rintro _ w' (⟨hnone, -⟩ | ⟨e, text, g, hr, hg, hb⟩)
  · obtain ⟨e, hr, -⟩ := hp
    cases hnone.symm.trans hr
  · rw [hb.view, onlyAt_self]
    exact hg.failedTo (h.healthy.keyed i e hr) (Or.inl ⟨e, hr, rfl⟩)

theorem work_failedTo (hinj : Function.Injective env.newID) (h : Tidy env w)
    {consumer : ConsumerSpec} {cause : Cause}
    (hf : failureIn engine env id w (.work consumer (some cause)) = some f) :
    (w.view id).Leased ∧
      Runs env (work engine consumer (some cause)) w
        (fun _ w' => FailedTo env w id f (w'.view id)) := by
  obtain ⟨⟨hhead, hp⟩, heq⟩ := Option.ite_none_right_eq_some.mp hf
  obtain rfl := Option.some.inj heq
  refine ⟨leased_iff.mpr hp, (work_runs engine hinj h.healthy consumer (some cause)).mono ?_⟩
  intro _ w' hw
  obtain ⟨d, hd, rfl⟩ := Option.map_eq_some_iff.mp hhead
  rw [hd] at hw
  obtain ⟨g, hg, hb⟩ := hw
  rw [hb.view, onlyAt_self]
  exact hg.failedTo rfl (Or.inr ⟨consumer.name, List.mem_of_head? hd⟩)

theorem reclaim_failedTo (hinj : Function.Injective env.newID) (h : Tidy env w)
    (hf : failureIn engine env id w .reclaim = some f) :
    (w.view id).Leased ∧
      Runs env (reclaim engine) w (fun _ w' => FailedTo env w id f (w'.view id)) := by
  obtain ⟨msg, hfind, rfl⟩ := Option.map_eq_some_iff.mp hf
  obtain rfl : msg.id = id := by simpa using List.find?_some hfind
  have hm := List.mem_of_find?_eq_some hfind
  obtain ⟨e, hr, rfl, hp⟩ := overdue_stored h.healthy.keyed hm
  refine ⟨⟨e, hr, hp⟩, (reclaim_runs engine hinj h.healthy).mono ?_⟩
  rintro _ w' ⟨g, hg, hb⟩
  rw [hb.view]
  exact (hg.inside e.msg hm).failedTo hr

/-- A failure is one of a message in processing, and it is dealt with. -/
theorem exec_failedTo (hinj : Function.Injective env.newID) (h : Tidy env w) {op : Op}
    (hf : failureIn engine env id w op = some f) :
    (w.view id).Leased ∧ FailedTo env w id f ((exec engine env op w).2.view id) := by
  cases op with
  | nack i reason requeue held =>
    cases requeue with
    | true => cases hf
    | false => exact nack_failedTo hinj h hf
  | work consumer outcome =>
    cases outcome with
    | none => cases hf
    | some cause => exact work_failedTo hinj h hf
  | reclaim => exact reclaim_failedTo hinj h hf
  | _ => cases hf

theorem work_ticks (h : Healthy env w) (consumer : ConsumerSpec) {d : Delivery}
    (hd : (w.tasks consumer.name).head? = some d) (outcome : Option Cause) :
    Runs env (work engine consumer outcome) w (fun _ w' => w.ticks + 1 ≤ w'.ticks) := by
  apply (receive_runs h consumer.name).bind
  rintro reply w₁ ⟨-, ht₁, rfl⟩
  rw [hd]
  apply (clock_reads w₁).bind
  rintro _ w₂ ⟨-, ht₂⟩
  refine le_trans ?_ (run_counters_le _ w₂).2
  rw [ht₂, ht₁]

/-- A failure is timed by a reading of the operation that deals with it. -/
theorem failureIn_time (h : Healthy env w) (hclock : Monotone env.clock) {op : Op}
    (hf : failureIn engine env id w op = some f) :
    env.clock w.ticks ≤ f.time ∧ f.time ≤ env.clock (exec engine env op w).2.ticks := by
  have hticks : w.ticks ≤ (exec engine env op w).2.ticks := (run_counters_le _ w).2
  cases op with
  | nack i reason requeue held =>
    cases requeue with
    | true => cases hf
    | false =>
      obtain ⟨-, heq⟩ := Option.ite_none_right_eq_some.mp hf
      obtain rfl := Option.some.inj heq
      exact ⟨le_rfl, hclock hticks⟩
  | work consumer outcome =>
    cases outcome with
    | none => cases hf
    | some cause =>
      obtain ⟨⟨hhead, -⟩, heq⟩ := Option.ite_none_right_eq_some.mp hf
      obtain rfl := Option.some.inj heq
      obtain ⟨d, hd, -⟩ := Option.map_eq_some_iff.mp hhead
      exact ⟨hclock (Nat.le_succ _), hclock (work_ticks h consumer hd (some cause))⟩
  | reclaim =>
    obtain ⟨msg, -, rfl⟩ := Option.map_eq_some_iff.mp hf
    exact ⟨le_rfl, hclock hticks⟩
  | _ => cases hf

end Step

/-! ## What other operations do -/

/-- The message is dead-lettered. -/
def View.Dead (v : View) : Prop := ∃ e, v.record = some e ∧ e.msg.state = .deadLettered

theorem dead_iff {w : World} {id : String} :
    (w.view id).Dead ↔ stateIn w.store id = some .deadLettered := by
  simp [View.Dead, stateIn, World.view, viewOf]

theorem firstFailure_append (events events' : List HistoryEvent) :
    firstFailure (events ++ events') = (firstFailure events).or (firstFailure events') :=
  List.find?_append

/-- Nothing is written about a failure, and the message is not given up. -/
structure View.Unmarked (v v' : View) : Prop where
  first : firstFailure v'.history = firstFailure v.history
  dead : v'.Dead ↔ v.Dead

namespace View.Unmarked
variable {v v' : View}

theorem congr (hr : v'.record = v.record) (hh : v'.history = v.history) : v.Unmarked v' where
  first := congrArg firstFailure hh
  dead := by
    unfold View.Dead
    rw [hr]

theorem trans {v'' : View} (h : v.Unmarked v') (h' : v'.Unmarked v'') : v.Unmarked v'' where
  first := h'.first.trans h.first
  dead := h'.dead.trans h.dead

theorem recorded (v : View) {events : List HistoryEvent} (he : firstFailure events = none) :
    v.Unmarked (v.recorded events) where
  first := by
    rw [View.recorded, firstFailure_append, he, Option.or_none]
  dead := Iff.rfl

theorem takenOver {e : Record} (hr : v.record = some e) {req : ClaimRequest}
    (hc : Memory.claimable e.msg req.now = true) : v.Unmarked (v.takenOver req) where
  first := rfl
  dead := by
    constructor
    · rintro ⟨e', hr', hd⟩
      obtain ⟨old, -, rfl⟩ := Option.map_eq_some_iff.mp hr'
      cases hd
    · rintro ⟨e', hr', hd⟩
      exact absurd hd (not_deadLettered_of_claimable hr hc e' hr')

theorem settled (v : View) {change : Message → Message}
    (hc : ∀ msg, (change msg).state ≠ .deadLettered) {events : List HistoryEvent}
    (he : firstFailure events = none) : v.Unmarked (v.settled change events) := by
  by_cases hp : v.Leased
  · obtain ⟨e, hr, hp⟩ := hp
    rw [settled_of_leased hr hp]
    constructor
    · rw [firstFailure_append, he, Option.or_none]
    · constructor
      · rintro ⟨e', hr', hd⟩
        obtain rfl := Option.some.inj hr'
        exact absurd hd (hc e.msg)
      · rintro ⟨e', hr', hd⟩
        rw [Option.some.inj (hr'.symm.trans hr), hp] at hd
        cases hd
  · rw [settled_of_not_leased hp]
    exact congr rfl rfl

theorem stored {msg : Message} (hs : msg.state = .queued) {detail : String} {now : Time}
    {g : View → View} (hg : PublishedBy detail now msg g) :
    View.empty.Unmarked (g View.empty) := by
  rw [hg]
  refine ⟨rfl, ?_, ?_⟩
  · rintro ⟨e, hr, hd⟩
    obtain rfl := Option.some.inj hr
    rw [Memory.unleased, Message.clone_state, hs] at hd
    cases hd
  · rintro ⟨e, hr, -⟩
    cases hr

theorem failed (hp : ¬ v.Leased) {consumer : String} {d : Delivery} {cause : Cause}
    {g : View → View} (hg : FailedBy engine consumer d cause g) : v.Unmarked (g v) := by
  unfold FailedBy at hg
  split_ifs at hg
  · obtain ⟨availableAt, now, rfl⟩ := hg
    rw [retriedBy, settled_of_not_leased hp]
    exact congr rfl rfl
  · obtain ⟨firstFailedAt, now, id, rfl⟩ := hg
    rw [buriedBy, settled_of_not_leased (v := v.filed _) hp]
    exact congr rfl rfl

theorem dispatched {e : Record} (hr : v.record = some e) {consumer : ConsumerSpec}
    {req : ClaimRequest} (hc : Memory.claimable e.msg req.now = true) {msg : Message}
    {g : View → View} (hg : DispatchedBy env consumer req msg g) : v.Unmarked (g v) := by
  have hevent : ∀ now, firstFailure [handOffEvent consumer msg now] = none := fun _ => rfl
  obtain ⟨a, ⟨now, rfl | ⟨-, later, rfl⟩⟩, rfl⟩ := hg
  · exact (takenOver hr hc).trans (recorded _ (hevent now))
  · refine ((takenOver hr hc).trans (recorded _ (hevent now))).trans (settled _ ?_ rfl)
    exact fun _ => by simp [Memory.released]

end View.Unmarked

/-- An operation that deals with no failure of the message. -/
theorem Change.unmarked {w : World} {op : Op} {reply : op.Reply} {id : String} {v v' : View}
    (hc : Change engine env w op reply id v v') (hv : v = w.view id)
    (hf : failureIn engine env id w op = none) : v.Unmarked v' := by
  cases hc with
  | same | reject | replayed | discard => exact .congr rfl rfl
  | publish hs _ hg | replay hs _ hg => exact .stored hs hg
  | pull hr hc _ _ hg =>
    rw [hg]
    exact (View.Unmarked.takenOver hr hc).trans (.recorded _ rfl)
  | dispatch hr hc hg => exact .dispatched hr hc hg
  | ack | handled => exact .settled v (fun _ => by simp [Memory.acknowledged]) rfl
  | requeue => exact .settled v (fun _ => by simp [Memory.released]) rfl
  | nack hr hg =>
    apply View.Unmarked.failed _ hg
    rw [hv, leased_iff]
    simpa [failureIn] using hf
  | failed hd hg =>
    apply View.Unmarked.failed _ hg
    rw [hv, leased_iff]
    simpa [failureIn, hd] using hf
  | reclaim hr hm =>
    simp only [failureIn, Option.map_eq_none_iff, List.find?_eq_none, decide_eq_true_eq] at hf
    exact absurd rfl (hf _ hm)
  | purge hr ht =>
    refine ⟨rfl, ?_, ?_⟩
    · rintro ⟨e, he, -⟩
      cases he
    · rintro ⟨e, he, hd⟩
      rw [Option.some.inj (hr.symm.trans he), hd] at ht
      cases ht

/-! ## When a message was published -/

/-- The time at which the stored message was created. -/
def View.created (v : View) : Option Time := v.record.map (fun e => e.msg.createdAt)

theorem View.created_takenOver (v : View) (req : ClaimRequest) :
    (v.takenOver req).created = v.created := by
  unfold View.created View.takenOver
  cases v.record with
  | none => rfl
  | some e => rfl

theorem View.created_settled (v : View) {change : Message → Message}
    (hc : ∀ msg, (change msg).createdAt = msg.createdAt) (events : List HistoryEvent) :
    (v.settled change events).created = v.created := by
  by_cases hp : v.Leased
  · obtain ⟨e, hr, hp⟩ := hp
    rw [settled_of_leased hr hp]
    simp [View.created, hr, Memory.unleased, hc]
  · rw [settled_of_not_leased hp]

theorem View.created_failed (v : View) {consumer : String} {d : Delivery} {cause : Cause}
    {g : View → View} (hg : FailedBy engine consumer d cause g) : (g v).created = v.created := by
  unfold FailedBy at hg
  split_ifs at hg
  · obtain ⟨availableAt, now, rfl⟩ := hg
    exact v.created_settled (by intro; rfl) _
  · obtain ⟨firstFailedAt, now, id, rfl⟩ := hg
    exact (v.filed _).created_settled (by intro; rfl) _

theorem View.created_reclaimed (v : View) {now : Time} {msg : Message} {g : View → View}
    (hg : ReclaimedBy engine now msg g) : (g v).created = v.created := by
  unfold ReclaimedBy at hg
  split_ifs at hg
  · rw [hg]
    exact v.created_settled (by intro; rfl) _
  · obtain ⟨firstFailedAt, id, rfl⟩ := hg
    exact (v.filed _).created_settled (by intro; rfl) _

theorem View.created_dispatched (v : View) {consumer : ConsumerSpec} {req : ClaimRequest}
    {msg : Message} {g : View → View} (hg : DispatchedBy env consumer req msg g) :
    (g v).created = v.created := by
  obtain ⟨a, ⟨now, rfl | ⟨-, later, rfl⟩⟩, rfl⟩ := hg
  · exact v.created_takenOver req
  · exact (View.created_settled _ (by intro; rfl) []).trans (v.created_takenOver req)

/-- The operations that store new messages. -/
def Op.Stores : Op → Prop
  | .publish _ | .replayDeadLetter _ => True
  | _ => False

theorem Change.created {w : World} {op : Op} {reply : op.Reply} {id : String} {v v' : View}
    (hc : Change engine env w op reply id v v') :
    v'.created = v.created ∨ v'.created = none ∨ v = View.empty ∧ op.Stores := by
  cases hc with
  | same | reject | replayed | discard => exact Or.inl rfl
  | publish | replay => exact Or.inr (Or.inr ⟨rfl, trivial⟩)
  | pull _ _ _ _ hg =>
    rw [hg]
    exact Or.inl (v.created_takenOver _)
  | dispatch _ _ hg => exact Or.inl (v.created_dispatched hg)
  | ack | handled | requeue => exact Or.inl (v.created_settled (by intro; rfl) _)
  | nack _ hg | failed _ hg => exact Or.inl (v.created_failed hg)
  | reclaim _ _ _ hg => exact Or.inl (v.created_reclaimed hg)
  | purge => exact Or.inr (Or.inl rfl)

/-- A new message is created at the first reading of the operation that stores it. -/
theorem exec_created (hinj : Function.Injective env.newID) {w : World} (h : Tidy env w) (op : Op)
    {id : String} {t : Time} (ht : ((exec engine env op w).2.view id).created = some t) :
    (w.view id).created = some t ∨ ¬ Used env w id ∧ t = env.clock w.ticks := by
  rcases ((exec_changes engine hinj h op).2 id).created with hsame | hnone | ⟨hempty, hop⟩
  · exact Or.inl (hsame ▸ ht)
  · cases hnone.symm.trans ht
  · right
    have hfresh : ∀ {msg : Message} {detail : String} {now : Time} {g : View → View},
        PublishedBy detail now msg g → msg.createdAt = env.clock w.ticks →
        (g View.empty).created = some t → t = env.clock w.ticks := by
      intro msg detail now g hg hcreated heq
      rw [hg] at heq
      exact (Option.some.inj heq).symm.trans hcreated
    cases op with
    | publish pub =>
      have hout : Runs env (publish engine pub) w _ := publish_runs hinj h.healthy
        (fun _ _ hr => h.used_of_record hr) pub
      rcases hout with ⟨messages, now, f, hnew, hcreated, hf, hb⟩ | ⟨id', letter, -, -, -, hb⟩
      · have hview : (exec engine env (.publish pub) w).2.view id = f id View.empty :=
          hempty ▸ hb.view id
        rw [hview] at ht
        by_cases hid : id ∈ messages.map Message.id
        · obtain ⟨msg, hm, rfl⟩ := List.mem_map.mp hid
          exact ⟨hnew.unused msg hm, hfresh (hf.inside msg hm) (hcreated msg hm) ht⟩
        · rw [hf.outside id hid] at ht
          cases ht
      · have hview : (exec engine env (.publish pub) w).2.view id =
            onlyAt id' (View.filed letter) id View.empty := hempty ▸ hb.view id
        rw [hview, onlyAt] at ht
        split_ifs at ht <;> cases ht
    | replayDeadLetter i =>
      have hout : Runs env (replayDeadLetter i) w _ := replayDeadLetter_runs hinj h.healthy
        (fun _ _ hr => h.used_of_record hr) i
      rcases hout with hb | ⟨msg, detail, now, letterID, g, hnew, hcreated, hg, hb⟩
      · have hview : (exec engine env (.replayDeadLetter i) w).2.view id = View.empty :=
          hempty ▸ hb.view id
        rw [hview] at ht
        cases ht
      · have hview : (exec engine env (.replayDeadLetter i) w).2.view id =
            (onlyAt msg.id g id View.empty).replayed letterID msg.id now := hempty ▸ hb.view id
        rw [hview, onlyAt] at ht
        split_ifs at ht with hid
        · exact ⟨hid ▸ hnew.unused msg (List.mem_singleton_self msg), hfresh hg hcreated ht⟩
        · cases ht
    | _ => exact hop.elim

/-! ## The failures of a run -/

/-- The message was created before it failed. -/
def Precedes (env : Env) (w : World) (fs : List Failure) (t : Time) : Prop :=
  t ≤ env.clock w.ticks ∧ ∀ f ∈ fs, t ≤ f.time

/-- What the store and the pools know about a message, against its failures so far. -/
structure Chronicle (env : Env) (w : World) (id : String) (fs : List Failure) : Prop where
  past : ∀ f ∈ fs, f.time ≤ env.clock w.ticks
  used : fs ≠ [] → Used env w id
  first : ¬ (w.view id).Dead → FirstSeen Failure.time (fun f => f.requeued = false) fs
    ((firstFailure (w.view id).history).map HistoryEvent.time)
  stored : ∀ t, (w.view id).created = some t → Precedes env w fs t
  tasks : ∀ name, ∀ d ∈ w.tasks name, d.message.id = id → Precedes env w fs d.message.createdAt

theorem Chronicle.nil (env : Env) (registry : Registry) (id : String) :
    Chronicle env (World.init registry) id [] where
  past := by simp
  used := by simp
  first := fun _ => FirstSeen.nil _ _
  stored := by simp [View.created, World.view, viewOf, World.init, Memory.Store.new]
  tasks := by simp [World.init]

section Run
variable {w : World} {id : String} {fs : List Failure}

theorem Precedes.step (hclock : Monotone env.clock) (h : Healthy env w) {t : Time}
    (ht : Precedes env w fs t) (op : Op) :
    Precedes env (exec engine env op w).2 (fs ++ (failureIn engine env id w op).toList) t := by
  constructor
  · exact ht.1.trans (hclock (run_counters_le _ w).2)
  · intro f hf
    rcases List.mem_append.mp hf with hf | hf
    · exact ht.2 f hf
    · exact ht.1.trans (failureIn_time h hclock (Option.mem_toList.mp hf)).1

/-- An event about a failure is the first one if there was none before. -/
theorem Chronicle.first_step (hinj : Function.Injective env.newID) (hclock : Monotone env.clock)
    (h : Tidy env w) (hc : Chronicle env w id fs) (op : Op)
    (hd : ¬ ((exec engine env op w).2.view id).Dead) :
    FirstSeen Failure.time (fun f => f.requeued = false)
      (fs ++ (failureIn engine env id w op).toList)
      ((firstFailure ((exec engine env op w).2.view id).history).map HistoryEvent.time) := by
  cases hf : failureIn engine env id w op with
  | none =>
    obtain ⟨hfirst, hdead⟩ := ((exec_changes engine hinj h op).2 id).unmarked rfl hf
    rw [Option.toList_none, List.append_nil, hfirst]
    exact hc.first (fun hw => hd (hdead.mpr hw))
  | some f =>
    obtain ⟨⟨e, hr, hp⟩, hto⟩ := exec_failedTo hinj h hf
    have hfirst := hc.first (by
      rintro ⟨e', hr', hd'⟩
      rw [Option.some.inj (hr'.symm.trans hr), hp] at hd'
      cases hd')
    rw [Option.toList_some]
    generalize (exec engine env op w).2.view id = v' at hd hto ⊢
    cases hto with
    | @requeued queue reason hq =>
      have hsame : (w.view id).Unmarked (requeuedBy id queue reason f.time (w.view id)) :=
        .settled _ (fun _ => by simp [Memory.released]) rfl
      rw [hsame.first]
      exact hfirst.skip (by simp [hq])
    | retried hq =>
      rw [retriedBy, View.settled_of_leased hr hp, firstFailure_append, Option.map_or]
      apply hfirst.snoc hq
      intro g hg
      exact (hc.past g hg).trans (failureIn_time h.healthy hclock hf).1
    | buried =>
      refine absurd ?_ hd
      rw [buriedSince, buriedBy, View.settled_of_leased (v := (w.view id).filed _) hr hp]
      exact ⟨_, rfl, rfl⟩

theorem Chronicle.step (hinj : Function.Injective env.newID) (hclock : Monotone env.clock)
    (h : Tidy env w) (hc : Chronicle env w id fs) (op : Op) :
    Chronicle env (exec engine env op w).2 id
      (fs ++ (failureIn engine env id w op).toList) where
  past := by
    intro f hf
    rcases List.mem_append.mp hf with hf | hf
    · exact (hc.past f hf).trans (hclock (run_counters_le _ w).2)
    · exact (failureIn_time h.healthy hclock (Option.mem_toList.mp hf)).2
  used := by
    intro hne
    have hids : w.ids ≤ (exec engine env op w).2.ids := (run_counters_le _ w).1
    cases hf : failureIn engine env id w op with
    | none =>
      rw [hf, Option.toList_none, List.append_nil] at hne
      exact (hc.used hne).mono hids
    | some f =>
      obtain ⟨⟨e, hr, -⟩, -⟩ := exec_failedTo hinj h hf
      exact (h.used_of_record hr).mono hids
  first := hc.first_step hinj hclock h op
  stored := by
    intro t ht
    rcases exec_created hinj h op ht with hold | ⟨hnew, rfl⟩
    · exact (hc.stored t hold).step hclock h.healthy op
    · -- No message has failed under an id that was not used before.
      have hnil : fs = [] := by
        by_contra hne
        exact hnew (hc.used hne)
      rw [hnil]
      exact Precedes.step hclock h.healthy ⟨le_rfl, by simp⟩ op
  tasks := by
    intro name d hd hid
    rcases exec_tasks engine hinj h.healthy.keyed op hd with hd | ⟨-, e, req, hl, hmsg⟩
    · exact (hc.tasks name d hd hid).step hclock h.healthy op
    · have hcreated : (w.view id).created = some d.message.createdAt := by
        rw [hid] at hl
        have hr : (w.view id).record = some e := hl
        rw [View.created, hr, hmsg]
        rfl
      exact (hc.stored _ hcreated).step hclock h.healthy op

/-- Between two worlds the letter about a message was saved under this id. -/
def Saved (w w' : World) (id a : String) (letter : DeadLetter) : Prop :=
  w.store.deadLetters.lookup a = none ∧ w'.store.deadLetters.lookup a = some letter ∧
    letter.messageID = id

theorem saved_iff_of_filed {w' : World} (h : Healthy env w) {a : String} {letter : DeadLetter}
    (hnew : ¬ Used env w a) (hid : letter.messageID = id)
    (hl : (w'.view id).letters = Function.update (w.view id).letters a (some letter))
    (b : String) (d : DeadLetter) : Saved w w' id b d ↔ b = a ∧ d = letter := by
  constructor
  · rintro ⟨hnone, hsome, rfl⟩
    rw [letter_iff, hl] at hsome
    by_cases hb : b = a
    · subst hb
      rw [Function.update_self] at hsome
      exact ⟨rfl, (Option.some.inj hsome).symm⟩
    · rw [Function.update_of_ne hb, ← letter_iff, hnone] at hsome
      cases hsome
  · rintro ⟨rfl, rfl⟩
    refine ⟨?_, ?_, hid⟩
    · cases hlookup : w.store.deadLetters.lookup b with
      | none => rfl
      | some old => exact absurd (h.letters b old hlookup) hnew
    · rw [letter_iff, hid, hl, Function.update_self]

/-- The letter of a message that is given up: what it says about the time comes from the failure
and from the history before it. -/
theorem exec_buries (hinj : Function.Injective env.newID) (h : Tidy env w) {op : Op}
    (hbefore : ¬ (w.view id).Dead) (hafter : ((exec engine env op w).2.view id).Dead) :
    ∃ f a letter, failureIn engine env id w op = some f ∧ f.requeued = false ∧
      (∀ b d, Saved w (exec engine env op w).2 id b d ↔ b = a ∧ d = letter) ∧
      letter.firstFailedAt = failedSince (w.view id).history f.time ∧
      letter.deadLetteredAt = f.time ∧
      ((w.view id).created = some letter.publishedAt ∨
        ∃ name, ∃ d ∈ w.tasks name, d.message.id = id ∧
          d.message.createdAt = letter.publishedAt) := by
  cases hf : failureIn engine env id w op with
  | none =>
    have hsame := ((exec_changes engine hinj h op).2 id).unmarked rfl hf
    exact absurd (hsame.dead.mp hafter) hbefore
  | some f =>
    obtain ⟨⟨e, hr, hp⟩, hto⟩ := exec_failedTo hinj h hf
    generalize hv : (exec engine env op w).2.view id = v' at hafter hto
    cases hto with
    | requeued =>
      rw [requeuedBy, View.settled_of_leased hr hp] at hafter
      obtain ⟨e', hr', hd⟩ := hafter
      obtain rfl := Option.some.inj hr'
      cases hd
    | retried =>
      rw [retriedBy, View.settled_of_leased hr hp] at hafter
      obtain ⟨e', hr', hd⟩ := hafter
      obtain rfl := Option.some.inj hr'
      cases hd
    | @buried consumer d cause a hq hid hnew hd =>
      have hl := congrArg View.letters hv
      rw [buriedSince, buriedBy, View.letters_settled] at hl
      refine ⟨f, a, _, rfl, hq, saved_iff_of_filed h.healthy hnew hid hl, rfl, rfl, ?_⟩
      rcases hd with ⟨e', hr', heq⟩ | ⟨name, hd⟩
      · rw [View.created, hr', Option.map_some, heq]
        exact Or.inl rfl
      · exact Or.inr ⟨name, d, hd, hid, rfl⟩

/-- The time in the letter is that of the first failure the history shows, the one that led to the
letter included. -/
theorem Chronicle.buried (hinj : Function.Injective env.newID) (hclock : Monotone env.clock)
    (h : Tidy env w) (hc : Chronicle env w id fs) {op : Op} (hbefore : ¬ (w.view id).Dead)
    (hafter : ((exec engine env op w).2.view id).Dead) :
    ∃ a letter, (∀ b d, Saved w (exec engine env op w).2 id b d ↔ b = a ∧ d = letter) ∧
      letter.publishedAt ≤ letter.firstFailedAt ∧
      letter.firstFailedAt ≤ letter.deadLetteredAt ∧
      IsLeast {t | ∃ f ∈ fs ++ (failureIn engine env id w op).toList,
        f.requeued = false ∧ f.time = t} letter.firstFailedAt := by
  obtain ⟨f, a, letter, hf, hq, hsaved, hfirst, hdead, hpublished⟩ :=
    exec_buries hinj h hbefore hafter
  obtain ⟨hnow, -⟩ := failureIn_time h.healthy hclock hf
  have hpast : ∀ g ∈ fs, g.time ≤ f.time := fun g hg => (hc.past g hg).trans hnow
  have hprecedes : Precedes env w fs letter.publishedAt := by
    rcases hpublished with hcreated | ⟨name, d, hd, hid, heq⟩
    · exact hc.stored _ hcreated
    · exact heq ▸ hc.tasks name d hd hid
  rw [hf, Option.toList_some]
  have hleast : IsLeast {t | ∃ g ∈ fs ++ [f], g.requeued = false ∧ g.time = t}
      letter.firstFailedAt := by
    have hseen := (hc.first hbefore).snoc hq hpast
    rw [hfirst]
    unfold failedSince
    cases hh : (firstFailure (w.view id).history).map HistoryEvent.time with
    | none =>
      rw [hh] at hseen
      exact hseen
    | some t =>
      rw [hh] at hseen
      exact hseen
  have hbounds : ∀ g ∈ fs ++ [f], letter.publishedAt ≤ g.time ∧ g.time ≤ f.time := by
    intro g hg
    rcases List.mem_append.mp hg with hg | hg
    · exact ⟨hprecedes.2 g hg, hpast g hg⟩
    · rw [List.mem_singleton.mp hg]
      exact ⟨hprecedes.1.trans hnow, le_rfl⟩
  obtain ⟨g, hg, -, htime⟩ := hleast.1
  obtain ⟨hlower, hupper⟩ := hbounds g hg
  rw [htime] at hlower hupper
  exact ⟨a, letter, hsaved, hlower, hdead ▸ hupper, hleast⟩

end Run

theorem failures_snoc (engine : Engine) (env : Env) (registry : Registry) (ops : List Op) (op : Op)
    (id : String) : failures engine env registry (ops ++ [op]) id =
      failures engine env registry ops id ++
        (failureIn engine env id (running engine env registry ops) op).toList :=
  observed_snoc _ _ _ _ _

theorem running_chronicle (engine : Engine) (hinj : Function.Injective env.newID)
    (hclock : Monotone env.clock) (registry : Registry) (ops : List Op) (id : String) :
    Chronicle env (running engine env registry ops) id
      (failures engine env registry ops id) := by
  induction ops using List.reverseRecOn with
  | nil => exact Chronicle.nil env registry id
  | append_singleton ops op ih =>
    rw [running_snoc, failures_snoc]
    exact ih.step hinj hclock (running_tidy engine hinj registry ops) op

/-- When a message is dead-lettered, one letter is saved about it. The message was published
before it failed, and the letter has the time of the earliest failure that did not send the
message straight back to its queue. This is the earliest failure exactly if no lease had expired
before it with attempts left. -/
theorem firstFailedAt_earliest_iff (engine : Engine) (env : Env)
    (hinj : Function.Injective env.newID) (hclock : Monotone env.clock) (registry : Registry)
    (ops : List Op) (op : Op) (id : String)
    (hbefore : stateIn (running engine env registry ops).store id ≠ some .deadLettered)
    (hafter : stateIn (running engine env registry (ops ++ [op])).store id =
      some .deadLettered) :
    ∃ a letter, (∀ b d, Saved (running engine env registry ops)
        (running engine env registry (ops ++ [op])) id b d ↔ b = a ∧ d = letter) ∧
      letter.publishedAt ≤ letter.firstFailedAt ∧
      letter.firstFailedAt ≤ letter.deadLetteredAt ∧
      IsLeast {t | ∃ f ∈ failures engine env registry (ops ++ [op]) id,
        f.requeued = false ∧ f.time = t} letter.firstFailedAt ∧
      (IsLeast {t | ∃ f ∈ failures engine env registry (ops ++ [op]) id, f.time = t}
          letter.firstFailedAt ↔
        ∃ f ∈ failures engine env registry (ops ++ [op]) id, f.requeued = false ∧
          ∀ g ∈ failures engine env registry (ops ++ [op]) id, f.time ≤ g.time) := by
  have hc := running_chronicle engine hinj hclock registry ops id
  rw [running_snoc, ← dead_iff] at hafter
  rw [Ne, ← dead_iff] at hbefore
  obtain ⟨a, letter, hsaved, hlower, hupper, hleast⟩ :=
    hc.buried hinj hclock (running_tidy engine hinj registry ops) hbefore hafter
  rw [running_snoc, failures_snoc]
  exact ⟨a, letter, hsaved, hlower, hupper, hleast, isLeast_iff_of_seen hleast⟩

/-- A delivery is rejected twice, the second time for good. -/
def rejectedTwice : List Op :=
  [.publish order, .pull ⟨"orders", "a", 1, 30⟩, .nack "|" "" false 1,
    .pull ⟨"orders", "a", 1, 30⟩]

theorem firstFailedAt_earliest_iff_rejectedTwice :
    failures (ordersEngine 2 (by decide)) steadyEnv (ordersRegistry 2)
        (rejectedTwice ++ [.nack "|" "" false 2]) "|" = [⟨20, false⟩, ⟨40, false⟩] ∧
      ∃ a letter, Saved (running (ordersEngine 2 (by decide)) steadyEnv (ordersRegistry 2)
          rejectedTwice) (running (ordersEngine 2 (by decide)) steadyEnv (ordersRegistry 2)
          (rejectedTwice ++ [.nack "|" "" false 2])) "|" a letter ∧
        IsLeast {t | ∃ f ∈ failures (ordersEngine 2 (by decide)) steadyEnv (ordersRegistry 2)
          (rejectedTwice ++ [.nack "|" "" false 2]) "|", f.time = t} letter.firstFailedAt := by
  have hfailures : failures (ordersEngine 2 (by decide)) steadyEnv (ordersRegistry 2)
      (rejectedTwice ++ [.nack "|" "" false 2]) "|" = [⟨20, false⟩, ⟨40, false⟩] := by
    decide +kernel
  obtain ⟨a, letter, hsaved, -, -, -, hiff⟩ := firstFailedAt_earliest_iff
    (ordersEngine 2 (by decide)) steadyEnv (ordersEnv_injective []) steadyEnv_monotone
    (ordersRegistry 2) rejectedTwice (.nack "|" "" false 2) "|" (by decide +kernel)
    (by decide +kernel)
  refine ⟨hfailures, a, letter, (hsaved a letter).mpr ⟨rfl, rfl⟩, hiff.mpr ?_⟩
  rw [hfailures]
  exact ⟨⟨20, false⟩, by decide, rfl, by decide⟩

/-- A lease expires, then a delivery is rejected for good. -/
def expiredThenRejected : List Op :=
  [.publish order, .pull ⟨"orders", "a", 1, 5⟩, .reclaim, .pull ⟨"orders", "a", 1, 30⟩]

/-- The lease expired at 20, and the letter says that the message failed for the first time
at 40. -/
theorem firstFailedAt_misses_expiredThenRejected :
    Monotone steadyEnv.clock ∧ Function.Injective steadyEnv.newID ∧
    failures (ordersEngine 2 (by decide)) steadyEnv (ordersRegistry 2)
      (expiredThenRejected ++ [.nack "|" "" false 2]) "|" = [⟨20, true⟩, ⟨40, false⟩] ∧
    stateIn (running (ordersEngine 2 (by decide)) steadyEnv (ordersRegistry 2)
      (expiredThenRejected ++ [.nack "|" "" false 2])).store "|" = some .deadLettered ∧
    ((running (ordersEngine 2 (by decide)) steadyEnv (ordersRegistry 2)
      (expiredThenRejected ++ [.nack "|" "" false 2])).store.deadLetters.lookup "||").map
        (fun letter => (letter.messageID, letter.publishedAt, letter.firstFailedAt,
          letter.deadLetteredAt)) = some ("|", 0, 40, 40) := by
  refine ⟨steadyEnv_monotone, ordersEnv_injective [], ?_, ?_, ?_⟩
  · decide +kernel
  · decide +kernel
  · decide +kernel

end RabbitmqLite.Engine
