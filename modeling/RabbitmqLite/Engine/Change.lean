import RabbitmqLite.Engine.Batches

/-! # What one operation can do to one message

The complete list of changes an operation that runs to completion can make to
the view of one message. Every invariant of the engine about single messages,
with the operations one at a time, is a case analysis of this list.
-/

namespace RabbitmqLite.Engine
open Broker Collections Storage Atomic
open Memory (Record)

/-- The message is among those a pull has returned. -/
def Pulled : (op : Op) → op.Reply → String → Prop
  | .pull _, .ok claimed, id => id ∈ claimed.map Message.id
  | _, _, _ => False

/-- The changes of a view, by operation. The world is the one the operation started in. -/
inductive Change (engine : Engine) (env : Env) (w : World) :
    (op : Op) → op.Reply → String → View → View → Prop where
  | same {op : Op} {reply : op.Reply} {id : String} {v : View} (h : ¬ Pulled op reply id) :
      Change engine env w op reply id v v
  | publish {pub : Publication} {reply : Except Error PublishResult} {now : Time} {msg : Message}
      {g : View → View} (hs : msg.state = .queued) (ha : msg.attempts = 0)
      (hg : PublishedBy "" now msg g) :
      Change engine env w (.publish pub) reply msg.id View.empty (g View.empty)
  | reject {pub : Publication} {reply : Except Error PublishResult} {id : String}
      {letter : DeadLetter} (hk : letter.errorKind = errorKindValidation) :
      Change engine env w (.publish pub) reply id View.empty (View.empty.filed letter)
  | pull {req : PullRequest} {claimed : List Message} {claim : ClaimRequest} {v : View}
      {e : Record} {g : View → View} (hr : v.record = some e)
      (hc : Memory.claimable e.msg claim.now = true)
      (hm : (Memory.takenOver claim e).msg ∈ claimed) (hn : (claimed.map Message.id).Nodup)
      (hg : DeliveredBy claim claim.now (Memory.takenOver claim e).msg g) :
      Change engine env w (.pull req) (.ok claimed) e.msg.id v (g v)
  | dispatch {consumer : ConsumerSpec} {reply : Except Error ℤ} {claim : ClaimRequest} {v : View}
      {e : Record} {g : View → View} (hr : v.record = some e)
      (hc : Memory.claimable e.msg claim.now = true)
      (hg : DispatchedBy env consumer claim (Memory.takenOver claim e).msg g) :
      Change engine env w (.claimBatch consumer) reply e.msg.id v (g v)
  | ack {id queue : String} {held : ℤ} {reply : Except Error Unit} {now : Time} {v : View} :
      Change engine env w (.ack id held) reply id v
        (v.settled (fun msg => Memory.acknowledged msg now)
          [⟨id, queue, .processing, .acknowledged, "", "", now⟩])
  | requeue {id queue reason text : String} {held : ℤ} {reply : Except Error Unit} {now : Time}
      {v : View} :
      Change engine env w (.nack id reason true held) reply id v (requeuedBy id queue text now v)
  | nack {id reason text : String} {held : ℤ} {reply : Except Error Unit} {v : View} {e : Record}
      {g : View → View} (hr : v.record = some e)
      (hg : FailedBy engine "" ⟨e.msg, e.msg.attempts, e.msg.queue⟩ (.failure text false) g) :
      Change engine env w (.nack id reason false held) reply id v (g v)
  | handled {consumer : ConsumerSpec} {d : Delivery} {now : Time} {v : View}
      (hd : (w.tasks consumer.name).head? = some d) :
      Change engine env w (.work consumer none) () d.message.id v
        (v.settled (fun msg => Memory.acknowledged msg now)
          [⟨d.message.id, d.queue, .processing, .acknowledged, consumer.name, "", now⟩])
  | failed {consumer : ConsumerSpec} {cause : Cause} {d : Delivery} {v : View} {g : View → View}
      (hd : (w.tasks consumer.name).head? = some d)
      (hg : FailedBy engine consumer.name d cause g) :
      Change engine env w (.work consumer (some cause)) () d.message.id v (g v)
  | reclaim {v : View} {e : Record} {g : View → View} (hr : v.record = some e)
      (hm : e.msg ∈ overdue w (env.clock w.ticks)) (hp : e.msg.state = .processing)
      (hg : ReclaimedBy engine (env.clock w.ticks) e.msg g) :
      Change engine env w .reclaim () e.msg.id v (g v)
  | replay {id detail : String} {reply : Except Error ReplayResult} {now : Time} {msg : Message}
      {g : View → View} (hs : msg.state = .queued) (ha : msg.attempts = 0)
      (hg : PublishedBy detail now msg g) :
      Change engine env w (.replayDeadLetter id) reply msg.id View.empty (g View.empty)
  | replayed {id letterID replayedAs x : String} {reply : Except Error ReplayResult} {now : Time}
      {v : View} :
      Change engine env w (.replayDeadLetter id) reply x v (v.replayed letterID replayedAs now)
  | purge {queue id : String} {reply : Except Storage.Error ℤ} {v : View} {e : Record}
      (hr : v.record = some e) (ht : e.msg.state.terminal = false) :
      Change engine env w (.purge queue) reply id v { v with record := none }
  | discard {id x : String} {reply : Except Storage.Error Unit} {v : View} :
      Change engine env w (.discardDeadLetter id) reply x v (v.discarded id)

/-- The store is healthy, and whatever it keeps belongs to an id that was generated. -/
structure Tidy (env : Env) (w : World) : Prop where
  healthy : Healthy env w
  used : ∀ id, w.view id ≠ View.empty → Used env w id
  tasks : ∀ consumer, ∀ d ∈ w.tasks consumer, Used env w d.message.id

variable {engine : Engine} {env : Env}

theorem Tidy.used_of_record {w : World} (h : Tidy env w) {id : String} {e : Record}
    (hr : (w.view id).record = some e) : Used env w id := by
  apply h.used
  intro hv
  rw [hv] at hr
  cases hr

theorem Tidy.view_of_unused {w : World} (h : Tidy env w) {id : String} (hn : ¬ Used env w id) :
    w.view id = View.empty := by
  by_contra hv
  exact hn (h.used id hv)

/-- A view that was empty fills up only under an id that was generated. -/
theorem Tidy.becomes {w w' : World} (h : Tidy env w) {f : String → View → View}
    (hb : Becomes env w w' f)
    (hf : ∀ id, f id View.empty = View.empty ∨ Used env w' id) : Tidy env w' where
  healthy := hb.healthy
  used := by
    intro id hv
    by_cases hw : w.view id = View.empty
    · rw [hb.view, hw] at hv
      exact (hf id).resolve_left hv
    · exact (h.used id hw).mono hb.ids
  tasks := by
    intro consumer d hd
    rcases hb.tasks consumer d hd with hd | hu
    · exact (h.tasks consumer d hd).mono hb.ids
    · exact hu

theorem Tidy.onlyAt {w w' : World} (h : Tidy env w) {id : String} {g : View → View}
    (hb : Becomes env w w' (Engine.onlyAt id g))
    (hg : g View.empty = View.empty ∨ Used env w' id) : Tidy env w' := by
  apply h.becomes hb
  intro x
  by_cases hx : x = id
  · subst hx
    rw [onlyAt_self]
    exact hg
  · exact Or.inl (onlyAt_of_ne hx g View.empty)

theorem Tidy.onEach {w w' : World} (h : Tidy env w) {R : Message → (View → View) → Prop}
    {msgs : List Message} {f : String → View → View} (hb : Becomes env w w' f)
    (hf : OnEach R msgs f) (hu : ∀ msg ∈ msgs, Used env w' msg.id) : Tidy env w' := by
  apply h.becomes hb
  intro x
  by_cases hx : x ∈ msgs.map Message.id
  · obtain ⟨msg, hm, rfl⟩ := List.mem_map.mp hx
    exact Or.inr (hu msg hm)
  · rw [hf.outside x hx]
    exact Or.inl rfl

/-- The operation leaves the store tidy, and it makes only the listed changes. -/
def Changes (engine : Engine) (env : Env) (w : World) (op : Op) (reply : op.Reply) (w' : World) :
    Prop :=
  Tidy env w' ∧ ∀ x, Change engine env w op reply x (w.view x) (w'.view x)

theorem Tidy.changes_still {w w' : World} (h : Tidy env w) (hb : Becomes env w w' still) {op : Op}
    {reply : op.Reply} (hp : ∀ x, ¬ Pulled op reply x) : Changes engine env w op reply w' := by
  refine ⟨h.becomes hb (fun _ => Or.inl rfl), fun x => ?_⟩
  rw [hb.view]
  exact .same (hp x)

theorem Tidy.changes_onlyAt {w w' : World} (h : Tidy env w) {id : String} {g : View → View}
    (hb : Becomes env w w' (Engine.onlyAt id g)) (hg : g View.empty = View.empty ∨ Used env w' id)
    {op : Op} {reply : op.Reply} (hp : ∀ x, ¬ Pulled op reply x)
    (hc : Change engine env w op reply id (w.view id) (g (w.view id))) :
    Changes engine env w op reply w' := by
  refine ⟨h.onlyAt hb hg, fun x => ?_⟩
  rw [hb.view]
  by_cases hx : x = id
  · subst hx
    rw [onlyAt_self]
    exact hc
  · rw [onlyAt_of_ne hx]
    exact .same (hp x)

theorem Tidy.changes_onEach {w w' : World} (h : Tidy env w) {R : Message → (View → View) → Prop}
    {msgs : List Message} {f : String → View → View} (hb : Becomes env w w' f)
    (hf : OnEach R msgs f) (hu : ∀ msg ∈ msgs, Used env w' msg.id) {op : Op} {reply : op.Reply}
    (hp : ∀ x, x ∉ msgs.map Message.id → ¬ Pulled op reply x)
    (hc : ∀ msg ∈ msgs, ∀ g, R msg g →
      Change engine env w op reply msg.id (w.view msg.id) (g (w.view msg.id))) :
    Changes engine env w op reply w' := by
  refine ⟨h.onEach hb hf hu, fun x => ?_⟩
  rw [hb.view]
  by_cases hx : x ∈ msgs.map Message.id
  · obtain ⟨msg, hm, rfl⟩ := List.mem_map.mp hx
    exact hc msg hm _ (hf.inside msg hm)
  · rw [hf.outside x hx]
    exact .same (hp x hx)

/-! ## The operations in turn -/

section Operations
variable {w : World}

theorem publish_changes (hinj : Function.Injective env.newID) (h : Tidy env w)
    (pub : Publication) :
    Runs env (publish engine pub) w (Changes engine env w (.publish pub)) := by
  apply (publish_runs hinj h.healthy (fun _ _ hr => h.used_of_record hr) pub).mono
  rintro reply w' (⟨messages, now, f, hfresh, -, hf, hb⟩ | ⟨id, letter, hnew, hu, hk, hb⟩)
  · apply h.changes_onEach hb hf hfresh.used
    · exact fun _ _ => not_false
    · intro msg hm g hg
      rw [h.view_of_unused (hfresh.unused msg hm)]
      exact .publish (hfresh.queued msg hm).1 (hfresh.queued msg hm).2 hg
  · apply h.changes_onlyAt hb (Or.inr hu)
    · exact fun _ => not_false
    · rw [h.view_of_unused hnew]
      exact .reject hk

theorem pull_changes (h : Tidy env w) (req : PullRequest) :
    Runs env (pull req) w (Changes engine env w (.pull req)) := by
  apply (pull_runs h.healthy req).mono
  intro reply w' hreply
  cases reply with
  | error e => exact h.changes_still hreply (fun _ => not_false)
  | ok claimed =>
    obtain ⟨claim, hfrom, f, hf, hb⟩ := hreply
    apply h.changes_onEach hb hf
    · intro msg hm
      obtain ⟨e, hr, -⟩ := hfrom.2 msg hm
      exact (h.used_of_record hr).mono hb.ids
    · exact fun x hx hp => hx hp
    · intro msg hm g hg
      obtain ⟨e, hr, hc, rfl⟩ := hfrom.2 msg hm
      exact Change.pull (e := e) hr hc hm hfrom.1 hg

theorem claimBatch_changes (h : Tidy env w) (consumer : ConsumerSpec) :
    Runs env (claimBatch consumer) w (Changes engine env w (.claimBatch consumer)) := by
  apply (claimBatch_runs h.healthy consumer (fun _ _ hr => h.used_of_record hr)).mono
  rintro reply w' ⟨claim, claimed, hfrom, f, hf, hb⟩
  apply h.changes_onEach hb hf
  · intro msg hm
    obtain ⟨e, hr, -⟩ := hfrom.2 msg hm
    exact (h.used_of_record hr).mono hb.ids
  · exact fun _ _ => not_false
  · intro msg hm g hg
    obtain ⟨e, hr, hc, rfl⟩ := hfrom.2 msg hm
    exact Change.dispatch (e := e) hr hc hg

theorem ack_changes (h : Tidy env w) (id : String) (held : ℤ) :
    Runs env (ack id held) w (Changes engine env w (.ack id held)) := by
  apply (ack_runs h.healthy id held).mono
  rintro reply w' ⟨queue, now, hb⟩
  exact h.changes_onlyAt hb (Or.inl rfl) (fun _ => not_false) .ack

theorem nack_changes (hinj : Function.Injective env.newID) (h : Tidy env w) (id reason : String)
    (requeue : Bool) (held : ℤ) : Runs env (nack engine id reason requeue held) w
      (Changes engine env w (.nack id reason requeue held)) := by
  cases requeue with
  | true =>
    apply (nack_runs_requeue h.healthy id reason held).mono
    rintro reply w' ⟨queue, text, now, hb⟩
    exact h.changes_onlyAt hb (Or.inl rfl) (fun _ => not_false) .requeue
  | false =>
    apply (nack_runs_fail engine hinj h.healthy id reason held).mono
    rintro reply w' (⟨-, hb⟩ | ⟨e, text, g, hr, hg, hb⟩)
    · exact h.changes_still hb (fun _ => not_false)
    · obtain ⟨g', hg', heq⟩ := hg.failedBy (w.view id)
      refine h.changes_onlyAt hb (Or.inr ((h.used_of_record hr).mono hb.ids))
        (fun _ => not_false) ?_
      rw [← heq]
      exact .nack hr hg'

theorem work_changes (hinj : Function.Injective env.newID) (h : Tidy env w)
    (consumer : ConsumerSpec) (outcome : Option Cause) :
    Runs env (work engine consumer outcome) w (Changes engine env w (.work consumer outcome)) := by
  apply (work_runs engine hinj h.healthy consumer outcome).mono
  intro reply w' hw
  cases hd : (w.tasks consumer.name).head? with
  | none =>
    rw [hd] at hw
    exact h.changes_still hw (fun _ => not_false)
  | some d =>
    rw [hd] at hw
    have hu : Used env w d.message.id := h.tasks consumer.name d (List.mem_of_head? hd)
    cases outcome with
    | none =>
      obtain ⟨now, hb⟩ := hw
      exact h.changes_onlyAt hb (Or.inl rfl) (fun _ => not_false) (.handled hd)
    | some cause =>
      obtain ⟨g, hg, hb⟩ := hw
      obtain ⟨g', hg', heq⟩ := hg.failedBy (w.view d.message.id)
      refine h.changes_onlyAt hb (Or.inr (hu.mono hb.ids)) (fun _ => not_false) ?_
      rw [← heq]
      exact .failed hd hg'

theorem reclaim_changes (hinj : Function.Injective env.newID) (h : Tidy env w) :
    Runs env (reclaim engine) w (Changes engine env w .reclaim) := by
  apply (reclaim_runs engine hinj h.healthy).mono
  rintro reply w' ⟨f, hf, hb⟩
  apply h.changes_onEach hb hf
  · intro msg hm
    obtain ⟨e, hr, -⟩ := overdue_stored h.healthy.keyed hm
    exact (h.used_of_record hr).mono hb.ids
  · exact fun _ _ => not_false
  · intro msg hm g hg
    obtain ⟨e, hr, rfl, hp⟩ := overdue_stored h.healthy.keyed hm
    obtain ⟨g', hg', heq⟩ := hg.reclaimedBy (w.view e.msg.id)
    rw [← heq]
    exact .reclaim hr hm hp hg'

theorem View.replayed_of_none {v : View} (h : ∀ a, v.letters a = none) (id replayedAs : String)
    (now : Time) : v.replayed id replayedAs now = v := by
  refine View.ext rfl rfl (funext fun a => ?_)
  simp [View.replayed, h]

theorem replay_changes (hinj : Function.Injective env.newID) (h : Tidy env w) (id : String) :
    Runs env (replayDeadLetter id) w (Changes engine env w (.replayDeadLetter id)) := by
  apply (replayDeadLetter_runs hinj h.healthy (fun _ _ hr => h.used_of_record hr) id).mono
  rintro reply w' (hb | ⟨msg, detail, now, letterID, g, hfresh, -, hg, hb⟩)
  · exact h.changes_still hb (fun _ => not_false)
  · have hm := List.mem_singleton_self msg
    refine ⟨h.becomes hb (fun x => ?_), fun x => ?_⟩
    · by_cases hx : x = msg.id
      · exact Or.inr (hx ▸ hfresh.used msg hm)
      · rw [onlyAt_of_ne hx, View.replayed_of_none (fun a => rfl)]
        exact Or.inl rfl
    · rw [hb.view]
      by_cases hx : x = msg.id
      · subst hx
        rw [h.view_of_unused (hfresh.unused msg hm), onlyAt_self]
        have hletters : ∀ a, (g View.empty).letters a = none := by
          intro a
          rw [hg]
          rfl
        rw [View.replayed_of_none hletters]
        exact .replay (hfresh.queued msg hm).1 (hfresh.queued msg hm).2 hg
      · rw [onlyAt_of_ne hx]
        exact .replayed

theorem purge_changes (h : Tidy env w) (queue : String) :
    Runs env (store (.purge queue)) w (Changes engine env w (.purge queue)) := by
  apply (purge_runs h.healthy queue).mono
  rintro reply w' ⟨f, hb, hf⟩
  refine ⟨h.becomes hb (fun x => ?_), fun x => ?_⟩
  · rcases hf x with hid | ⟨-, hnone⟩
    · exact Or.inl (congrFun hid _)
    · exact Or.inl (congrFun hnone _)
  · rw [hb.view]
    rcases hf x with hid | ⟨⟨e, hr, ht⟩, hnone⟩
    · rw [hid]
      exact .same not_false
    · rw [hnone]
      exact .purge hr ht

theorem discard_changes (h : Tidy env w) (id : String) :
    Runs env (store (.deleteDeadLetter id)) w (Changes engine env w (.discardDeadLetter id)) := by
  apply (discard_runs h.healthy id).mono
  intro reply w' hb
  refine ⟨h.becomes hb (fun x => Or.inl ?_), fun x => ?_⟩
  · exact View.ext rfl rfl (funext fun a => by simp [View.discarded, View.empty])
  · rw [hb.view]
    exact .discard

end Operations

/-- The inversion lemma of the engine. -/
theorem exec_changes (engine : Engine) (hinj : Function.Injective env.newID) {w : World}
    (h : Tidy env w) (op : Op) :
    Changes engine env w op (exec engine env op w).1 (exec engine env op w).2 := by
  cases op with
  | publish pub => exact publish_changes hinj h pub
  | pull req => exact pull_changes h req
  | ack id held => exact ack_changes h id held
  | nack id reason requeue held => exact nack_changes hinj h id reason requeue held
  | claimBatch consumer => exact claimBatch_changes h consumer
  | work consumer outcome => exact work_changes hinj h consumer outcome
  | reclaim => exact reclaim_changes hinj h
  | replayDeadLetter id => exact replay_changes hinj h id
  | purge queue => exact purge_changes h queue
  | discardDeadLetter id => exact discard_changes h id

theorem init_tidy (env : Env) (registry : Registry) : Tidy env (World.init registry) where
  healthy := ⟨Memory.new_keyed, rfl, by simp [World.init, Memory.Store.new],
    by simp [World.init, Memory.Store.new]⟩
  used := by
    intro id hv
    apply absurd _ hv
    refine View.ext rfl rfl (funext fun a => ?_)
    simp [World.view, viewOf, World.init, Memory.Store.new, View.empty]
  tasks := by simp [World.init]

/-! ## Runs -/

/-- Operations run one at a time on an empty store. -/
def running (engine : Engine) (env : Env) (registry : Registry) (ops : List Op) : World :=
  after (exec engine env) (World.init registry) ops

def runningTrace (engine : Engine) (env : Env) (registry : Registry) (ops : List Op) :
    List (Event Op Op.Reply) :=
  trace (exec engine env) (World.init registry) ops

theorem running_snoc (engine : Engine) (env : Env) (registry : Registry) (ops : List Op) (op : Op) :
    running engine env registry (ops ++ [op]) =
      (exec engine env op (running engine env registry ops)).2 := by
  unfold running
  rw [after_append, after_singleton]

theorem running_tidy (engine : Engine) (hinj : Function.Injective env.newID)
    (registry : Registry) (ops : List Op) : Tidy env (running engine env registry ops) := by
  induction ops using List.reverseRecOn with
  | nil => exact init_tidy env registry
  | append_singleton ops op ih =>
    rw [running_snoc]
    exact (exec_changes engine hinj ih op).1

/-- What every operation keeps that meets the condition holds after a run of such operations;
a step may use the list of changes. -/
theorem running_rule (hinj : Function.Injective env.newID) {registry : Registry}
    (cond : World → Op → Prop) (I : World → List (Event Op Op.Reply) → Prop)
    (hinit : I (World.init registry) [])
    (hstep : ∀ w es op, Tidy env w → cond w op →
      Changes engine env w op (exec engine env op w).1 (exec engine env op w).2 → I w es →
      I (exec engine env op w).2 (es ++ [⟨op, (exec engine env op w).1⟩]))
    {ops : List Op} (hops : StepsMeet (exec engine env) cond (World.init registry) ops) :
    I (running engine env registry ops) (runningTrace engine env registry ops) := by
  have hrun := run_rule (exec engine env) (I := fun w es => Tidy env w ∧ I w es)
    (fun w es op hc h => ?_) hops ⟨init_tidy env registry, hinit⟩
  · exact hrun.2
  · have hchanges := exec_changes engine hinj h.1 op
    exact ⟨hchanges.1, hstep w es op h.1 hc hchanges h.2⟩

end RabbitmqLite.Engine
