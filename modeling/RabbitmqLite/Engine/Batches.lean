import RabbitmqLite.Engine.Runs

/-! # Operations on several messages

Reclaiming, claiming, dispatching and publishing work through a list of
messages, each of which has its own view.
-/

namespace RabbitmqLite.Engine
open Broker Collections Storage Atomic
open Memory (Record)

variable {engine : Engine} {env : Env}

/-- Each of the messages has its view changed in one of the given ways, and no other view
changes. -/
structure OnEach (R : Message → (View → View) → Prop) (msgs : List Message)
    (f : String → View → View) : Prop where
  outside : ∀ x, x ∉ msgs.map Message.id → f x = id
  inside : ∀ msg ∈ msgs, R msg (f msg.id)

theorem OnEach.nil (R : Message → (View → View) → Prop) : OnEach R [] still :=
  ⟨fun _ _ => rfl, by simp⟩

theorem OnEach.cons {R : Message → (View → View) → Prop} {msg : Message} {msgs : List Message}
    {f : String → View → View} {g : View → View} (hn : ((msg :: msgs).map Message.id).Nodup)
    (hg : R msg g) (hf : OnEach R msgs f) :
    OnEach R (msg :: msgs) (fun x v => f x (onlyAt msg.id g x v)) := by
  rw [List.map_cons, List.nodup_cons] at hn
  constructor
  · intro x hx
    rw [List.map_cons, List.mem_cons, not_or] at hx
    funext v
    rw [hf.outside x hx.2, onlyAt_of_ne hx.1]
  · intro other ho
    rcases List.mem_cons.mp ho with rfl | ho
    · rw [hf.outside other.id hn.1]
      simpa using hg
    · have hne : other.id ≠ msg.id := fun heq =>
        hn.1 (heq ▸ List.mem_map_of_mem ho)
      simpa [onlyAt_of_ne hne] using hf.inside other ho

/-- What a reclaim pass makes of the view of a message whose lease has run out. -/
def ReclaimedBy (engine : Engine) (now : Time) (msg : Message) (g : View → View) : Prop :=
  if engine.policy.shouldRetry msg.attempts then
    g = requeuedBy msg.id msg.queue Cause.leaseExpired.text now
  else ∃ firstFailedAt id,
    g = buriedBy ((msg.header headerConsumer).getD "") ⟨msg, msg.attempts, msg.queue⟩ .leaseExpired
      { letterOf ⟨msg, msg.attempts, msg.queue⟩ .leaseExpired firstFailedAt now with id := id } now

/-- The same with what the letter says about the first failure and its id. -/
def ReclaimedAt (engine : Engine) (env : Env) (w : World) (now : Time) (msg : Message)
    (g : View → View) : Prop :=
  if engine.policy.shouldRetry msg.attempts then
    g = requeuedBy msg.id msg.queue Cause.leaseExpired.text now
  else ∃ id, ¬ Used env w id ∧
    g = buriedSince ((msg.header headerConsumer).getD "") ⟨msg, msg.attempts, msg.queue⟩
      .leaseExpired id now

theorem ReclaimedAt.mono {w w' : World} {now : Time} {msg : Message} {g : View → View}
    (h : ReclaimedAt engine env w' now msg g) (hi : w.ids ≤ w'.ids) :
    ReclaimedAt engine env w now msg g := by
  unfold ReclaimedAt at h ⊢
  split_ifs at h ⊢
  · exact h
  · exact h.imp (fun id hid => ⟨fun hused => hid.1 (hused.mono hi), hid.2⟩)

theorem ReclaimedAt.reclaimedBy {w : World} {now : Time} {msg : Message} {g : View → View}
    (h : ReclaimedAt engine env w now msg g) (v : View) :
    ∃ g', ReclaimedBy engine now msg g' ∧ g' v = g v := by
  unfold ReclaimedAt at h
  unfold ReclaimedBy
  split_ifs at h ⊢
  · exact ⟨g, h, rfl⟩
  · obtain ⟨id, -, rfl⟩ := h
    exact ⟨_, ⟨failedSince v.history now, id, rfl⟩, rfl⟩

theorem OnEach.mono {R S : Message → (View → View) → Prop} {msgs : List Message}
    {f : String → View → View} (h : OnEach R msgs f) (himp : ∀ msg g, R msg g → S msg g) :
    OnEach S msgs f :=
  ⟨h.outside, fun msg hm => himp msg _ (h.inside msg hm)⟩

theorem reclaimLoop_runs (hinj : Function.Injective env.newID) (now : Time) {msgs : List Message}
    (hn : (msgs.map Message.id).Nodup) (requeued : List String) {w : World} (h : Healthy env w) :
    Runs env (reclaimLoop engine now msgs requeued) w (fun _ w' => ∃ f,
      OnEach (ReclaimedAt engine env w now) msgs f ∧ Becomes env w w' f) := by
  induction msgs generalizing requeued w with
  | nil => exact Runs.pure ⟨still, OnEach.nil _, Becomes.refl h⟩
  | cons msg msgs ih =>
    have hrest : (msgs.map Message.id).Nodup := (List.nodup_cons.mp hn).2
    have hstep : ∀ g w₁ requeued', ReclaimedAt engine env w now msg g →
        Becomes env w w₁ (onlyAt msg.id g) →
        Runs env (reclaimLoop engine now msgs requeued') w₁ (fun _ w' => ∃ f,
          OnEach (ReclaimedAt engine env w now) (msg :: msgs) f ∧ Becomes env w w' f) := by
      intro g w₁ requeued' hg h₁
      apply (ih hrest requeued' h₁.healthy).mono
      rintro _ w₂ ⟨f, hf, h₂⟩
      have hf' := hf.mono (fun _ _ hother => hother.mono h₁.ids)
      exact ⟨_, OnEach.cons hn hg hf', h₁.trans h₂⟩
    unfold reclaimLoop
    by_cases hr : engine.policy.shouldRetry msg.attempts = true
    · rw [if_pos hr]
      apply (requeueExpired_runs h msg now).bind
      intro released w₁ h₁
      have hg : ReclaimedAt engine env w now msg
          (requeuedBy msg.id msg.queue Cause.leaseExpired.text now) := by
        rw [ReclaimedAt, if_pos hr]
      split_ifs
      · exact hstep _ w₁ _ hg h₁
      · exact hstep _ w₁ _ hg h₁
    · rw [if_neg hr]
      apply (deadLetter_runs hinj h _ _ _ _ now).bind
      rintro _ w₁ ⟨id, hnew, h₁⟩
      refine hstep _ w₁ _ ?_ h₁
      rw [ReclaimedAt, if_neg hr]
      exact ⟨id, hnew, rfl⟩

/-- The messages a reclaim pass works on. -/
def overdue (w : World) (now : Time) : List Message :=
  Memory.limited reclaimBatchSize (Memory.expired w.store.messages now)

/-- The message under an id, if its lease has expired. -/
def expiredAt (messages : Memory.Messages) (now : Time) (id : String) : Option Message :=
  (messages.lookup id).bind (fun e => if Memory.leaseExpired e now then some e.msg else none)

theorem expired_eq_filterMap (messages : Memory.Messages) (now : Time) :
    Memory.expired messages now = (sortedKeys messages).filterMap (expiredAt messages now) := by
  unfold Memory.expired
  congr 1
  funext id
  unfold expiredAt
  cases messages.lookup id with
  | none => rfl
  | some e => rfl

theorem id_of_expiredAt {w : World} (hk : w.store.Keyed) {now : Time} {id : String} {msg : Message}
    (h : expiredAt w.store.messages now id = some msg) : msg.id = id := by
  obtain ⟨e, hl, he⟩ := Option.bind_eq_some_iff.mp h
  obtain ⟨-, hmsg⟩ := Option.ite_none_right_eq_some.mp he
  exact Option.some.inj hmsg ▸ hk id e hl

theorem expired_nodup {w : World} (hk : w.store.Keyed) (now : Time) :
    ((Memory.expired w.store.messages now).map Message.id).Nodup := by
  unfold List.Nodup
  rw [List.pairwise_map, expired_eq_filterMap, List.pairwise_filterMap]
  apply (sortedKeys_nodup w.store.messages).imp
  intro a b hne msg hm msg' hm' heq
  exact hne ((id_of_expiredAt hk hm).symm.trans (heq.trans (id_of_expiredAt hk hm')))

theorem overdue_nodup {w : World} (hk : w.store.Keyed) (now : Time) :
    ((overdue w now).map Message.id).Nodup :=
  (expired_nodup hk now).sublist ((Memory.limited_sublist reclaimBatchSize _).map _)

/-- What a reclaim pass works on is stored and in processing. -/
theorem overdue_stored {w : World} (hk : w.store.Keyed) {now : Time} {msg : Message}
    (hm : msg ∈ overdue w now) :
    ∃ e, (w.view msg.id).record = some e ∧ e.msg = msg ∧ msg.state = .processing := by
  obtain ⟨id, e, hl, hexp, rfl⟩ :=
    Memory.mem_expired.mp ((Memory.limited_sublist reclaimBatchSize _).subset hm)
  obtain rfl : e.msg.id = id := hk id e hl
  exact ⟨e, hl, rfl, (Memory.leaseExpired_iff.mp hexp).1⟩

theorem reclaim_runs (engine : Engine) (hinj : Function.Injective env.newID) {w : World}
    (h : Healthy env w) :
    Runs env (reclaim engine) w (fun _ w' => ∃ f,
      OnEach (ReclaimedAt engine env w (env.clock w.ticks)) (overdue w (env.clock w.ticks)) f ∧
        Becomes env w w' f) := by
  have hclock : Runs env clock w (fun now w' => Becomes env w w' still ∧
      now = env.clock w.ticks ∧ overdue w' now = overdue w now) :=
    ⟨clock_runs h, rfl, rfl⟩
  apply hclock.bind
  rintro now w₁ ⟨h₁, rfl, hsame⟩
  have hlist : Runs env (store (.expiredLeases (env.clock w.ticks) reclaimBatchSize)) w₁
      (fun reply w' => reply = .ok (overdue w (env.clock w.ticks)) ∧ Becomes env w₁ w' still) :=
    ⟨congrArg Except.ok hsame, Becomes.refl h₁.healthy⟩
  apply hlist.bind
  rintro _ w₂ ⟨rfl, h₂⟩
  apply (reclaimLoop_runs hinj _ (overdue_nodup h.keyed _) [] h₂.healthy).bind
  rintro requeued w₃ ⟨f, hf, h₃⟩
  apply (notify_runs h₃.healthy requeued).mono
  intro _ w₄ h₄
  have hf' := hf.mono (fun _ _ hother => hother.mono (h₁.ids.trans h₂.ids))
  exact ⟨f, hf', ((h₁.trans h₂).trans h₃).trans h₄⟩

/-! ## Claiming -/

/-- One event for each message is one event in the history of each. -/
theorem recordEach_runs {event : Message → HistoryEvent}
    (hid : ∀ msg, (event msg).messageID = msg.id) {msgs : List Message}
    (hn : (msgs.map Message.id).Nodup) {w : World} (h : Healthy env w) :
    Runs env (recordEach (msgs.map event)) w (fun _ w' => ∃ f,
      OnEach (fun msg g => g = View.recorded [event msg]) msgs f ∧ Becomes env w w' f) := by
  induction msgs generalizing w with
  | nil => exact Runs.pure ⟨still, OnEach.nil _, Becomes.refl h⟩
  | cons msg msgs ih =>
    apply (recordHistory_runs h (event msg)).bind
    intro _ w₁ h₁
    rw [hid msg] at h₁
    apply (ih (List.nodup_cons.mp hn).2 h₁.healthy).mono
    rintro _ w₂ ⟨f, hf, h₂⟩
    exact ⟨_, OnEach.cons hn rfl hf, h₁.trans h₂⟩

theorem OnEach.singleton {msg : Message} {h : Message → View → View} {f : String → View → View}
    (hf : OnEach (fun msg g => g = h msg) [msg] f) (x : String) :
    f x = onlyAt msg.id (h msg) x := by
  funext v
  by_cases hx : x = msg.id
  · rw [hx, onlyAt_self, hf.inside msg (List.mem_singleton_self msg)]
  · rw [onlyAt_of_ne hx, hf.outside x (by simpa using hx)]
    rfl

theorem OnEach.comp {R S T : Message → (View → View) → Prop} {msgs : List Message}
    {f g : String → View → View} (hf : OnEach R msgs f) (hg : OnEach S msgs g)
    (hT : ∀ msg ∈ msgs, ∀ a b, R msg a → S msg b → T msg (fun v => b (a v))) :
    OnEach T msgs (fun x v => g x (f x v)) where
  outside := by
    intro x hx
    rw [hf.outside x hx, hg.outside x hx]
    rfl
  inside := fun msg hm => hT msg hm _ _ (hf.inside msg hm) (hg.inside msg hm)

/-- The messages were claimable when the claim handed them out. -/
def ClaimedFrom (w : World) (req : ClaimRequest) (claimed : List Message) : Prop :=
  (claimed.map Message.id).Nodup ∧ ∀ msg ∈ claimed, ∃ e, (w.view msg.id).record = some e ∧
    Memory.claimable e.msg req.now = true ∧ msg = (Memory.takenOver req e).msg

theorem claim_runs {w : World} (h : Healthy env w) (req : ClaimRequest) :
    Runs env (store (.claim req)) w (fun reply w' =>
      match reply with
      | .error _ => Becomes env w w' still
      | .ok claimed => ClaimedFrom w req claimed ∧ ∃ f,
        OnEach (fun _ g => g = View.takenOver req) claimed f ∧ Becomes env w w' f) := by
  have hh : Healthy env (w.callStore (.claim req)).2 := h.callStore (by simp) (by simp) (by simp)
  change match (Memory.exec (.claim req) w.store).1 with
    | .error _ => Becomes env w (w.callStore (.claim req)).2 still
    | .ok claimed => ClaimedFrom w req claimed ∧ ∃ f,
      OnEach (fun _ g => g = View.takenOver req) claimed f ∧
        Becomes env w (w.callStore (.claim req)).2 f
  rcases viewOf_claim h.keyed req with ⟨e, hr, hv⟩ | ⟨claimed, hr, hn, hc, hv⟩
  · rw [hr]
    exact Becomes.callStore hh hv
  · rw [hr]
    refine ⟨⟨hn, hc⟩, fun x v => if x ∈ claimed.map Message.id then v.takenOver req else v,
      ⟨?_, ?_⟩, Becomes.callStore hh hv⟩
    · intro x hx
      funext v
      exact if_neg hx
    · intro msg hm
      funext v
      exact if_pos (List.mem_map_of_mem hm)

/-- What a claim and the event about it make of the view of a message. -/
def DeliveredBy (req : ClaimRequest) (now : Time) (msg : Message) (g : View → View) : Prop :=
  g = fun v => (v.takenOver req).recorded
    [⟨msg.id, msg.queue, .queued, .processing, req.consumer, "", now⟩]

theorem queue_runs {w : World} (h : Healthy env w) (name : String) :
    Runs env (Prog.perform (Effect.queue name)) w (fun _ w' => Becomes env w w' still) :=
  Becomes.refl h

theorem ClaimedFrom.of_still {w w' : World} {req : ClaimRequest} {claimed : List Message}
    (h : ClaimedFrom w' req claimed) (hb : Becomes env w w' still) : ClaimedFrom w req claimed := by
  refine ⟨h.1, fun msg hm => ?_⟩
  have hv : w'.view msg.id = w.view msg.id := hb.view msg.id
  rw [← hv]
  exact h.2 msg hm

theorem pull_runs {w : World} (h : Healthy env w) (req : PullRequest) :
    Runs env (pull req) w (fun reply w' =>
      match reply with
      | .error _ => Becomes env w w' still
      | .ok claimed => ∃ req, ClaimedFrom w req claimed ∧ ∃ f,
        OnEach (DeliveredBy req req.now) claimed f ∧ Becomes env w w' f) := by
  apply (queue_runs h req.queue).bind
  intro reply w₁ h₁
  cases reply with
  | error e => exact Runs.pure h₁
  | ok queue =>
    apply (clock_runs h₁.healthy).bind
    intro now w₂ h₂
    have h₁₂ : Becomes env w w₂ still := h₁.trans h₂
    apply (claim_runs h₂.healthy _).bind
    intro reply w₃ hreply
    cases reply with
    | error e => exact Runs.pure (h₁₂.trans hreply)
    | ok claimed =>
      obtain ⟨hfrom, f, hf, h₃⟩ := hreply
      apply (recordEach_runs (fun _ => rfl) hfrom.1 h₃.healthy).bind
      rintro _ w₄ ⟨g, hg, h₄⟩
      refine Runs.pure ⟨_, hfrom.of_still h₁₂, _, hf.comp hg ?_, (h₁₂.trans h₃).trans h₄⟩
      rintro msg - a b rfl rfl
      rfl

/-! ## Dispatching -/

/-- The event a consumer's claim is recorded with. -/
def handOffEvent (consumer : ConsumerSpec) (msg : Message) (now : Time) : HistoryEvent :=
  ⟨msg.id, msg.queue, .queued, .processing, consumer.name, "", now⟩

/-- What a hand-off makes of the view of a message: a refused task is released silently. -/
def HandedOffBy (env : Env) (consumer : ConsumerSpec) (msg : Message) (g : View → View) : Prop :=
  ∃ now, g = View.recorded [handOffEvent consumer msg now] ∨
    (∃ j, env.submit j ≠ none) ∧ ∃ later, g = fun v =>
      (v.recorded [handOffEvent consumer msg now]).settled
        (fun msg => Memory.released msg later) []

theorem submit_runs {w : World} (h : Healthy env w) (consumer : String) {delivery : Delivery}
    (hu : Used env w delivery.message.id) :
    Runs env (Prog.perform (Effect.submit consumer delivery)) w (fun reply w' =>
      Becomes env w w' still ∧ (reply = .ok () ∨ ∃ j, env.submit j ≠ none)) := by
  have htasks : ∀ name, ∀ d ∈ (perform env (.submit consumer delivery) w).2.tasks name,
      d ∈ w.tasks name ∨ Used env w d.message.id := by
    intro name d hd
    rcases submit_tasks hd with hd | rfl
    · exact Or.inl hd
    · exact Or.inr hu
  revert htasks
  simp only [Runs, Prog.run_perform, perform]
  cases hs : env.submit w.submits with
  | some e =>
    exact fun htasks => ⟨Becomes.of_store_eq h rfl rfl le_rfl htasks,
      Or.inr ⟨w.submits, by simp [hs]⟩⟩
  | none => exact fun htasks => ⟨Becomes.of_store_eq h rfl rfl le_rfl htasks, Or.inl rfl⟩

theorem handOff_runs {w : World} (h : Healthy env w) (consumer : ConsumerSpec) {msg : Message}
    (hu : Used env w msg.id) :
    Runs env (handOff consumer msg) w (fun _ w' => ∃ g, HandedOffBy env consumer msg g ∧
      Becomes env w w' (onlyAt msg.id g)) := by
  apply (clock_runs h).bind
  intro now w₁ h₁
  apply (recordHistory_runs h₁.healthy _).bind
  intro _ w₂ h₂
  have h₁₂ : Becomes env w w₂ (onlyAt msg.id (View.recorded [handOffEvent consumer msg now])) :=
    h₁.trans h₂
  apply (submit_runs h₂.healthy consumer.name (hu.mono h₁₂.ids)).bind
  rintro reply w₃ ⟨h₃, hreply⟩
  have h₁₃ : Becomes env w w₃ (onlyAt msg.id (View.recorded [handOffEvent consumer msg now])) :=
    h₁₂.trans h₃
  cases reply with
  | ok u => exact Runs.pure ⟨_, ⟨now, Or.inl rfl⟩, h₁₃⟩
  | error e =>
    have hrefused : ∃ j, env.submit j ≠ none := hreply.resolve_left (by simp)
    apply (clock_runs h₃.healthy).bind
    intro later w₄ h₄
    apply (settle_runs h₄.healthy rfl _ _).bind
    rintro _ w₅ ⟨h₅, -⟩
    exact Runs.pure ⟨_, ⟨now, Or.inr ⟨hrefused, later, rfl⟩⟩, (h₁₃.trans h₄).trans_onlyAt h₅⟩

theorem handOffAll_runs (consumer : ConsumerSpec) {msgs : List Message}
    (hn : (msgs.map Message.id).Nodup) {w : World} (h : Healthy env w)
    (hu : ∀ msg ∈ msgs, Used env w msg.id) :
    Runs env (handOffAll consumer msgs) w (fun _ w' => ∃ f,
      OnEach (HandedOffBy env consumer) msgs f ∧ Becomes env w w' f) := by
  induction msgs generalizing w with
  | nil => exact Runs.pure ⟨still, OnEach.nil _, Becomes.refl h⟩
  | cons msg msgs ih =>
    apply (handOff_runs h consumer (hu msg List.mem_cons_self)).bind
    rintro _ w₁ ⟨g, hg, h₁⟩
    apply (ih (List.nodup_cons.mp hn).2 h₁.healthy
      (fun other ho => (hu other (List.mem_cons_of_mem msg ho)).mono h₁.ids)).mono
    rintro _ w₂ ⟨f, hf, h₂⟩
    exact ⟨_, OnEach.cons hn hg hf, h₁.trans h₂⟩

/-- What a round of the dispatch loop makes of the view of a message it has claimed. -/
def DispatchedBy (env : Env) (consumer : ConsumerSpec) (req : ClaimRequest) (msg : Message)
    (g : View → View) : Prop :=
  ∃ a, HandedOffBy env consumer msg a ∧ g = fun v => a (v.takenOver req)

theorem claimBatch_runs {w : World} (h : Healthy env w) (consumer : ConsumerSpec)
    (hu : ∀ id e, (w.view id).record = some e → Used env w id) :
    Runs env (claimBatch consumer) w (fun _ w' => ∃ req claimed, ClaimedFrom w req claimed ∧ ∃ f,
      OnEach (DispatchedBy env consumer req) claimed f ∧ Becomes env w w' f) := by
  have hnone : ∀ w', Becomes env w w' still → ∃ req claimed, ClaimedFrom w req claimed ∧ ∃ f,
      OnEach (DispatchedBy env consumer req) claimed f ∧ Becomes env w w' f :=
    fun w' h' => ⟨⟨"", "", 0, 0, 0⟩, [], ⟨List.nodup_nil, by simp⟩, still, OnEach.nil _, h'⟩
  apply (queue_runs h consumer.queue).bind
  intro reply w₁ h₁
  cases reply with
  | error e => exact Runs.pure (hnone w₁ h₁)
  | ok queue =>
    apply (clock_runs h₁.healthy).bind
    intro now w₂ h₂
    have h₁₂ : Becomes env w w₂ still := h₁.trans h₂
    apply (claim_runs h₂.healthy _).bind
    intro reply w₃ hreply
    cases reply with
    | error e => exact Runs.pure (hnone w₃ (h₁₂.trans hreply))
    | ok claimed =>
      obtain ⟨hfrom, f, hf, h₃⟩ := hreply
      have hfrom' := hfrom.of_still h₁₂
      have h₁₃ := h₁₂.trans h₃
      have hused : ∀ msg ∈ claimed, Used env w₃ msg.id := by
        intro msg hm
        obtain ⟨e, hr, -⟩ := hfrom'.2 msg hm
        exact (hu msg.id e hr).mono h₁₃.ids
      apply (handOffAll_runs consumer hfrom.1 h₃.healthy hused).bind
      rintro _ w₄ ⟨g, hg, h₄⟩
      refine Runs.pure ⟨_, claimed, hfrom', _, hf.comp hg ?_, h₁₃.trans h₄⟩
      rintro msg - a b rfl hb
      exact ⟨b, hb, rfl⟩

/-! ## Publishing -/

/-- Messages made since a world, for which nothing is stored yet. -/
structure Fresh (env : Env) (w w' : World) (msgs : List Message) : Prop where
  nodup : (msgs.map Message.id).Nodup
  queued : ∀ msg ∈ msgs, msg.state = .queued ∧ msg.attempts = 0
  unused : ∀ msg ∈ msgs, ¬ Used env w msg.id
  used : ∀ msg ∈ msgs, Used env w' msg.id

theorem Fresh.nil (w w' : World) : Fresh env w w' [] :=
  ⟨List.nodup_nil, by simp, by simp, by simp⟩

theorem Fresh.later {w w' w'' : World} {msgs : List Message} (h : Fresh env w w' msgs)
    (hi : w'.ids ≤ w''.ids) : Fresh env w w'' msgs :=
  ⟨h.nodup, h.queued, h.unused, fun msg hm => (h.used msg hm).mono hi⟩

theorem Fresh.snoc {w w' w'' : World} {msgs : List Message} {msg : Message}
    (h : Fresh env w w' msgs) (hw : w.ids ≤ w'.ids) (hi : w'.ids ≤ w''.ids)
    (hnew : ¬ Used env w' msg.id) (hu : Used env w'' msg.id) (hs : msg.state = .queued)
    (ha : msg.attempts = 0) : Fresh env w w'' (msgs ++ [msg]) := by
  have hnot : msg.id ∉ msgs.map Message.id := by
    intro hm
    obtain ⟨other, ho, heq⟩ := List.mem_map.mp hm
    exact hnew (heq ▸ h.used other ho)
  have h' := h.later hi
  refine ⟨?_, ?_, ?_, ?_⟩
  · rw [List.map_append, List.map_singleton]
    exact List.Nodup.append h.nodup (List.nodup_singleton _) (List.disjoint_singleton.mpr hnot)
  · simpa [or_imp, forall_and] using ⟨⟨fun m hm => (h.queued m hm).1, hs⟩,
      fun m hm => (h.queued m hm).2, ha⟩
  · simpa [or_imp, forall_and] using ⟨h.unused, fun hused => hnew (hused.mono hw)⟩
  · simpa [or_imp, forall_and] using ⟨h'.used, hu⟩

/-- Nothing is stored under an id that was not used. -/
theorem Fresh.unstored {w w' : World} {msgs : List Message} (h : Fresh env w w' msgs)
    (hb : Becomes env w w' still) (hu : ∀ id e, (w.view id).record = some e → Used env w id) :
    ∀ msg ∈ msgs, (w'.view msg.id).record = none := by
  intro msg hm
  rw [hb.view]
  cases hr : (w.view msg.id).record with
  | none => exact hr
  | some e => exact absurd (hu msg.id e hr) (h.unused msg hm)

theorem rejected_id (msg : Message) (now : Time) : (rejected msg now).id = msg.id := by
  unfold rejected
  rw [Message.transition_eq _ rfl]
  split_ifs <;> rfl

/-- A message that its schema refuses is parked. -/
theorem validate_runs (hinj : Function.Injective env.newID) {w : World} (h : Healthy env w)
    (msg : Message) (now : Time) :
    Runs env (validate engine msg now) w (fun reply w' =>
      match reply with
      | .ok _ => Becomes env w w' still
      | .error _ => ∃ letter, letter.errorKind = errorKindValidation ∧
        Becomes env w w' (onlyAt msg.id (View.filed letter))) := by
  unfold validate
  cases engine.schemas with
  | none => exact Runs.pure (Becomes.refl h)
  | some schemas =>
    dsimp only
    split_ifs
    · exact Runs.pure (Becomes.refl h)
    · cases schemas msg.schema msg.payload.bytes with
      | none => exact Runs.pure (Becomes.refl h)
      | some cause =>
        have hpark : Runs env (parkRejected (rejected msg now) cause now) w (fun _ w' =>
            ∃ letter, letter.errorKind = errorKindValidation ∧
              Becomes env w w' (onlyAt msg.id (View.filed letter))) := by
          apply (newID_runs hinj h).bind
          rintro id w₁ ⟨h₁, hu, -, hn⟩
          apply (saveDeadLetter_runs h₁.healthy _ rfl hu hn).bind
          rintro _ w₂ ⟨-, h₂⟩
          dsimp only at h₂
          rw [rejected_id] at h₂
          exact Runs.pure ⟨_, rfl, h₁.trans h₂⟩
        exact hpark.bind (fun _ _ h₁ => Runs.pure h₁)

theorem publishLoop_runs (hinj : Function.Injective env.newID) (pub : Publication) (now : Time)
    (queues : List Queue) {w₀ w : World} {msgs : List Message} (hm : Fresh env w₀ w msgs)
    (h : Becomes env w₀ w still) :
    Runs env (publishLoop engine pub now queues msgs) w (fun reply w' =>
      match reply with
      | .ok messages => Fresh env w₀ w' messages ∧ Becomes env w₀ w' still
      | .error _ => ∃ id letter, ¬ Used env w₀ id ∧ Used env w' id ∧
        letter.errorKind = errorKindValidation ∧
        Becomes env w₀ w' (onlyAt id (View.filed letter))) := by
  induction queues generalizing msgs w with
  | nil => exact Runs.pure ⟨hm, h⟩
  | cons queue queues ih =>
    apply (newID_runs hinj h.healthy).bind
    rintro id w₁ ⟨h₁, hu, hnew, -⟩
    obtain ⟨hid, hcreated, hattempts⟩ := addressed_fields id pub queue now
    apply (validate_runs hinj h₁.healthy (addressed id pub queue now) now).bind
    intro reply w₂ hreply
    cases reply with
    | error e =>
      obtain ⟨letter, hkind, h₂⟩ := hreply
      rw [hid] at h₂
      exact Runs.pure ⟨id, letter, fun hused => hnew (hused.mono h.ids), hu.mono h₂.ids, hkind,
        (h.trans h₁).trans h₂⟩
    | ok u =>
      have h₂ : Becomes env w₁ w₂ still := hreply
      dsimp only
      rw [transition_of_created hcreated]
      apply ih
      · apply hm.snoc h.ids (h₁.ids.trans h₂.ids)
        · exact fun hused => hnew (hid ▸ hused)
        · exact hid.symm ▸ hu.mono h₂.ids
        · rfl
        · exact hattempts
      · exact (h.trans h₁).trans h₂

theorem addressed_createdAt (id : String) (pub : Publication) (queue : Queue) (now : Time) :
    (addressed id pub queue now).createdAt = now := by
  unfold addressed
  dsimp only
  split_ifs <;> rfl

/-- All messages of a publication are created at the same time. -/
theorem publishLoop_created (engine : Engine) (pub : Publication) (now : Time)
    (queues : List Queue) {msgs : List Message} (hm : ∀ msg ∈ msgs, msg.createdAt = now)
    (w : World) :
    Runs env (publishLoop engine pub now queues msgs) w (fun reply _ =>
      ∀ messages, reply = .ok messages → ∀ msg ∈ messages, msg.createdAt = now) := by
  have hany : ∀ {α : Type} (p : Program α) (w : World), Runs env p w (fun _ _ => True) :=
    fun _ _ => trivial
  induction queues generalizing msgs w with
  | nil =>
    apply Runs.pure
    intro messages h
    obtain rfl := Except.ok.inj h
    exact hm
  | cons queue queues ih =>
    apply (hany newID w).bind
    intro id w₁ _
    apply (hany _ w₁).bind
    intro reply w₂ _
    cases reply with
    | error e => exact Runs.pure nofun
    | ok u =>
      dsimp only
      rw [transition_of_created (addressed_fields id pub queue now).2.1]
      apply ih
      intro msg hmsg
      rcases List.mem_append.mp hmsg with hmsg | hmsg
      · exact hm msg hmsg
      · rw [List.mem_singleton.mp hmsg]
        exact addressed_createdAt id pub queue now

def View.stored (msg : Message) (v : View) : View :=
  { v with record := some (Memory.unleased msg.clone) }

theorem append_runs {w : World} (h : Healthy env w) {msgs : List Message}
    (hn : (msgs.map Message.id).Nodup) (hs : ∀ msg ∈ msgs, msg.state = .queued)
    (hnone : ∀ msg ∈ msgs, (w.view msg.id).record = none) :
    Runs env (store (.append msgs)) w (fun reply w' => reply = .ok () ∧ ∃ f,
      OnEach (fun msg g => g = View.stored msg) msgs f ∧ Becomes env w w' f) := by
  have hh : Healthy env (w.callStore (.append msgs)).2 := by
    apply h.callStore (by simp) _ (by simp)
    rintro msgs' heq
    obtain rfl := Call.append.inj heq
    exact hs
  have hexec : Memory.exec (.append msgs) w.store = (.ok (), { w.store with
      messages := Memory.Store.storeAll w.store.messages msgs
      order := Memory.Store.appendOrder w.store.order msgs }) :=
    Memory.append_of_fresh h.opened hnone
  refine ⟨congrArg Prod.fst hexec, fun x v => if x ∈ msgs.map Message.id then
    { v with record := (Memory.Store.storeAll w.store.messages msgs).lookup x } else v,
    ⟨?_, ?_⟩, Becomes.callStore hh ?_⟩
  · intro x hx
    funext v
    exact if_neg hx
  · intro msg hm
    funext v
    rw [if_pos (List.mem_map_of_mem hm), Memory.storeAll_of_nodup hn hm]
    rfl
  · intro x
    rw [hexec]
    by_cases hx : x ∈ msgs.map Message.id
    · rw [if_pos hx]
      rfl
    · rw [if_neg hx]
      simp only [viewOf, Memory.storeAll_of_notMem hx]

/-- What a publication makes of the empty view of a new message. -/
def PublishedBy (detail : String) (now : Time) (msg : Message) (g : View → View) : Prop :=
  g = fun v => (v.stored msg).recorded [⟨msg.id, msg.queue, .created, .queued, "", detail, now⟩]

/-- New messages are appended, or one of them is parked and nothing else happens. -/
theorem publish_runs (hinj : Function.Injective env.newID) {w : World} (h : Healthy env w)
    (hu : ∀ id e, (w.view id).record = some e → Used env w id) (pub : Publication) :
    Runs env (publish engine pub) w (fun _ w' =>
      (∃ messages now f, Fresh env w w' messages ∧
        (∀ msg ∈ messages, msg.createdAt = env.clock w.ticks) ∧
        OnEach (PublishedBy "" now) messages f ∧ Becomes env w w' f) ∨
      ∃ id letter, ¬ Used env w id ∧ Used env w' id ∧ letter.errorKind = errorKindValidation ∧
        Becomes env w w' (onlyAt id (View.filed letter))) := by
  have hroute : Runs env (Prog.perform (Effect.route pub.exchange pub.routingKey)) w
      (fun _ w' => Becomes env w w' still ∧ w'.ticks = w.ticks) := ⟨Becomes.refl h, rfl⟩
  apply hroute.bind
  rintro reply w₁ ⟨h₁, ht⟩
  cases reply with
  | error e => exact Runs.pure (Or.inl ⟨[], 0, still, Fresh.nil w w₁, by simp, OnEach.nil _, h₁⟩)
  | ok queues =>
    apply ((clock_runs h₁.healthy).both (clock_reads w₁)).bind
    rintro now w₂ ⟨h₂, hnow, -⟩
    rw [ht] at hnow
    apply ((publishLoop_runs hinj pub now queues (Fresh.nil w w₂) (h₁.trans h₂)).both
      (publishLoop_created engine pub now queues (by simp) w₂)).bind
    rintro reply w₃ ⟨hreply, hcreated⟩
    cases reply with
    | error e => exact Runs.pure (Or.inr hreply)
    | ok messages =>
      obtain ⟨hfresh, h₃⟩ := hreply
      rw [hnow] at hcreated
      apply (append_runs h₃.healthy hfresh.nodup (fun msg hm => (hfresh.queued msg hm).1)
        (hfresh.unstored h₃ hu)).bind
      rintro _ w₄ ⟨rfl, f, hf, h₄⟩
      apply (recordEach_runs (fun _ => rfl) hfresh.nodup h₄.healthy).bind
      rintro _ w₅ ⟨g, hg, h₅⟩
      apply (notify_runs h₅.healthy _).bind
      intro _ w₆ h₆
      have h₃₆ := ((h₃.trans h₄).trans h₅).trans h₆
      refine Runs.pure (Or.inl ⟨messages, now, _, hfresh.later ?_, hcreated messages rfl,
        hf.comp hg ?_, h₃₆⟩)
      · exact (h₄.ids.trans h₅.ids).trans h₆.ids
      · rintro msg - a b rfl rfl
        rfl

/-! ## Replaying, purging and discarding -/

/-- The replay fields of a dead letter change. -/
def View.replayed (id replayedAs : String) (now : Time) (v : View) : View :=
  { v with
    letters := fun a =>
      if a = id then (v.letters a).map (fun d =>
        { d with replayedAs := replayedAs, replayedAt := now, replayCount := d.replayCount + 1 })
      else v.letters a }

def View.discarded (id : String) (v : View) : View :=
  { v with letters := fun a => if a = id then none else v.letters a }

theorem viewOf_markDeadLetterReplayed (s : Memory.Store) (id replayedAs : String) (now : Time)
    (x : String) : viewOf (Memory.exec (.markDeadLetterReplayed id replayedAs now) s).2 x =
      (viewOf s x).replayed id replayedAs now := by
  simp only [Memory.exec, Memory.Store.markDeadLetterReplayed]
  cases hl : s.deadLetters.lookup id with
  | none =>
    refine View.ext rfl rfl (funext fun a => ?_)
    by_cases ha : a = id
    · simp [viewOf, View.replayed, ha, hl]
    · simp [viewOf, View.replayed, ha]
  | some d =>
    refine View.ext rfl rfl (funext fun a => ?_)
    by_cases ha : a = id
    · by_cases hx : d.messageID = x
      · simp [viewOf, View.replayed, ha, hl, hx, Option.filter]
      · simp [viewOf, View.replayed, ha, hl, hx, Option.filter]
    · simp [viewOf, View.replayed, lookup_insert_eq, ha]

theorem viewOf_deleteDeadLetter (s : Memory.Store) (id x : String) :
    viewOf (Memory.exec (.deleteDeadLetter id) s).2 x = (viewOf s x).discarded id := by
  simp only [Memory.exec, Memory.Store.deleteDeadLetter]
  cases hl : s.deadLetters.lookup id with
  | none =>
    refine View.ext rfl rfl (funext fun a => ?_)
    by_cases ha : a = id
    · simp [viewOf, View.discarded, ha, hl]
    · simp [viewOf, View.discarded, ha]
  | some d =>
    refine View.ext rfl rfl (funext fun a => ?_)
    by_cases ha : a = id
    · simp [viewOf, View.discarded, ha]
    · simp [viewOf, View.discarded, lookup_erase_eq, ha]

/-- The message a replay stores. -/
def replayMessage (id : String) (record : DeadLetter) (queue : Queue) (now : Time) : Message :=
  { replayOf id record queue now with state := .queued, updatedAt := now }

/-- What a replay of this record has done when it returns this result. -/
structure ReplayedBy (env : Env) (w w' : World) (id : String) (result : ReplayResult)
    (record : DeadLetter) (queue : Queue) (now : Time) : Prop where
  read : w.store.deadLetters.lookup id = some record
  declared : w.registry.queue record.queue = .ok queue
  returned : result = ⟨record.id, record.messageID, result.messageID, queue.name⟩
  fresh : Fresh env w w' [replayMessage result.messageID record queue now]
  becomes : ∃ g, PublishedBy ("replayed from dead letter " ++ record.id) now
      (replayMessage result.messageID record queue now) g ∧
    Becomes env w w' (fun x v =>
      (onlyAt result.messageID g x v).replayed record.id result.messageID now)

/-- A new message is stored for the letter, or nothing happens. -/
def ReplayOutcome (env : Env) (w : World) (id : String) :
    Except Error ReplayResult → World → Prop
  | .error _, w' => Becomes env w w' still
  | .ok result, w' => ∃ record queue now, ReplayedBy env w w' id result record queue now

theorem replayDeadLetter_reads (hinj : Function.Injective env.newID) {w : World}
    (h : Healthy env w) (hu : ∀ id e, (w.view id).record = some e → Used env w id) (id : String) :
    Runs env (replayDeadLetter id) w (fun reply w' =>
      match reply with
      | .error _ => Becomes env w w' still
      | .ok result => ∃ record queue,
        ReplayedBy env w w' id result record queue (env.clock w.ticks)) := by
  have hread : Runs env (store (.deadLetter id)) w (fun reply w' => Becomes env w w' still ∧
      w'.ticks = w.ticks ∧
      ∀ record, reply = .ok record → w.store.deadLetters.lookup id = some record) := by
    simp only [Runs, store, Prog.run_perform, perform, World.callStore, Memory.exec,
      Memory.Store.deadLetter]
    cases w.store.deadLetters.lookup id with
    | none => exact ⟨Becomes.refl h, by simp⟩
    | some record => exact ⟨Becomes.refl h, by simp⟩
  apply hread.bind
  rintro reply w₁ ⟨h₁, ht₁, hrecord⟩
  cases reply with
  | error e => exact Runs.pure h₁
  | ok record =>
    have hqueue : Runs env (Prog.perform (Effect.queue record.queue)) w₁ (fun reply w' =>
        reply = w₁.registry.queue record.queue ∧ w'.ticks = w₁.ticks ∧
          Becomes env w₁ w' still) := ⟨rfl, rfl, Becomes.refl h₁.healthy⟩
    apply hqueue.bind
    rintro reply w₂ ⟨hreply, ht₂, h₂⟩
    have h₁₂ : Becomes env w w₂ still := h₁.trans h₂
    cases reply with
    | error e => exact Runs.pure h₁₂
    | ok queue =>
      apply ((clock_runs h₂.healthy).both (clock_reads w₂)).bind
      rintro now w₃ ⟨h₃, hnow, -⟩
      rw [ht₂, ht₁] at hnow
      subst hnow
      apply (newID_runs hinj h₃.healthy).bind
      rintro fresh w₄ ⟨h₄, hused, hnew, -⟩
      have h₁₃ : Becomes env w w₃ still := h₁₂.trans h₃
      have h₁₄ : Becomes env w w₄ still := h₁₃.trans h₄
      rw [transition_of_created rfl]
      have hfresh : Fresh env w w₄ [replayMessage fresh record queue (env.clock w.ticks)] :=
        (Fresh.nil w w₃).snoc h₁₃.ids h₄.ids hnew hused rfl rfl
      apply (append_runs h₄.healthy hfresh.nodup (fun msg hm => (hfresh.queued msg hm).1)
        (hfresh.unstored h₁₄ hu)).bind
      rintro _ w₅ ⟨rfl, f, hf, h₅⟩
      have hstored := h₅.congr (fun x => congrFun (hf.singleton x) _)
      apply (recordHistory_runs h₅.healthy _).bind
      intro _ w₆ h₆
      have hmark : Runs env (store (.markDeadLetterReplayed record.id fresh (env.clock w.ticks))) w₆
          (fun _ w' => Becomes env w₆ w'
            (fun _ => View.replayed record.id fresh (env.clock w.ticks))) :=
        Becomes.callStore (h₆.healthy.callStore (by simp) (by simp) (by simp))
          (viewOf_markDeadLetterReplayed w₆.store record.id fresh _)
      apply hmark.bind
      intro _ w₇ h₇
      apply (notify_runs h₇.healthy _).bind
      intro _ w₈ h₈
      have hall := ((h₁₄.trans (hstored.trans_onlyAt h₆)).trans h₇).trans h₈
      have hids := ((h₅.ids.trans h₆.ids).trans h₇.ids).trans h₈.ids
      exact Runs.pure ⟨record, queue, hrecord record rfl, h₁.registry ▸ hreply.symm, rfl,
        hfresh.later hids, _, rfl, hall⟩

theorem replayDeadLetter_outcome (hinj : Function.Injective env.newID) {w : World}
    (h : Healthy env w) (hu : ∀ id e, (w.view id).record = some e → Used env w id) (id : String) :
    Runs env (replayDeadLetter id) w (ReplayOutcome env w id) := by
  apply (replayDeadLetter_reads hinj h hu id).mono
  intro reply w' hreply
  cases reply with
  | error e => exact hreply
  | ok result =>
    obtain ⟨record, queue, hr⟩ := hreply
    exact ⟨record, queue, _, hr⟩

theorem replayDeadLetter_runs (hinj : Function.Injective env.newID) {w : World}
    (h : Healthy env w) (hu : ∀ id e, (w.view id).record = some e → Used env w id) (id : String) :
    Runs env (replayDeadLetter id) w (fun _ w' => Becomes env w w' still ∨
      ∃ msg detail now letterID g, Fresh env w w' [msg] ∧ msg.createdAt = env.clock w.ticks ∧
        PublishedBy detail now msg g ∧
        Becomes env w w' (fun x v => (onlyAt msg.id g x v).replayed letterID msg.id now)) := by
  apply (replayDeadLetter_reads hinj h hu id).mono
  intro reply w' hreply
  cases reply with
  | error e => exact Or.inl hreply
  | ok result =>
    obtain ⟨record, queue, hr⟩ := hreply
    obtain ⟨g, hg, hb⟩ := hr.becomes
    exact Or.inr ⟨_, _, _, record.id, g, hr.fresh, rfl, hg, hb⟩

theorem purge_runs {w : World} (h : Healthy env w) (queue : String) :
    Runs env (store (.purge queue)) w (fun _ w' => ∃ f, Becomes env w w' f ∧
      ∀ x, f x = id ∨ (∃ e, (w.view x).record = some e ∧ e.msg.state.terminal = false) ∧
        f x = fun v => { v with record := none }) := by
  have hh : Healthy env (w.callStore (.purge queue)).2 := h.callStore (by simp) (by simp) (by simp)
  change ∃ f, Becomes env w (w.callStore (.purge queue)).2 f ∧ _
  rcases w.store.purge_cases queue with hp | ⟨n, order, settled, messages, hm, hp⟩
  · refine ⟨still, Becomes.callStore hh (fun x => ?_), fun x => Or.inl rfl⟩
    simp only [Memory.exec, hp]
    rfl
  · refine ⟨fun x v => if x ∈ w.store.order queue ∧
      Memory.isSettled w.store.messages x = false then { v with record := none } else v,
      Becomes.callStore hh (fun x => ?_), fun x => ?_⟩
    · simp only [Memory.exec, hp, viewOf, hm]
      split_ifs <;> rfl
    · by_cases hx : x ∈ w.store.order queue ∧ Memory.isSettled w.store.messages x = false
      · exact Or.inr ⟨Memory.isSettled_eq_false.mp hx.2, by simp [hx]⟩
      · exact Or.inl (by funext v; simp [hx])

theorem discard_runs {w : World} (h : Healthy env w) (id : String) :
    Runs env (store (.deleteDeadLetter id)) w (fun _ w' =>
      Becomes env w w' (fun _ => View.discarded id)) :=
  Becomes.callStore (h.callStore (by simp) (by simp) (by simp))
    (viewOf_deleteDeadLetter w.store id)

/-! ## Handlers -/

theorem receive_runs {w : World} (h : Healthy env w) (consumer : String) :
    Runs env (Prog.perform (Effect.receive consumer)) w (fun reply w' =>
      Becomes env w w' still ∧ w'.ticks = w.ticks ∧ reply = (w.tasks consumer).head?) := by
  have htasks : ∀ name, ∀ d ∈ (perform env (.receive consumer) w).2.tasks name,
      d ∈ w.tasks name ∨ Used env w d.message.id := fun name d hd => Or.inl (receive_tasks hd)
  revert htasks
  simp only [Runs, Prog.run_perform, perform]
  cases hd : w.tasks consumer with
  | nil => exact fun htasks => ⟨Becomes.of_store_eq h rfl rfl le_rfl htasks, rfl, rfl⟩
  | cons d rest => exact fun htasks => ⟨Becomes.of_store_eq h rfl rfl le_rfl htasks, rfl, rfl⟩

theorem work_runs (engine : Engine) (hinj : Function.Injective env.newID) {w : World}
    (h : Healthy env w) (consumer : ConsumerSpec) (outcome : Option Cause) :
    Runs env (work engine consumer outcome) w (fun _ w' =>
      match (w.tasks consumer.name).head?, outcome with
      | none, _ => Becomes env w w' still
      | some d, none => ∃ now, Becomes env w w' (onlyAt d.message.id
          (View.settled (fun msg => Memory.acknowledged msg now)
            [⟨d.message.id, d.queue, .processing, .acknowledged, consumer.name, "", now⟩]))
      | some d, some cause => ∃ g,
          FailedAt engine env w (env.clock (w.ticks + 1)) consumer.name d cause g ∧
            Becomes env w w' (onlyAt d.message.id g)) := by
  apply (receive_runs h consumer.name).bind
  rintro reply w₁ ⟨h₁, ht₁, rfl⟩
  cases (w.tasks consumer.name).head? with
  | none => exact Runs.pure h₁
  | some d =>
    apply ((clock_runs h₁.healthy).both (clock_reads w₁)).bind
    rintro _ w₂ ⟨h₂, -, ht₂⟩
    cases outcome with
    | none =>
      apply (acknowledge_runs h₂.healthy consumer d).mono
      rintro _ w₃ ⟨now, h₃⟩
      exact ⟨now, (h₁.trans h₂).trans h₃⟩
    | some cause =>
      apply (fail_runs hinj h₂.healthy _ _ d cause).mono
      rintro _ w₃ ⟨g, hg, h₃⟩
      rw [ht₂, ht₁] at hg
      exact ⟨g, hg.mono (h₁.ids.trans h₂.ids), (h₁.trans h₂).trans h₃⟩

end RabbitmqLite.Engine
