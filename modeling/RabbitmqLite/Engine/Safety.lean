import RabbitmqLite.Engine.Discipline

/-! # Every operation keeps to the discipline

For each program of the engine: from any world in which it knows what it was
called with, it makes allowed effects only, whatever the others do in between.
-/

namespace RabbitmqLite.Engine
open Broker Collections Storage Atomic
open Memory (Record)

section Rules
variable (engine : Engine) (env : Env) (ends : ℤ → Prop) {α β : Type}

/-- From this world on the program keeps to the discipline, and it ends in a later world
with this knowledge. -/
def Leads (p : Program α) (w : World) (K : α → World → Prop) : Prop :=
  p.Safe (discipline engine env ends) (fun a w' => Later w w' ∧ K a w') w

variable {engine env ends}

theorem Leads.pure {a : α} {w : World} {K : α → World → Prop} (h : K a w) :
    Leads engine env ends (Pure.pure a) w K := ⟨Later.refl w, h⟩

theorem Leads.bind {p : Program α} {f : α → Program β} {w : World} {K : α → World → Prop}
    {K' : β → World → Prop} (hp : Leads engine env ends p w K)
    (hf : ∀ a w', Later w w' → K a w' → Leads engine env ends (f a) w' K') :
    Leads engine env ends (p >>= f) w K' := by
  apply (Prog.safe_bind _ p f _ w).mpr
  apply Prog.Safe.mono _ hp
  intro a w' hk
  apply Prog.Safe.mono _ (hf a w' hk.1 hk.2)
  intro b w'' hk'
  exact ⟨hk.1.trans hk'.1, hk'.2⟩

theorem Leads.perform {e : Effect} {w : World} {K : e.Reply → World → Prop}
    (h : ∀ w', Later w w' → Sound w' → Allowed engine env ends w' e ∧
      K (Engine.perform env e w').1 (Engine.perform env e w').2) :
    Leads engine env ends (Prog.perform e) w K := by
  intro w' hl hs
  obtain ⟨ha, hk⟩ := h w' hl hs
  exact ⟨ha, hl.trans (allowed_keeps w' e hs ha).2, hk⟩

/-- An effect that is always allowed, and whose reply does not matter. -/
theorem Leads.anyway (e : Effect) (h : ∀ w', Allowed engine env ends w' e) (w : World) :
    Leads engine env ends (Prog.perform e) w (fun _ _ => True) :=
  Leads.perform (fun w' _ _ => ⟨h w', trivial⟩)

end Rules

variable {engine : Engine} {env : Env} {ends : ℤ → Prop}

/-! ## Single effects -/

theorem clock_leads (w : World) : Leads engine env ends clock w (fun now w' => Read env w' now) :=
  Leads.perform (fun w' _ _ => ⟨trivial, w'.ticks, Nat.lt_succ_self _, rfl⟩)

theorem recordHistory_leads (event : HistoryEvent) (w : World) :
    Leads engine env ends (recordHistory event) w (fun _ _ => True) :=
  (Leads.anyway (.store (.appendHistory event)) (fun _ => trivial) w).bind
    (fun _ _ _ _ => Leads.pure trivial)

theorem recordEach_leads (events : List HistoryEvent) (w : World) :
    Leads engine env ends (recordEach events) w (fun _ _ => True) := by
  induction events generalizing w with
  | nil => exact Leads.pure trivial
  | cons event events ih => exact (recordHistory_leads event w).bind (fun _ w' _ _ => ih w')

theorem notify_leads (queues : List String) (w : World) :
    Leads engine env ends (notify queues) w (fun _ _ => True) :=
  Leads.anyway (.notify queues) (fun _ => trivial) w

theorem message_leads (id : String) (w : World) :
    Leads engine env ends (store (.message id)) w
      (fun reply w' => ∀ msg, reply = .ok msg → Stored w' msg ∧ msg.id = id) := by
  apply Leads.perform
  intro w' _ hs
  refine ⟨trivial, fun msg hr => ?_⟩
  simp only [perform, World.callStore, Memory.exec, Memory.Store.message] at hr ⊢
  cases hl : w'.store.messages.lookup id with
  | none => simp [hl] at hr
  | some entry =>
    simp only [hl, Except.ok.injEq] at hr ⊢
    subst hr
    have hid := hs.keyed id entry hl
    exact ⟨⟨entry, by rw [hid]; exact hl, rfl⟩, hid⟩

/-- The record of a message that was just claimed. -/
theorem lookup_of_claim {w : World} (hk : w.store.Keyed) {req : ClaimRequest}
    {claimed : List Message} (hr : (Memory.exec (.claim req) w.store).1 = .ok claimed) :
    ∀ msg ∈ claimed, (Memory.exec (.claim req) w.store).2.messages.lookup msg.id =
      some ⟨msg, req.now + req.lease, req.consumer⟩ ∧ msg.state = .processing := by
  intro msg hm
  obtain ⟨order, settled, ⟨e, h⟩ | ⟨picked, messages, -, hlookup, h⟩⟩ :=
      w.store.claim_cases req <;>
    simp only [Memory.exec, h] at hr ⊢
  · cases hr
  · obtain rfl := Except.ok.inj hr
    obtain ⟨id, hid, hout⟩ := List.mem_filterMap.mp hm
    obtain ⟨entry, hl, rfl⟩ := Option.map_eq_some_iff.mp hout
    have hkey : (Memory.takenOver req entry).msg.id = id := hk id entry hl
    rw [hkey, hlookup, if_pos hid, hl]
    exact ⟨rfl, rfl⟩

/-- The messages a claim hands out are in the store as they were handed out. -/
theorem claim_leads (req : ClaimRequest) (w : World) :
    Leads engine env ends (store (.claim req)) w
      (fun reply w' => ∀ claimed, reply = .ok claimed → ∀ msg ∈ claimed, Stored w' msg) := by
  apply Leads.perform
  intro w' _ hs
  exact ⟨trivial, fun claimed hr msg hm => ⟨_, (lookup_of_claim hs.keyed hr msg hm).1, rfl⟩⟩

/-- What is listed as expired was leased until an instant that has passed. -/
theorem expiredLeases_leads {now : Time} (limit : ℤ) {w : World} (hn : Read env w now) :
    Leads engine env ends (store (.expiredLeases now limit)) w
      (fun reply w' => ∀ expired, reply = .ok expired → ∀ msg ∈ expired,
        Stored w' msg ∧ Overdue env w' msg.id msg.attempts) := by
  apply Leads.perform
  intro w' hl hs
  refine ⟨hn.later hl, fun expired hr msg hm => ?_⟩
  have hr' : Memory.limited limit (Memory.expired w'.store.messages now) = expired :=
    Except.ok.inj hr
  subst hr'
  obtain ⟨id, entry, he, hexp, rfl⟩ :=
    Memory.mem_expired.mp ((Memory.limited_sublist limit _).subset hm)
  obtain ⟨-, -, hle⟩ := Memory.leaseExpired_iff.mp hexp
  have hkey := hs.keyed id entry he
  have he' : w'.store.messages.lookup entry.msg.id = some entry := by rw [hkey]; exact he
  exact ⟨⟨entry, he', rfl⟩, entry, he', Or.inr ⟨rfl, fun _ => ⟨now, hn.later hl, hle⟩⟩⟩

/-- A dead letter that was saved is there. -/
theorem saveDeadLetter_leads (letter : DeadLetter) (hid : letter.id = "") {id : String} {w : World}
    (hu : Used env w id) :
    Leads engine env ends (store (.saveDeadLetter letter id)) w
      (fun reply w' => reply = .ok () → Buried w' letter.content) := by
  apply Leads.perform
  intro w' hl _
  refine ⟨⟨hid, hu.mono hl.ids⟩, fun hr => ?_⟩
  rcases w'.store.saveDeadLetter_cases letter id with ⟨e, h⟩ | ⟨-, h⟩ <;>
    simp only [perform, World.callStore, Memory.exec, h] at hr ⊢
  · cases hr
  · refine ⟨(Memory.filed letter id).id, Memory.filed letter id, ?_, ?_⟩
    · simp
    · rw [Memory.filed, if_pos hid]
      rfl

theorem newID_leads (w : World) :
    Leads engine env ends newID w
      (fun id w' => ∃ i, w.ids ≤ i ∧ i < w'.ids ∧ env.newID i = id) :=
  Leads.perform (fun w' hl _ => ⟨trivial, w'.ids, hl.ids, Nat.lt_succ_self _, rfl⟩)

/-! ## Failures -/

theorem firstFailureAt_leads (id : String) (fallback : Time) (w : World) :
    Leads engine env ends (firstFailureAt id fallback) w (fun _ _ => True) := by
  apply (Leads.anyway (.store (.history id)) (fun _ => trivial) w).bind
  intro reply w' _ _
  cases reply with
  | error e => exact Leads.pure trivial
  | ok events =>
    dsimp only
    cases firstFailure events with
    | none => exact Leads.pure trivial
    | some event => exact Leads.pure trivial

/-- `deadLetter` saves the letter before it marks the message. -/
theorem deadLetter_leads {party : Party} (consumer : String) {delivery : Delivery} (cause : Cause)
    (now : Time) {w : World} (hs : Stored w delivery.message)
    (hq : delivery.queue = delivery.message.queue) (he : ends delivery.attempt)
    (ho : party = .reclaim → Overdue env w delivery.message.id delivery.attempt) :
    Leads engine env ends (deadLetter party consumer delivery cause now) w (fun _ _ => True) := by
  apply (firstFailureAt_leads _ now w).bind
  intro firstFailedAt w₁ h₁ _
  apply (newID_leads w₁).bind
  rintro id w₂ h₂ ⟨i, -, hi, hid⟩
  apply (saveDeadLetter_leads (letterOf delivery cause firstFailedAt now) rfl ⟨i, hi, hid⟩).bind
  intro reply w₃ h₃ hb
  have hlater : Later w w₃ := (h₁.trans h₂).trans h₃
  cases reply with
  | error e => exact Leads.pure trivial
  | ok u =>
    have hcontent : (letterOf delivery cause firstFailedAt now).content =
        delivery.message.content := by
      simp [letterOf, DeadLetter.content, Message.content, hq]
    have hburied : Buried w₃ delivery.message.content := hcontent ▸ hb rfl
    have hmark : Leads engine env ends (settle party delivery.attempt
        (.markDeadLettered delivery.message.id cause.text now)) w₃ (fun _ _ => True) := by
      apply Leads.perform
      intro w₄ h₄ _
      refine ⟨⟨he, fun e hl => ?_, fun hp => (ho hp).later (hlater.trans h₄)⟩, trivial⟩
      obtain ⟨e', hl', hc⟩ := hs.later (hlater.trans h₄)
      obtain rfl : e = e' := Option.some.inj (hl.symm.trans hl')
      rw [hc]
      exact h₄.letters _ hburied
    apply hmark.bind
    intro reply w₄ _ _
    cases reply with
    | error e => exact Leads.pure trivial
    | ok u => exact recordHistory_leads _ w₄

theorem nextAttemptAt_leads (now : Time) (attempt : ℤ) (w : World) :
    Leads engine env ends (nextAttemptAt engine.policy now attempt) w (fun _ _ => True) := by
  unfold nextAttemptAt
  split_ifs
  · exact Leads.pure trivial
  · exact (Leads.anyway .float64 (fun _ => trivial) w).bind (fun _ _ _ _ => Leads.pure trivial)

/-- A failure that is not permanent ends the message only where the policy gives up. -/
theorem fail_leads (hends : ∀ a, engine.policy.shouldRetry a = false → ends a) {held : ℤ}
    (consumer : String) {delivery : Delivery} {cause : Cause} {w : World}
    (hs : Stored w delivery.message) (hq : delivery.queue = delivery.message.queue)
    (hperm : isPermanent cause = true → ends delivery.attempt) :
    Leads engine env ends (fail engine (.consumer held) consumer delivery cause) w
      (fun _ _ => True) := by
  apply (clock_leads w).bind
  intro now w₁ h₁ _
  dsimp only
  split_ifs with hr
  · have he : ends delivery.attempt := by
      cases hp : isPermanent cause with
      | true => exact hperm hp
      | false =>
        apply hends
        simpa [hp] using hr
    exact deadLetter_leads consumer cause now (hs.later h₁) hq he (by simp)
  · have hretry : engine.policy.shouldRetry delivery.attempt = true := by
      simp only [Bool.not_eq_true', Bool.and_eq_false_imp, not_forall] at hr
      obtain ⟨-, h⟩ := hr
      simpa using h
    apply (nextAttemptAt_leads now delivery.attempt w₁).bind
    intro availableAt w₂ _ _
    have hsched : ∀ req, Leads engine env ends
        (settle (.consumer held) delivery.attempt (.scheduleRetry req)) w₂ (fun _ _ => True) :=
      fun req => Leads.anyway (.settle _ _ (.scheduleRetry req)) (fun _ => ⟨by simp, hretry⟩) w₂
    apply (hsched _).bind
    intro reply w₃ _ _
    cases reply with
    | error e => exact Leads.pure trivial
    | ok u => exact recordHistory_leads _ w₃

/-! ## Publishing -/

/-- Messages that are about to be appended. -/
structure Ready (env : Env) (w : World) (msgs : List Message) : Prop where
  nodup : (msgs.map Message.id).Nodup
  queued : ∀ msg ∈ msgs, msg.state = .queued ∧ msg.attempts = 0 ∧ Stamped w msg
  generated : ∀ msg ∈ msgs, ∃ i < w.ids, env.newID i = msg.id

theorem Stamped.later {w w' : World} {msg : Message} (h : Stamped w msg) (hl : Later w w') :
    Stamped w' msg := by
  obtain ⟨hown, name, queue, hq⟩ := h
  exact ⟨hown, name, queue, hl.registry ▸ hq⟩

theorem Ready.later {w w' : World} {msgs : List Message} (h : Ready env w msgs)
    (hl : Later w w') : Ready env w' msgs where
  nodup := h.nodup
  queued := fun msg hm =>
    ⟨(h.queued msg hm).1, (h.queued msg hm).2.1, (h.queued msg hm).2.2.later hl⟩
  generated := by
    intro msg hm
    obtain ⟨i, hi, hid⟩ := h.generated msg hm
    exact ⟨i, hi.trans_le hl.ids, hid⟩

theorem Ready.nil (w : World) : Ready env w [] :=
  ⟨List.nodup_nil, by simp, by simp⟩

/-- A message with the id generated last joins the others. -/
theorem Ready.snoc (hinj : Function.Injective env.newID) {w w' : World} {msgs : List Message}
    {msg : Message} (h : Ready env w msgs) {i : ℕ} (hi : w.ids ≤ i) (hid : env.newID i = msg.id)
    (hl : Later w w') (hi' : i < w'.ids)
    (hm : msg.state = .queued ∧ msg.attempts = 0 ∧ Stamped w' msg) :
    Ready env w' (msgs ++ [msg]) := by
  have hnew : msg.id ∉ msgs.map Message.id := by
    intro hmem
    obtain ⟨other, ho, heq⟩ := List.mem_map.mp hmem
    obtain ⟨j, hj, hjid⟩ := h.generated other ho
    have hij : i = j := hinj (hid.trans (heq.symm.trans hjid.symm))
    omega
  have h' := h.later hl
  refine ⟨?_, ?_, ?_⟩
  · rw [List.map_append, List.map_singleton]
    exact List.Nodup.append h'.nodup (List.nodup_singleton _)
      (List.disjoint_singleton.mpr hnew)
  · intro other ho
    rcases List.mem_append.mp ho with ho | ho
    · exact h'.queued other ho
    · rw [List.mem_singleton.mp ho]
      exact hm
  · intro other ho
    rcases List.mem_append.mp ho with ho | ho
    · exact h'.generated other ho
    · rw [List.mem_singleton.mp ho]
      exact ⟨i, hi', hid⟩

theorem validate_leads (msg : Message) (now : Time) (w : World) :
    Leads engine env ends (validate engine msg now) w (fun _ _ => True) := by
  unfold validate
  cases engine.schemas with
  | none => exact Leads.pure trivial
  | some schemas =>
    dsimp only
    split_ifs
    · exact Leads.pure trivial
    · cases schemas msg.schema msg.payload.bytes with
      | none => exact Leads.pure trivial
      | some cause =>
        have hpark : Leads engine env ends (parkRejected (rejected msg now) cause now) w
            (fun _ _ => True) := by
          apply (newID_leads w).bind
          rintro id w₁ _ ⟨i, -, hi, hid⟩
          exact (saveDeadLetter_leads _ rfl ⟨i, hi, hid⟩).bind (fun _ _ _ _ => Leads.pure trivial)
        exact hpark.bind (fun _ _ _ _ => Leads.pure trivial)

theorem addressed_stamped {w : World} {name : String} {queue : Queue}
    (h : w.registry.queues.lookup name = some queue) (id : String) (pub : Publication)
    (now : Time) : Stamped w (addressed id pub queue now) := by
  refine ⟨by rw [addressed_payload, Payload.copied_copied], name, queue, h, ?_⟩
  unfold addressed
  dsimp only
  split_ifs <;> exact ⟨rfl, rfl⟩

theorem publishLoop_leads (hinj : Function.Injective env.newID) (pub : Publication) (now : Time)
    (queues : List Queue) {msgs : List Message} {w : World} (hm : Ready env w msgs)
    (hq : ∀ queue ∈ queues, ∃ name, w.registry.queues.lookup name = some queue) :
    Leads engine env ends (publishLoop engine pub now queues msgs) w
      (fun reply w' => ∀ messages, reply = .ok messages → Ready env w' messages) := by
  induction queues generalizing msgs w with
  | nil =>
    apply Leads.pure
    intro messages h
    exact Except.ok.inj h ▸ hm
  | cons queue queues ih =>
    obtain ⟨name, hname⟩ := hq queue List.mem_cons_self
    apply (newID_leads w).bind
    rintro id w₁ h₁ ⟨i, hi, hi', hid⟩
    obtain ⟨hfid, hcreated, hattempts⟩ := addressed_fields id pub queue now
    apply (validate_leads (addressed id pub queue now) now w₁).bind
    intro reply w₂ h₂ _
    cases reply with
    | error e => exact Leads.pure (fun messages h => by cases h)
    | ok u =>
      dsimp only
      rw [transition_of_created hcreated]
      have h₁₂ := h₁.trans h₂
      have hstamp : Stamped w₂ (addressed id pub queue now) :=
        addressed_stamped (by rw [h₁₂.registry]; exact hname) id pub now
      apply ih
      · exact hm.snoc hinj hi (hid.trans hfid.symm) h₁₂ (hi'.trans_le h₂.ids)
          ⟨rfl, hattempts, hstamp⟩
      · intro queue' hmem
        rw [h₁₂.registry]
        exact hq queue' (List.mem_cons_of_mem queue hmem)

/-- Routing answers with declared queues. -/
theorem route_leads (exchange routingKey : String) (w : World) :
    Leads engine env ends (Prog.perform (Effect.route exchange routingKey)) w
      (fun reply w' => ∀ queues, reply = .ok queues →
        ∀ queue ∈ queues, ∃ name, w'.registry.queues.lookup name = some queue) := by
  apply Leads.perform
  intro w' _ _
  refine ⟨trivial, fun queues hr queue hm => ?_⟩
  simp only [perform, Registry.route] at hr ⊢
  split at hr
  · cases hr
  · split_ifs at hr
    obtain rfl := Except.ok.inj hr
    obtain ⟨name, -, hl⟩ := List.mem_filterMap.mp hm
    exact ⟨name, hl⟩

theorem queue_leads (name : String) (w : World) :
    Leads engine env ends (Prog.perform (Effect.queue name)) w
      (fun reply w' => ∀ queue, reply = .ok queue →
        w'.registry.queues.lookup name = some queue) := by
  apply Leads.perform
  intro w' _ _
  refine ⟨trivial, fun queue hr => ?_⟩
  simp only [perform, Registry.queue] at hr ⊢
  split at hr
  · rename_i found hl
    exact hl.trans (congrArg some (Except.ok.inj hr))
  · cases hr

theorem append_leads {msgs : List Message} {w : World} (h : Ready env w msgs) :
    Leads engine env ends (store (.append msgs)) w (fun _ _ => True) :=
  Leads.perform (fun _ hl _ => ⟨⟨h.nodup, (h.later hl).queued⟩, trivial⟩)

theorem publish_leads (hinj : Function.Injective env.newID) (pub : Publication) (w : World) :
    Leads engine env ends (publish engine pub) w (fun _ _ => True) := by
  apply (route_leads pub.exchange pub.routingKey w).bind
  intro reply w₁ _ hroute
  cases reply with
  | error e => exact Leads.pure trivial
  | ok queues =>
    apply (clock_leads w₁).bind
    intro now w₂ h₂ _
    have hq : ∀ queue ∈ queues, ∃ name, w₂.registry.queues.lookup name = some queue := by
      rw [h₂.registry]
      exact hroute queues rfl
    apply (publishLoop_leads hinj pub now queues (Ready.nil w₂) hq).bind
    intro reply w₃ _ hready
    cases reply with
    | error e => exact Leads.pure trivial
    | ok messages =>
      apply (append_leads (hready messages rfl)).bind
      intro reply w₄ _ _
      cases reply with
      | error e => exact Leads.pure trivial
      | ok u =>
        apply (recordEach_leads _ w₄).bind
        intro _ w₅ _ _
        exact (notify_leads _ w₅).bind (fun _ _ _ _ => Leads.pure trivial)

theorem replayDeadLetter_leads (hinj : Function.Injective env.newID) (id : String) (w : World) :
    Leads engine env ends (replayDeadLetter id) w (fun _ _ => True) := by
  apply (Leads.anyway (.store (.deadLetter id)) (fun _ => trivial) w).bind
  intro reply w₁ _ _
  cases reply with
  | error e => exact Leads.pure trivial
  | ok record =>
    apply (queue_leads record.queue w₁).bind
    intro reply w₂ _ hqueue
    cases reply with
    | error e => exact Leads.pure trivial
    | ok queue =>
      apply (clock_leads w₂).bind
      intro now w₃ h₃ _
      apply (newID_leads w₃).bind
      rintro fresh w₄ h₄ ⟨i, hi, hi', hid⟩
      rw [transition_of_created rfl]
      have hstamp : Stamped w₄ (replayOf fresh record queue now) := by
        refine ⟨Payload.copied_copied record.payload, record.queue, queue, ?_, rfl, rfl⟩
        rw [(h₃.trans h₄).registry]
        exact hqueue queue rfl
      have hready : Ready env w₄
          [{ replayOf fresh record queue now with state := .queued, updatedAt := now }] :=
        (Ready.nil w₃).snoc hinj hi hid h₄ hi' ⟨rfl, rfl, hstamp⟩
      apply (append_leads hready).bind
      intro reply w₅ _ _
      cases reply with
      | error e => exact Leads.pure trivial
      | ok u =>
        apply (recordHistory_leads _ w₅).bind
        intro _ w₆ _ _
        apply (Leads.anyway (.store (.markDeadLetterReplayed record.id _ now))
          (fun _ => trivial) w₆).bind
        intro _ w₇ _ _
        exact (notify_leads _ w₇).bind (fun _ _ _ _ => Leads.pure trivial)

/-! ## Consumers -/

theorem pull_leads (req : PullRequest) (w : World) :
    Leads engine env ends (pull req) w (fun _ _ => True) := by
  apply (queue_leads req.queue w).bind
  intro reply w₁ _ _
  cases reply with
  | error e => exact Leads.pure trivial
  | ok queue =>
    apply (clock_leads w₁).bind
    intro now w₂ _ _
    apply (claim_leads _ w₂).bind
    intro reply w₃ _ _
    cases reply with
    | error e => exact Leads.pure trivial
    | ok claimed => exact (recordEach_leads _ w₃).bind (fun _ _ _ _ => Leads.pure trivial)

theorem ack_leads (id : String) (held : ℤ) (w : World) :
    Leads engine env ends (ack id held) w (fun _ _ => True) := by
  apply (message_leads id w).bind
  intro reply w₁ _ _
  cases reply with
  | error e => exact Leads.pure trivial
  | ok msg =>
    apply (clock_leads w₁).bind
    intro now w₂ _ _
    apply (Leads.anyway (.settle (.consumer held) msg.attempts (.acknowledge id now))
      (fun _ => by simp [Allowed, MaySettle]) w₂).bind
    intro reply w₃ _ _
    cases reply with
    | error e => exact Leads.pure trivial
    | ok u => exact (recordHistory_leads _ w₃).bind (fun _ _ _ _ => Leads.pure trivial)

theorem release_leads (held attempt : ℤ) (id : String) (now : Time) (w : World) :
    Leads engine env ends (settle (.consumer held) attempt (.release id now)) w
      (fun _ _ => True) :=
  Leads.anyway (.settle (.consumer held) attempt (.release id now))
    (fun _ => by simp [Allowed, MaySettle]) w

theorem nack_leads (hends : ∀ a, engine.policy.shouldRetry a = false → ends a)
    (id reason : String) (requeue : Bool) (held : ℤ) (w : World) :
    Leads engine env ends (nack engine id reason requeue held) w (fun _ _ => True) := by
  apply (message_leads id w).bind
  intro reply w₁ _ hmsg
  cases reply with
  | error e => exact Leads.pure trivial
  | ok msg =>
    dsimp only
    by_cases hr : requeue = true
    · rw [if_pos hr]
      apply (clock_leads w₁).bind
      intro now w₂ _ _
      apply (release_leads held msg.attempts id now w₂).bind
      intro reply w₃ _ _
      cases reply with
      | error e => exact Leads.pure trivial
      | ok u =>
        apply (recordHistory_leads _ w₃).bind
        intro _ w₄ _ _
        exact (notify_leads _ w₄).bind (fun _ _ _ _ => Leads.pure trivial)
    · rw [if_neg hr]
      apply (fail_leads hends "" (hmsg msg rfl).1 rfl (by simp [isPermanent])).bind
      intro _ w₂ _ _
      exact (notify_leads _ w₂).bind (fun _ _ _ _ => Leads.pure trivial)

theorem handOff_leads (consumer : ConsumerSpec) {msg : Message} {w : World} (h : Stored w msg) :
    Leads engine env ends (handOff consumer msg) w (fun _ _ => True) := by
  apply (clock_leads w).bind
  intro now w₁ h₁ _
  apply (recordHistory_leads _ w₁).bind
  intro _ w₂ h₂ _
  have hsubmit : Leads engine env ends
      (Prog.perform (Effect.submit consumer.name ⟨msg, msg.attempts, msg.queue⟩)) w₂
      (fun _ _ => True) :=
    Leads.perform (fun _ h₃ _ => ⟨⟨h.later ((h₁.trans h₂).trans h₃), rfl⟩, trivial⟩)
  apply hsubmit.bind
  intro reply w₃ _ _
  cases reply with
  | ok u => exact Leads.pure trivial
  | error e =>
    apply (clock_leads w₃).bind
    intro now w₄ _ _
    exact (release_leads msg.attempts msg.attempts msg.id now w₄).bind
      (fun _ _ _ _ => Leads.pure trivial)

theorem handOffAll_leads (consumer : ConsumerSpec) {msgs : List Message} {w : World}
    (h : ∀ msg ∈ msgs, Stored w msg) :
    Leads engine env ends (handOffAll consumer msgs) w (fun _ _ => True) := by
  induction msgs generalizing w with
  | nil => exact Leads.pure trivial
  | cons msg msgs ih =>
    apply (handOff_leads consumer (h msg List.mem_cons_self)).bind
    intro _ w₁ h₁ _
    exact ih (fun other ho => (h other (List.mem_cons_of_mem msg ho)).later h₁)

theorem claimBatch_leads (consumer : ConsumerSpec) (w : World) :
    Leads engine env ends (claimBatch consumer) w (fun _ _ => True) := by
  apply (queue_leads consumer.queue w).bind
  intro reply w₁ _ _
  cases reply with
  | error e => exact Leads.pure trivial
  | ok queue =>
    apply (clock_leads w₁).bind
    intro now w₂ _ _
    apply (claim_leads _ w₂).bind
    intro reply w₃ _ hstored
    cases reply with
    | error e => exact Leads.pure trivial
    | ok messages =>
      exact (handOffAll_leads consumer (hstored messages rfl)).bind
        (fun _ _ _ _ => Leads.pure trivial)

theorem receive_leads (consumer : String) (w : World) :
    Leads engine env ends (Prog.perform (Effect.receive consumer)) w
      (fun reply w' => ∀ d, reply = some d → Stored w' d.message ∧ d.queue = d.message.queue) := by
  apply Leads.perform
  intro w' _ hs
  refine ⟨trivial, fun d hr => ?_⟩
  simp only [perform] at hr ⊢
  split at hr
  · cases hr
  · rename_i head rest htasks
    obtain rfl := Option.some.inj hr
    obtain ⟨⟨e, he, hc⟩, hq⟩ := hs.tasks consumer head (by rw [htasks]; exact List.mem_cons_self)
    exact ⟨⟨e, he, hc⟩, hq⟩

theorem work_leads (hends : ∀ a, engine.policy.shouldRetry a = false → ends a)
    (consumer : ConsumerSpec) {outcome : Option Cause}
    (hperm : ∀ cause, outcome = some cause → isPermanent cause = true → ∀ a, ends a) (w : World) :
    Leads engine env ends (work engine consumer outcome) w (fun _ _ => True) := by
  apply (receive_leads consumer.name w).bind
  intro reply w₁ _ htask
  cases reply with
  | none => exact Leads.pure trivial
  | some delivery =>
    obtain ⟨hstored, hq⟩ := htask delivery rfl
    apply (clock_leads w₁).bind
    intro _ w₂ h₂ _
    cases outcome with
    | none =>
      apply (clock_leads w₂).bind
      intro now w₃ _ _
      apply (Leads.anyway (.settle (.consumer delivery.attempt) delivery.attempt
        (.acknowledge delivery.message.id now)) (fun _ => by simp [Allowed, MaySettle]) w₃).bind
      intro reply w₄ _ _
      cases reply with
      | error e => exact Leads.pure trivial
      | ok u => exact recordHistory_leads _ w₄
    | some cause =>
      exact fail_leads hends consumer.name (hstored.later h₂) hq
        (fun hp => hperm cause rfl hp delivery.attempt)

/-! ## Maintenance -/

theorem requeueExpired_leads {msg : Message} (now : Time) {w : World}
    (ho : Overdue env w msg.id msg.attempts)
    (hr : engine.policy.shouldRetry msg.attempts = true) :
    Leads engine env ends (requeueExpired msg now) w (fun _ _ => True) := by
  have hrelease : Leads engine env ends (settle .reclaim msg.attempts (.release msg.id now)) w
      (fun _ _ => True) :=
    Leads.perform (fun _ h₁ _ => ⟨fun _ => ⟨hr, ho.later h₁⟩, trivial⟩)
  apply hrelease.bind
  intro reply w₁ _ _
  cases reply with
  | error e => exact Leads.pure trivial
  | ok u => exact (recordHistory_leads _ w₁).bind (fun _ _ _ _ => Leads.pure trivial)

theorem reclaimLoop_leads (hends : ∀ a, engine.policy.shouldRetry a = false → ends a) (now : Time)
    {msgs : List Message} (requeued : List String) {w : World}
    (h : ∀ msg ∈ msgs, Stored w msg ∧ Overdue env w msg.id msg.attempts) :
    Leads engine env ends (reclaimLoop engine now msgs requeued) w (fun _ _ => True) := by
  induction msgs generalizing requeued w with
  | nil => exact Leads.pure trivial
  | cons msg msgs ih =>
    obtain ⟨hs, ho⟩ := h msg List.mem_cons_self
    have hrest : ∀ w', Later w w' → ∀ other ∈ msgs,
        Stored w' other ∧ Overdue env w' other.id other.attempts := by
      intro w' hl other hm
      obtain ⟨hs', ho'⟩ := h other (List.mem_cons_of_mem msg hm)
      exact ⟨hs'.later hl, ho'.later hl⟩
    unfold reclaimLoop
    split_ifs with hr
    · apply (requeueExpired_leads now ho hr).bind
      intro released w₁ h₁ _
      split_ifs
      · exact ih _ (hrest w₁ h₁)
      · exact ih _ (hrest w₁ h₁)
    · have hend : ends msg.attempts := hends msg.attempts (by simpa using hr)
      apply (deadLetter_leads _ .leaseExpired now hs rfl hend (fun _ => ho)).bind
      intro _ w₁ h₁ _
      exact ih _ (hrest w₁ h₁)

theorem reclaim_leads (hends : ∀ a, engine.policy.shouldRetry a = false → ends a) (w : World) :
    Leads engine env ends (reclaim engine) w (fun _ _ => True) := by
  apply (clock_leads w).bind
  intro now w₁ _ hnow
  apply (expiredLeases_leads reclaimBatchSize hnow).bind
  intro reply w₂ _ hexpired
  cases reply with
  | error e => exact Leads.pure trivial
  | ok expired =>
    apply (reclaimLoop_leads hends now [] (hexpired expired rfl)).bind
    intro requeued w₃ _ _
    exact notify_leads requeued w₃

/-! ## All operations -/

/-- The operations that take nothing out of the store, and give up on a message only at
the attempts in question. -/
def Op.Fits (ends : ℤ → Prop) : Op → Prop
  | .work _ (some cause) => isPermanent cause = true → ∀ a, ends a
  | .purge _ | .discardDeadLetter _ => False
  | _ => True

/-- The operation as one party among others; nobody waits for its result. -/
def thread (engine : Engine) (op : Op) : Program Unit := (engine.program op).void

theorem thread_safe (hends : ∀ a, engine.policy.shouldRetry a = false → ends a)
    (hinj : Function.Injective env.newID) {op : Op} (h : op.Fits ends) (w : World) :
    (thread engine op).Safe (discipline engine env ends) (fun _ _ => True) w := by
  have hleads : Leads engine env ends (engine.program op) w (fun _ _ => True) := by
    cases op with
    | publish pub => exact publish_leads hinj pub w
    | pull req => exact pull_leads req w
    | ack id held => exact ack_leads id held w
    | nack id reason requeue held => exact nack_leads hends id reason requeue held w
    | claimBatch consumer => exact claimBatch_leads consumer w
    | work consumer outcome =>
      apply work_leads hends consumer
      rintro cause rfl
      exact h
    | reclaim => exact reclaim_leads hends w
    | replayDeadLetter id => exact replayDeadLetter_leads hinj id w
    | purge | discardDeadLetter => exact h.elim
  apply (Prog.safe_bind _ _ _ _ w).mpr
  exact Prog.Safe.mono _ hleads (fun _ _ _ => trivial)

end RabbitmqLite.Engine
