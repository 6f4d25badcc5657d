import RabbitmqLite.Engine.AttemptLimit
import RabbitmqLite.Engine.LeaseExclusion

/-! # The attempt limit of a queue

A message carries the limit of its queue, but the engine decides by the limit
of its policy, and by the attempt an operation has in hand. Where the two limits
agree and every failure is reported for the attempt that is stored, the limit of
the queue governs, however the steps of the operations interleave.
-/

namespace RabbitmqLite.Engine
open Broker Collections Storage Atomic
open Memory (Record RecordStep Handled exec_recordStep exec_letterStep)

/-! ## How often a message is handed out -/

/-- The messages a call hands out. -/
def claimedIn : (c : Call) → c.Reply → List Message
  | .claim _, .ok claimed => claimed
  | _, _ => []

def claimedBy : EngineEvent → List Message
  | ⟨.store c, reply⟩ => claimedIn c reply
  | _ => []

/-- How often a message was claimed. -/
def claims (events : List EngineEvent) (id : String) : ℕ :=
  (events.flatMap (fun event => (claimedBy event).map Message.id)).count id

theorem claims_snoc (events : List EngineEvent) (event : EngineEvent) (id : String) :
    claims (events ++ [event]) id =
      claims events id + ((claimedBy event).map Message.id).count id := by
  simp [claims]

theorem count_of_not_handled {c : Call} {reply : c.Reply} {id : String}
    (h : ¬ Handled c reply id) : ((claimedIn c reply).map Message.id).count id = 0 := by
  cases c with
  | claim req =>
    cases reply with
    | error e => rfl
    | ok claimed => exact List.count_eq_zero.mpr h
  | _ => rfl

theorem claimedIn_nodup {s : Memory.Store} (hk : s.Keyed) (c : Call) :
    ((claimedIn c (Memory.exec c s).1).map Message.id).Nodup := by
  cases c with
  | claim req =>
    rcases viewOf_claim hk req with ⟨e, hr, -⟩ | ⟨claimed, hr, hn, -⟩
    · rw [hr]
      exact List.nodup_nil
    · rw [hr]
      exact hn
  | _ => exact List.nodup_nil

/-- Every time a message is handed out is counted as an attempt. -/
theorem RecordStep.counted {c : Call} {reply : c.Reply} {id : String} {r r' : Option Record}
    (h : RecordStep c reply id r r') (hc : ¬ Removes c)
    (hn : ((claimedIn c reply).map Message.id).Nodup)
    (happ : ∀ msgs, c = .append msgs → ∀ msg ∈ msgs, msg.attempts = 0) :
    attemptsOf r + ((claimedIn c reply).map Message.id).count id ≤ attemptsOf r' := by
  cases h with
  | same hh => simp [count_of_not_handled hh]
  | append hm => simp [attemptsOf, claimedIn, Memory.unleased, happ _ rfl _ hm]
  | claim hcl hm hid =>
    have hle := List.nodup_iff_count_le_one.mp hn id
    simp only [attemptsOf, Option.map_some, Option.getD_some, Memory.takenOver]
    omega
  | acknowledge | scheduleRetry | release | markDeadLettered =>
    simp [attemptsOf, claimedIn, Memory.unleased, Memory.acknowledged, Memory.retried,
      Memory.released, Memory.deadLettered]
  | purge | deleteQueue => exact absurd trivial hc

/-! ## Failures of the stored attempt -/

/-- The message a consumer gives back without a decision about its attempts. -/
def givenBack : Party → Call → Option String
  | .consumer _, .release id _ => some id
  | _, _ => none

/-- The message whose attempt ends without success. -/
def ended : Call → Option String
  | .scheduleRetry req => some req.id
  | .release id _ => some id
  | .markDeadLettered id _ _ => some id
  | _ => none

/-- The attempt that ends is the one that is stored, and no consumer gives the message back. -/
def Current (id : String) (w : World) : Effect → Prop
  | .settle party attempt c => givenBack party c ≠ some id ∧
    (ended c = some id → ∀ e ∈ w.store.messages.lookup id,
      e.msg.state = .processing → e.msg.attempts = attempt)
  | _ => True

instance (id : String) (w : World) : (e : Effect) → Decidable (Current id w e)
  | .settle _ _ _ => by
    dsimp only [Current]
    infer_instance
  | .store _ | .clock | .newID | .float64 | .route _ _ | .queue _ | .notify _ | .submit _ _
  | .receive _ => .isTrue trivial

/-- The operations without permanent failures that take nothing out of the store. -/
def Op.Transient : Op → Prop
  | .work _ (some cause) => isPermanent cause = false
  | .purge _ | .discardDeadLetter _ => False
  | _ => True

variable {engine : Engine} {env : Env}

/-- The attempts at which the policy gives up. -/
def GivesUp (engine : Engine) (attempt : ℤ) : Prop := engine.policy.shouldRetry attempt = false

theorem Op.Transient.fits {op : Op} (h : op.Transient) : op.Fits (GivesUp engine) := by
  cases op with
  | work consumer outcome =>
    cases outcome with
    | none => trivial
    | some cause =>
      intro hp
      have hnot : isPermanent cause = false := h
      rw [hnot] at hp
      cases hp
  | purge | discardDeadLetter => exact h.elim
  | _ => trivial

theorem limited_of_mayCall {w : World} {c : Call} (ha : MayCall env w c) {reply : c.Reply}
    {id : String} {e e' : Record} (hs : RecordStep c reply id (some e) (some e')) {limit : ℤ}
    (h : Limited limit e.msg) : Limited limit e'.msg := by
  cases hs with
  | same => exact h
  | claim hc => exact h.takenOver hc
  | acknowledge | scheduleRetry | release | markDeadLettered => exact ha.elim

theorem limited_of_maySettle {w : World} (hw : Sound w) {party : Party} {attempt : ℤ} {c : Call}
    (ha : MaySettle engine env (GivesUp engine) w party attempt c) {id : String}
    (hcur : Current id w (.settle party attempt c)) {reply : c.Reply} {e e' : Record}
    (hl : w.store.messages.lookup id = some e) (hs : RecordStep c reply id (some e) (some e'))
    (h : Limited engine.policy.maxAttempts e.msg) : Limited engine.policy.maxAttempts e'.msg := by
  cases hs with
  | same => exact h
  | claim => exact ha.elim
  | acknowledge => exact h.acknowledged _
  | scheduleRetry hp =>
    have heq := hcur.2 rfl e hl hp
    apply Limited.retried
    simpa [Retry.Policy.shouldRetry, heq] using ha.2
  | release hp =>
    have heq := hcur.2 rfl e hl hp
    cases party with
    | consumer held => exact absurd rfl hcur.1
    | reclaim =>
      apply Limited.released
      simpa [Retry.Policy.shouldRetry, heq] using (ha rfl).1
  | markDeadLettered hd =>
    have hp : e.msg.state = .processing := hd.resolve_right (hw.states id e hl).ne_failed
    have heq := hcur.2 rfl e hl hp
    apply h.buried
    simpa [GivesUp, Retry.Policy.shouldRetry, heq] using ha.1

/-- What is known about one message and the store while operations run among each other. -/
structure Within (engine : Engine) (env : Env) (id : String) (w : World)
    (events : List EngineEvent) : Prop where
  healthy : Healthy env w
  limited : ∀ e, w.store.messages.lookup id = some e → Limited engine.policy.maxAttempts e.msg
  claims_le : (claims events id : ℤ) ≤ attemptsOf (w.store.messages.lookup id)

theorem healthy_step {ends : ℤ → Prop} {w : World} {e : Effect} (hw : Sound w)
    (ha : Allowed engine env ends w e) (h : Healthy env w) : Healthy env (perform env e w).2 := by
  cases e with
  | store c =>
    apply h.callStore
    · rintro rfl
      exact ha.elim
    · rintro msgs rfl msg hm
      exact (ha.2 msg hm).1
    · rintro entry newID rfl
      rw [Memory.filed, if_pos ha.1]
      exact ha.2
  | settle party attempt c =>
    apply h.callStore
    · rintro rfl
      exact ha.elim
    · rintro msgs rfl
      exact ha.elim
    · rintro entry newID rfl
      exact ha.elim
  | _ =>
    exact h.of_store_eq (perform_store_eq (by simp) (by simp) w) (allowed_keeps w _ hw ha).2.ids

theorem within_step {w : World} {events : List EngineEvent} {e : Effect} {id : String}
    (hw : Sound w) (ha : Allowed engine env (GivesUp engine) w e) (hcur : Current id w e)
    (h : Within engine env id w events) :
    Within engine env id (perform env e w).2 (events ++ [⟨e, (perform env e w).1⟩]) where
  healthy := healthy_step hw ha h.healthy
  limited := by
    have hone : 1 ≤ engine.policy.maxAttempts := Retry.Policy.one_le_maxAttempts engine.valid
    intro r hr
    rcases perform_cases hw.keyed e id with hsame | ⟨c, rfl, hs⟩ | ⟨party, attempt, c, rfl, hs⟩
    · exact h.limited r (hsame ▸ hr)
    · rw [hr] at hs
      cases hl : w.store.messages.lookup id with
      | none =>
        rw [hl] at hs
        obtain ⟨msgs, msg, rfl, -, hm, -, rfl⟩ := hs.of_none
        exact Limited.of_new hone (ha.2 msg hm).1 (ha.2 msg hm).2.1
      | some old =>
        rw [hl] at hs
        exact limited_of_mayCall ha hs (h.limited old hl)
    · rw [hr] at hs
      cases hl : w.store.messages.lookup id with
      | none =>
        rw [hl] at hs
        obtain ⟨msgs, msg, rfl, -⟩ := hs.of_none
        exact ha.elim
      | some old =>
        rw [hl] at hs
        exact limited_of_maySettle hw ha hcur hl hs (h.limited old hl)
  claims_le := by
    have hle := h.claims_le
    rw [claims_snoc]
    push_cast
    cases e with
    | store c =>
      have hcount := RecordStep.counted (exec_recordStep hw.keyed c id) ha.harmless.keeps
        (claimedIn_nodup hw.keyed c) (fun msgs hc msg hm => by subst hc; exact (ha.2 msg hm).2.1)
      exact (add_le_add_left hle _).trans hcount
    | settle party attempt c =>
      have hcount := RecordStep.counted (exec_recordStep hw.keyed c id) ha.harmless.keeps
        (claimedIn_nodup hw.keyed c) (fun msgs hc => by subst hc; exact ha.elim)
      have hmono : attemptsOf (w.store.messages.lookup id) ≤
          attemptsOf ((perform env (.settle party attempt c) w).2.store.messages.lookup id) := by
        refine le_trans ?_ hcount
        omega
      simpa [claimedBy] using hle.trans hmono
    | _ =>
      rw [perform_store_eq (by simp) (by simp)]
      simpa [claimedBy] using hle

/-! ## Reporting a failure -/

/-- The operation reports that the stored attempt of a message has failed. -/
def Fails (env : Env) (w : World) (e : Record) : Op → Prop
  | .nack id _ false _ => id = e.msg.id
  | .work consumer (some cause) => isPermanent cause = false ∧
    ∃ d, (w.tasks consumer.name).head? = some d ∧ d.message.id = e.msg.id ∧
      d.attempt = e.msg.attempts
  | .reclaim => e.msg ∈ overdue w (env.clock w.ticks)
  | _ => False

/-- The attempt is over, and the message is given up if it was the last one. -/
def Concluded (limit : ℤ) (e : Record) (r : Option Record) : Prop :=
  ∃ e', r = some e' ∧ e'.msg.attempts = e.msg.attempts ∧ e'.msg.state ≠ .processing ∧
    (e'.msg.state = .deadLettered ↔ limit ≤ e.msg.attempts)

theorem FailedBy.concluded {consumer : String} {d : Delivery} {cause : Cause} {g : View → View}
    (hg : FailedBy engine consumer d cause g) (hperm : isPermanent cause = false) {v : View}
    {e : Record} (hr : v.record = some e) (hp : e.msg.state = .processing)
    (hd : d.attempt = e.msg.attempts) :
    Concluded engine.policy.maxAttempts e (g v).record := by
  have hiff := retryable_iff engine hperm d.attempt
  unfold FailedBy at hg
  split_ifs at hg with hretry
  · obtain ⟨availableAt, now, rfl⟩ := hg
    rw [retriedBy, View.settled_of_leased hr hp]
    refine ⟨_, rfl, rfl, by simp [Memory.unleased, Memory.retried], ?_⟩
    have hlt := hiff.mp hretry
    simp only [Memory.unleased, Memory.retried, reduceCtorEq, false_iff, not_le]
    omega
  · obtain ⟨firstFailedAt, now, id, rfl⟩ := hg
    rw [buriedBy, View.settled_of_leased (v := v.filed _) hr hp]
    refine ⟨_, rfl, rfl, by simp [Memory.unleased, Memory.deadLettered], ?_⟩
    have hge := not_lt.mp (fun hlt => hretry (hiff.mpr hlt))
    simp only [Memory.unleased, Memory.deadLettered, true_iff]
    omega

theorem ReclaimedBy.concluded {now : Time} {e : Record} {g : View → View}
    (hg : ReclaimedBy engine now e.msg g) {v : View} (hr : v.record = some e)
    (hp : e.msg.state = .processing) : Concluded engine.policy.maxAttempts e (g v).record := by
  unfold ReclaimedBy at hg
  split_ifs at hg with hretry
  · rw [hg, requeuedBy, View.settled_of_leased hr hp]
    refine ⟨_, rfl, rfl, by simp [Memory.unleased, Memory.released], ?_⟩
    simpa [Memory.unleased, Memory.released, Retry.Policy.shouldRetry] using hretry
  · obtain ⟨firstFailedAt, id, rfl⟩ := hg
    rw [buriedBy, View.settled_of_leased (v := v.filed _) hr hp]
    refine ⟨_, rfl, rfl, by simp [Memory.unleased, Memory.deadLettered], ?_⟩
    simpa [Memory.unleased, Memory.deadLettered, Retry.Policy.shouldRetry] using hretry

/-- A failure that is reported without interference concludes the attempt. -/
theorem concluded_of_fails (engine : Engine) (hinj : Function.Injective env.newID) {w : World}
    (h : Healthy env w) {e : Record} (hr : (w.view e.msg.id).record = some e)
    (hp : e.msg.state = .processing) {op : Op} (hf : Fails env w e op) :
    Concluded engine.policy.maxAttempts e
      ((exec engine env op w).2.view e.msg.id).record := by
  cases op with
  | nack id reason requeue held =>
    cases requeue with
    | true => exact hf.elim
    | false =>
      obtain rfl : id = e.msg.id := hf
      rcases nack_runs_fail engine hinj h e.msg.id reason held with
        ⟨hn, -⟩ | ⟨e', text, g, hr', hg, hb⟩
      · rw [hr] at hn
        cases hn
      · obtain rfl : e' = e := Option.some.inj (hr'.symm.trans hr)
        have hv : ((exec engine env (.nack e'.msg.id reason false held) w).2.view e'.msg.id) =
            onlyAt e'.msg.id g e'.msg.id (w.view e'.msg.id) := hb.view e'.msg.id
        obtain ⟨g', hg', heq⟩ := hg.failedBy (w.view e'.msg.id)
        rw [hv, onlyAt_self, ← heq]
        exact hg'.concluded rfl hr hp rfl
  | work consumer outcome =>
    cases outcome with
    | none => exact hf.elim
    | some cause =>
      obtain ⟨hperm, d, hd, hid, ha⟩ := hf
      have hrun := work_runs engine hinj h consumer (some cause)
      rw [hd] at hrun
      obtain ⟨g, hg, hb⟩ := hrun
      have hv : ((exec engine env (.work consumer (some cause)) w).2.view e.msg.id) =
          onlyAt d.message.id g e.msg.id (w.view e.msg.id) := hb.view e.msg.id
      obtain ⟨g', hg', heq⟩ := hg.failedBy (w.view e.msg.id)
      rw [hv, hid, onlyAt_self, ← heq]
      exact hg'.concluded hperm hr hp ha
  | reclaim =>
    obtain ⟨f, hf', hb⟩ := reclaim_runs engine hinj h
    have hv : ((exec engine env .reclaim w).2.view e.msg.id) = f e.msg.id (w.view e.msg.id) :=
      hb.view e.msg.id
    obtain ⟨g', hg', heq⟩ := (hf'.inside e.msg hf).reclaimedBy (w.view e.msg.id)
    rw [hv, ← heq]
    exact hg'.concluded hr hp
  | _ => exact hf.elim

/-- The limit `k` governs a message that is stored in a reached configuration. -/
structure Governed (engine : Engine) (env : Env) (k : ℤ) (x : Config World Effect Effect.Reply)
    (e : Record) : Prop where
  stamped : e.msg.maxAttempts = k
  claims_le : (claims x.events e.msg.id : ℤ) ≤ k
  waiting : e.msg.state = .queued ∨ e.msg.state = .retrying → e.msg.exhausted = false
  deadLettered : e.msg.state = .deadLettered → e.msg.exhausted = true ∧ e.msg.attempts = k
  fails : e.msg.state = .processing → ∀ op, Fails env x.state e op →
    ∃ e', (exec engine env op x.state).2.store.messages.lookup e.msg.id = some e' ∧
      e'.msg.attempts = e.msg.attempts ∧ e'.msg.state ≠ .processing ∧
      (e'.msg.state = .deadLettered ↔ e.msg.exhausted = true)

theorem exhausted_iff {msg : Message} {k : ℤ} (hk : 1 ≤ k) (hm : msg.maxAttempts = k) :
    msg.exhausted = true ↔ k ≤ msg.attempts := by
  simp only [Message.exhausted, hm, Bool.and_eq_true, decide_eq_true_eq]
  omega

theorem init_within (engine : Engine) (env : Env) (registry : Registry) (id : String) :
    Within engine env id (World.init registry) [] where
  healthy := (init_tidy env registry).healthy
  limited := by simp [World.init, Memory.Store.new]
  claims_le := by simp [claims, attemptsOf, World.init, Memory.Store.new]

/-- Along every schedule in which the failures of a message are reported for the stored
attempt, the limit of its queue governs the message, if the policy has the same limit. -/
theorem queue_limit_governs (engine : Engine) (env : Env) (hinj : Function.Injective env.newID)
    (registry : Registry) (queue : String) (k : ℤ)
    (hqueue : ∀ name q, registry.queues.lookup name = some q → q.name = queue → q.maxAttempts = k)
    (hpolicy : engine.policy.maxAttempts = k) (schedule : List (Action Op))
    (hops : ∀ op, .start op ∈ schedule → op.Transient) (id : String)
    (hcurrent : Config.AllMeet (perform env) (thread engine) (Current id)
      (Config.init (World.init registry)) schedule) (e : Record)
    (hl : (system engine env registry schedule).state.store.messages.lookup id = some e)
    (hq : e.msg.queue = queue) : Governed engine env k (system engine env registry schedule) e := by
  obtain ⟨hdisc, hwithin, hregistry⟩ := Config.after_rule
    (fun op hop w _ => thread_safe (fun _ ha => ha) hinj hop w)
    (fun w es e hw he hc (h : Within engine env id w es ∧ w.registry = registry) =>
      ⟨within_step hw he hc h.1, (allowed_keeps w e hw he).2.registry.trans h.2⟩) schedule
    (Config.init (World.init registry))
    (Config.init_disciplined (discipline engine env (GivesUp engine)) (init_sound registry))
    (fun op hm => (hops op hm).fits) hcurrent ⟨init_within engine env registry id, rfl⟩
  have hsound : Sound (system engine env registry schedule).state := hdisc.inv
  have hone : 1 ≤ k := hpolicy ▸ Retry.Policy.one_le_maxAttempts engine.valid
  have hlim : Limited k e.msg := hpolicy ▸ hwithin.limited e hl
  have hclaims : (claims (system engine env registry schedule).events id : ℤ) ≤
      attemptsOf ((system engine env registry schedule).state.store.messages.lookup id) :=
    hwithin.claims_le
  rw [hl] at hclaims
  have hstamp : e.msg.maxAttempts = k := by
    obtain ⟨-, name, q, hlookup, hname, hmax⟩ := hsound.stamped id e hl
    have hreg : (system engine env registry schedule).state.registry = registry := hregistry
    rw [hreg] at hlookup
    exact hmax.trans (hqueue name q hlookup (hname.symm.trans hq))
  have hexhausted := exhausted_iff hone hstamp
  obtain rfl : e.msg.id = id := hsound.keyed id e hl
  exact
    { stamped := hstamp
      claims_le := hclaims.trans hlim.attempts_le
      waiting := fun hw => by
        have hlt := hlim.waiting hw
        rw [← Bool.not_eq_true, hexhausted]
        omega
      deadLettered := fun hd => ⟨hexhausted.mpr (hlim.deadLettered hd).ge, hlim.deadLettered hd⟩
      fails := fun hp op hf => by
        obtain ⟨e', hr, ha, hs, hiff⟩ :=
          concluded_of_fails engine hinj hwithin.healthy hl hp hf
        rw [hpolicy] at hiff
        exact ⟨e', hr, ha, hs, hiff.trans hexhausted.symm⟩ }

/-- A message fails as often as it is pulled, `n` times. -/
def failsEachTime : ℕ → List (Action Op)
  | 0 => Action.begin (.publish order) 0 6
  | n + 1 => failsEachTime n ++ Action.begin (.pull ⟨"orders", "a", 1, 10⟩) (2 * n + 1) 4 ++
      Action.begin (.nack "|" "" false (n + 1)) (2 * n + 2) 8

/-- The policy allows `n` attempts and the queue `k`; the message fails each time. -/
def failing (n : ℤ) (hn : 1 ≤ n) (k : ℤ) (times : ℕ) : Config World Effect Effect.Reply :=
  system (ordersEngine n hn) steadyEnv (ordersRegistry k) (failsEachTime times)

theorem queue_limit_governs_twoAttempts :
    ∃ e, (failing 2 (by decide) 2 2).state.store.messages.lookup "|" = some e ∧
      e.msg.state = .deadLettered ∧
      Governed (ordersEngine 2 (by decide)) steadyEnv 2 (failing 2 (by decide) 2 2) e := by
  have hrecord : ((failing 2 (by decide) 2 2).state.store.messages.lookup "|").map
      (fun e => (e.msg.state, e.msg.queue)) = some (.deadLettered, "orders") := by
    decide +kernel
  obtain ⟨e, hl, he⟩ := Option.map_eq_some_iff.mp hrecord
  obtain ⟨hs, hq⟩ := Prod.mk.inj he
  have hqueue : ∀ name q, (ordersRegistry 2).queues.lookup name = some q → q.name = "orders" →
      q.maxAttempts = 2 := by
    intro name q hlookup _
    rw [(ordersRegistry_lookup hlookup).2]
  have hops : ∀ op, .start op ∈ failsEachTime 2 → op.Transient := by
    simp [failsEachTime, Action.begin, Action.steps, Op.Transient]
  exact ⟨e, hl, hs, queue_limit_governs (ordersEngine 2 (by decide)) steadyEnv
    (ordersEnv_injective []) (ordersRegistry 2) "orders" 2 hqueue rfl (failsEachTime 2) hops "|"
    (by decide +kernel) e hl hq⟩

/-- With three attempts by the policy and two by the queue, the third attempt is handed out. -/
theorem queue_limit_governs_policyDiffers :
    ∃ e, (failing 3 (by decide) 2 3).state.store.messages.lookup "|" = some e ∧
      e.msg.queue = "orders" ∧ e.msg.maxAttempts = 2 ∧
      ¬ Governed (ordersEngine 3 (by decide)) steadyEnv 2 (failing 3 (by decide) 2 3) e := by
  have hrecord : ((failing 3 (by decide) 2 3).state.store.messages.lookup "|").map
      (fun e => (e.msg.id, e.msg.queue, e.msg.maxAttempts)) = some ("|", "orders", 2) := by
    decide +kernel
  obtain ⟨e, hl, he⟩ := Option.map_eq_some_iff.mp hrecord
  obtain ⟨hid, hq, hmax⟩ : e.msg.id = "|" ∧ e.msg.queue = "orders" ∧ e.msg.maxAttempts = 2 := by
    simpa using he
  refine ⟨e, hl, hq, hmax, fun hgov => ?_⟩
  have hthree : claims (failing 3 (by decide) 2 3).events "|" = 3 := by decide +kernel
  have hle := hgov.claims_le
  rw [hid, hthree] at hle
  exact absurd hle (by decide)

end RabbitmqLite.Engine
