import RabbitmqLite.Engine.NoLoss
import RabbitmqLite.Engine.Runs

/-! # What a settlement over HTTP reports

`Ack` and `Nack` answer with an error or with none. An error should mean that
nothing has happened, and no error that the message was in the hands of a
consumer and has been settled. `Nack` without requeueing has no error to give
once it has found the message.
-/

namespace RabbitmqLite.Engine
open Broker Collections Storage Atomic

/-- The answer to a settlement is true of the stores before and after it. -/
def Reports (id : String) (targets : List State) (s s' : Memory.Store) :
    Except Error Unit → Prop
  | .ok _ => stateIn s id = some .processing ∧ ∃ target ∈ targets, stateIn s' id = some target
  | .error _ => s'.messages = s.messages ∧ s'.deadLetters = s.deadLetters ∧
      s'.deadOrder = s.deadOrder ∧ s'.history = s.history

/-- The failure of this attempt can be recorded: the message is tried again, or a letter
can be saved under the next id. -/
def Recordable (engine : Engine) (env : Env) (w : World) (attempt : ℤ) : Prop :=
  engine.policy.shouldRetry attempt = true ∨
    w.store.closed = false ∧ w.store.deadLetters.lookup (env.newID w.ids) = none

/-- The message is unknown, or it is leased and its failure can be recorded. -/
def Answerable (engine : Engine) (env : Env) (w : World) (id : String) : Prop :=
  w.store.messages.lookup id = none ∨
    ∃ e, w.store.messages.lookup id = some e ∧ e.msg.state = .processing ∧
      Recordable engine env w e.msg.attempts

/-! ## Single effects -/

variable {engine : Engine} {env : Env}

theorem stateIn_eq {s : Memory.Store} {id : String} {e : Memory.Record}
    (h : s.messages.lookup id = some e) : stateIn s id = some e.msg.state := by
  rw [stateIn, h]
  rfl

theorem stateIn_put (s : Memory.Store) (id : String) (e : Memory.Record) :
    stateIn (s.put id e) id = some e.msg.state :=
  stateIn_eq (by rw [Memory.Store.put_messages_lookup, if_pos rfl])

theorem recordHistory_stateIn (event : HistoryEvent) (w : World) (id : String) :
    Runs env (recordHistory event) w (fun _ w' => stateIn w'.store id = stateIn w.store id) := by
  simp only [Runs, recordHistory, store, Prog.run_bind, Prog.run_perform, Prog.run_pure, perform,
    World.callStore, Memory.exec, Memory.Store.appendHistory, Memory.Store.unlessClosed]
  split_ifs <;> rfl

theorem message_runs_any (id : String) (w : World) :
    Runs env (store (.message id)) w (fun reply w' => w' = w ∧
      match reply with
      | .error _ => w.store.messages.lookup id = none
      | .ok msg => ∃ e, w.store.messages.lookup id = some e ∧ e.msg = msg) := by
  simp only [Runs, store, Prog.run_perform, perform, World.callStore, Memory.exec,
    Memory.Store.message]
  cases hl : w.store.messages.lookup id with
  | none => exact ⟨rfl, rfl⟩
  | some e => exact ⟨rfl, e, rfl, rfl⟩

theorem clock_store (w : World) : Runs env clock w (fun _ w' => w'.store = w.store ∧
    w'.ids = w.ids) := ⟨rfl, rfl⟩

theorem settle_store (party : Party) (attempt : ℤ) (c : Call) (w : World) :
    Runs env (settle party attempt c) w
      (fun reply w' => (reply, w'.store) = Memory.exec c w.store) := rfl

/-- The reply of a call that requires the lease to be held: it has settled the message, or
it has failed and left the store as it was. -/
def Settles (id : String) (target : State) (s s' : Memory.Store) :
    Except Storage.Error Unit → Prop
  | .ok _ => stateIn s id = some .processing ∧ stateIn s' id = some target
  | .error _ => s' = s

theorem Settles.onLeased {s s' : Memory.Store} {id : String}
    {change : Memory.Record → Memory.Store} {target : State} {reply : Except Storage.Error Unit}
    (h : (reply, s') = s.onLeased id change) (hput : ∀ e, stateIn (change e) id = some target) :
    Settles id target s s' reply := by
  rcases s.onLeased_cases id change with ⟨e, hl, hp, h'⟩ | ⟨err, h'⟩
  · obtain ⟨rfl, rfl⟩ := Prod.mk.inj (h.trans h')
    exact ⟨by rw [stateIn_eq hl, hp], hput e⟩
  · obtain ⟨rfl, rfl⟩ := Prod.mk.inj (h.trans h')
    exact rfl

theorem Reports.refl (id : String) (targets : List State) (s : Memory.Store) (e : Error) :
    Reports id targets s s (.error e) := ⟨rfl, rfl, rfl, rfl⟩

/-- Every program leaves every record under the id of its message. -/
theorem run_keyed {α : Type} (p : Program α) {w : World} (hk : w.store.Keyed) :
    (p.run (perform env) w).2.store.Keyed := by
  induction p generalizing w with
  | ret a => exact hk
  | call e next ih =>
    apply ih
    rw [perform_store]
    cases e.call? with
    | none => exact hk
    | some c => exact Memory.exec_keyed hk c

/-! ## Settlements that check the lease -/

section PassedOn
variable {id : String} {target : State} {s s' : Memory.Store}

theorem Settles.reports_error {e : Storage.Error} (h : Settles id target s s' (.error e)) :
    Reports id [target] s s' (.error (.store e)) := by
  have hs : s' = s := h
  rw [hs]
  exact Reports.refl id _ _ _

theorem Settles.reports_ok {u : Unit} (h : Settles id target s s' (.ok u)) {w : World}
    (hw : stateIn w.store id = stateIn s' id) : Reports id [target] s w.store (.ok ()) :=
  ⟨h.1, target, List.mem_singleton_self target, hw.trans h.2⟩

end PassedOn

theorem ack_reports (id : String) (held : ℤ) (w : World) :
    Runs env (ack id held) w
      (fun reply w' => Reports id [.acknowledged] w.store w'.store reply) := by
  apply (message_runs_any id w).bind
  rintro reply w₁ ⟨rfl, -⟩
  cases reply with
  | error e => exact Runs.pure (Reports.refl id _ _ _)
  | ok msg =>
    apply (clock_store w₁).bind
    rintro now w₂ ⟨h₂, -⟩
    apply (settle_store _ _ _ w₂).bind
    intro reply w₃ h₃
    rw [h₂, Memory.exec, Memory.Store.acknowledge_eq] at h₃
    have hs := Settles.onLeased h₃ (fun e => stateIn_put _ id _)
    cases reply with
    | error e => exact Runs.pure hs.reports_error
    | ok u =>
      apply (recordHistory_stateIn _ w₃ id).bind
      intro _ w₄ h₄
      exact hs.reports_ok h₄

theorem nack_requeue_reports (id reason : String) (held : ℤ) (w : World) :
    Runs env (nack engine id reason true held) w
      (fun reply w' => Reports id [.queued] w.store w'.store reply) := by
  apply (message_runs_any id w).bind
  rintro reply w₁ ⟨rfl, -⟩
  cases reply with
  | error e => exact Runs.pure (Reports.refl id _ _ _)
  | ok msg =>
    apply (clock_store w₁).bind
    rintro now w₂ ⟨h₂, -⟩
    apply (settle_store _ _ _ w₂).bind
    intro reply w₃ h₃
    rw [h₂, Memory.exec, Memory.Store.release_eq] at h₃
    have hs := Settles.onLeased h₃ (fun e => stateIn_put _ id _)
    cases reply with
    | error e => exact Runs.pure hs.reports_error
    | ok u =>
      apply (recordHistory_stateIn _ w₃ id).bind
      intro _ w₄ h₄
      exact hs.reports_ok h₄

/-! ## Failures -/

section Failure
variable {w : World} {id : String} {e : Memory.Record}

theorem nextAttemptAt_store (policy : Retry.Policy) (now : Time) (attempt : ℤ) (w : World) :
    Runs env (nextAttemptAt policy now attempt) w (fun _ w' => w'.store = w.store) := by
  unfold nextAttemptAt
  split_ifs
  · exact Runs.pure rfl
  · exact rfl

theorem saveDeadLetter_outcome {s s' : Memory.Store} {letter : DeadLetter} {newID : String}
    {reply : Except Storage.Error Unit} (hid : letter.id = "")
    (h : (reply, s') = s.saveDeadLetter letter newID) :
    s'.messages = s.messages ∧
      (reply = .ok () ↔ s.closed = false ∧ s.deadLetters.lookup newID = none) := by
  have hfiled : Memory.filed letter newID = { letter with id := newID } := if_pos hid
  rw [Memory.Store.saveDeadLetter_eq, Memory.Store.unlessClosed, hfiled] at h
  cases hc : s.closed with
  | true =>
    rw [hc] at h
    obtain ⟨rfl, rfl⟩ := Prod.mk.inj h
    simp
  | false =>
    rw [hc] at h
    cases hn : s.deadLetters.lookup newID with
    | some d =>
      rw [hn] at h
      obtain ⟨rfl, rfl⟩ := Prod.mk.inj h
      simp
    | none =>
      rw [hn] at h
      obtain ⟨rfl, rfl⟩ := Prod.mk.inj h
      simp

/-- The message is marked only after its letter was saved. -/
theorem deadLetter_stateIn (hl : w.store.messages.lookup id = some e) (hid : e.msg.id = id)
    (hp : e.msg.state = .processing) (party : Party) (consumer : String) (attempt : ℤ)
    (queue : String) (cause : Cause) (now : Time) :
    Runs env (deadLetter party consumer ⟨e.msg, attempt, queue⟩ cause now) w (fun _ w' =>
      stateIn w'.store id =
        if w.store.closed = false ∧ w.store.deadLetters.lookup (env.newID w.ids) = none
        then some .deadLettered else some .processing) := by
  apply (firstFailureAt_runs w _ now).bind
  rintro firstFailedAt w₁ ⟨-, h⟩
  obtain rfl : w₁ = w := h.symm
  have hnew : Runs env newID w₁ (fun id w' => id = env.newID w₁.ids ∧ w'.store = w₁.store) :=
    ⟨rfl, rfl⟩
  apply hnew.bind
  rintro letterID w₂ ⟨rfl, h₂⟩
  have hsave : Runs env (store (.saveDeadLetter (letterOf ⟨e.msg, attempt, queue⟩ cause
      firstFailedAt now) (env.newID w₁.ids))) w₂ (fun reply w' => (reply, w'.store) =
        w₂.store.saveDeadLetter (letterOf ⟨e.msg, attempt, queue⟩ cause firstFailedAt now)
          (env.newID w₁.ids)) := rfl
  apply hsave.bind
  intro reply w₃ h₃
  obtain ⟨hm, hok⟩ := saveDeadLetter_outcome rfl h₃
  rw [h₂] at hm hok
  rw [← hm] at hl
  cases reply with
  | error err =>
    apply Runs.pure
    rw [stateIn_eq hl, hp, if_neg (fun hfree => by cases hok.mpr hfree)]
  | ok u =>
    rw [if_pos (hok.mp rfl)]
    apply (settle_store _ _ _ w₃).bind
    intro reply w₄ h₄
    rw [Memory.exec, Memory.Store.markDeadLettered_eq, hid, hl] at h₄
    simp only [hp, Memory.Doomable, true_or, if_true] at h₄
    obtain ⟨rfl, hs⟩ := Prod.mk.inj h₄
    apply (recordHistory_stateIn _ w₄ id).mono
    intro _ w₅ h₅
    rw [h₅, hs]
    exact stateIn_put _ id _

theorem retry_stateIn (hl : w.store.messages.lookup id = some e) (hid : e.msg.id = id)
    (hp : e.msg.state = .processing) (party : Party) (consumer queue reason : String)
    (hr : engine.policy.shouldRetry e.msg.attempts = true) :
    Runs env (fail engine party consumer ⟨e.msg, e.msg.attempts, queue⟩ (.failure reason false)) w
      (fun _ w' => stateIn w'.store id = some .retrying) := by
  apply (clock_store w).bind
  rintro now w₁ ⟨h₁, -⟩
  simp only [isPermanent, hr, Bool.not_false, Bool.and_self, Bool.not_true, Bool.false_eq_true,
    if_false]
  apply (nextAttemptAt_store _ now _ w₁).bind
  intro availableAt w₂ h₂
  apply (settle_store _ _ _ w₂).bind
  intro reply w₃ h₃
  rw [h₂, h₁, Memory.exec, Memory.Store.scheduleRetry_eq,
    Memory.Store.onLeased_of_processing (hid ▸ hl) hp] at h₃
  obtain ⟨rfl, hs⟩ := Prod.mk.inj h₃
  apply (recordHistory_stateIn _ w₃ id).mono
  intro _ w₄ h₄
  rw [h₄, hs, ← hid]
  exact stateIn_put _ _ _

/-- A failure of a leased message is recorded if that is possible. -/
theorem fail_stateIn (hl : w.store.messages.lookup id = some e) (hid : e.msg.id = id)
    (hp : e.msg.state = .processing) (party : Party) (consumer queue reason : String) :
    Runs env (fail engine party consumer ⟨e.msg, e.msg.attempts, queue⟩ (.failure reason false)) w
      (fun _ w' => (∃ target ∈ [State.retrying, .deadLettered], stateIn w'.store id = some target) ↔
        Recordable engine env w e.msg.attempts) := by
  unfold Recordable
  cases hr : engine.policy.shouldRetry e.msg.attempts with
  | true =>
    apply (retry_stateIn hl hid hp party consumer queue reason hr).mono
    intro _ w' h
    simp [h]
  | false =>
    apply (clock_store w).bind
    rintro now w₁ ⟨h₁, hids⟩
    simp only [isPermanent, hr, Bool.and_false, Bool.not_false, if_true]
    apply (deadLetter_stateIn (h₁ ▸ hl) hid hp party consumer e.msg.attempts queue _ now).mono
    intro _ w' h
    rw [h, h₁, hids]
    split_ifs with hfree <;> simp [hfree]

end Failure

/-- `Ack` and `Nack` with requeueing report what they did. `Nack` without requeueing does so
exactly if the message is unknown, or leased and its failure can be recorded. -/
theorem nack_reports_iff (engine : Engine) (env : Env) (w : World) (hk : w.store.Keyed)
    (id reason : String) (held : ℤ) :
    Reports id [.acknowledged] w.store (engine.exec env (.ack id held) w).2.store
        (engine.exec env (.ack id held) w).1 ∧
      Reports id [.queued] w.store (engine.exec env (.nack id reason true held) w).2.store
        (engine.exec env (.nack id reason true held) w).1 ∧
      (Reports id [.retrying, .deadLettered] w.store
          (engine.exec env (.nack id reason false held) w).2.store
          (engine.exec env (.nack id reason false held) w).1 ↔ Answerable engine env w id) := by
  refine ⟨ack_reports id held w, nack_requeue_reports id reason held w, ?_⟩
  change Runs env (nack engine id reason false held) w (fun reply w' =>
    Reports id [.retrying, .deadLettered] w.store w'.store reply ↔ Answerable engine env w id)
  apply (message_runs_any id w).bind
  rintro reply w₁ ⟨rfl, hmsg⟩
  cases reply with
  | error err => exact Runs.pure ⟨fun _ => Or.inl hmsg, fun _ => Reports.refl id _ _ _⟩
  | ok msg =>
    obtain ⟨e, hl, rfl⟩ := hmsg
    simp only [Answerable, hl, reduceCtorEq, false_or, Option.some.injEq, exists_eq_left',
      Bool.false_eq_true, if_false]
    by_cases hp : e.msg.state = .processing
    · apply (fail_stateIn hl (hk id e hl) hp _ _ _ _).bind
      intro _ w₂ h₂
      change (stateIn w₁.store id = some .processing ∧
        ∃ target ∈ [State.retrying, .deadLettered], stateIn w₂.store id = some target) ↔ _
      rw [stateIn_eq hl, hp, h₂, eq_self, true_and, eq_self, true_and]
    · have hany : Runs env (fail engine (.consumer held) "" ⟨e.msg, e.msg.attempts, e.msg.queue⟩
          (.failure (if reason = "" then "negatively acknowledged by consumer" else reason)
            false)) w₁ (fun _ _ => True) := trivial
      apply hany.bind
      intro _ w₂ _
      refine ⟨fun h => ?_, fun h => absurd h.1 hp⟩
      have hs : stateIn w₁.store id = some .processing := h.1
      rw [stateIn_eq hl] at hs
      exact absurd (Option.some.inj hs) hp

/-- A published order in the hands of a consumer. -/
def leasedOrder : World :=
  after ((ordersEngine 1 oneAttempt).exec steadyEnv) (World.init (ordersRegistry 1))
    [.publish order, .pull ⟨"orders", "till", 1, 30⟩]

theorem nack_reports_iff_leasedOrder :
    leasedOrder.store.Keyed ∧ stateIn leasedOrder.store "|" = some .processing ∧
      Reports "|" [.retrying, .deadLettered] leasedOrder.store
        ((ordersEngine 1 le_rfl).exec steadyEnv (.nack "|" "" false 1) leasedOrder).2.store
        ((ordersEngine 1 le_rfl).exec steadyEnv (.nack "|" "" false 1) leasedOrder).1 := by
  have hk : leasedOrder.store.Keyed := run_keyed _ (run_keyed _ Memory.new_keyed)
  have hs : stateIn leasedOrder.store "|" = some .processing := by decide +kernel
  obtain ⟨e, hl, hp⟩ := Option.map_eq_some_iff.mp hs
  refine ⟨hk, hs, (nack_reports_iff (ordersEngine 1 le_rfl) steadyEnv leasedOrder hk "|" ""
    1).2.2.mpr (Or.inr ⟨e, hl, hp, Or.inr ⟨?_, ?_⟩⟩)⟩
  · decide +kernel
  · decide +kernel

/-- An order that was acknowledged already is nacked: no error, and a letter is left behind. -/
theorem nack_reports_iff_acknowledgedOrder :
    let w := ((ordersEngine 1 le_rfl).exec steadyEnv (.ack "|" 1) leasedOrder).2
    let answer := (ordersEngine 1 le_rfl).exec steadyEnv (.nack "|" "" false 1) w
    stateIn w.store "|" = some .acknowledged ∧ w.store.deadOrder = [] ∧
      answer.1 = .ok () ∧ answer.2.store.deadOrder = ["||"] ∧
      ¬ Reports "|" [.retrying, .deadLettered] w.store answer.2.store answer.1 := by
  intro w answer
  have hs : stateIn w.store "|" = some .acknowledged := by decide +kernel
  have ha : answer.1 = .ok () := by decide +kernel
  refine ⟨hs, by decide +kernel, ha, by decide +kernel, ?_⟩
  rw [ha]
  intro h
  have hp : stateIn w.store "|" = some .processing := h.1
  rw [hs] at hp
  cases hp

end RabbitmqLite.Engine
