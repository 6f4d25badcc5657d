import RabbitmqLite.Engine.View

/-! # Operations that run alone

What each program of the engine does to the views of all messages when nothing
else happens while it runs.
-/

namespace RabbitmqLite.Engine
open Broker Collections Storage Atomic
open Memory (Record RecordStep Handled exec_recordStep exec_letterStep)

section Becomes
variable (env : Env)

/-- The store is open and holds nothing that a run could not have put there. -/
structure Healthy (w : World) : Prop where
  keyed : w.store.Keyed
  opened : w.store.closed = false
  states : ∀ id e, w.store.messages.lookup id = some e → e.msg.state.Resting
  letters : ∀ id letter, w.store.deadLetters.lookup id = some letter → Used env w id

/-- The store is open, keeps each message under its own id, and has no letter under an id that is
still to be generated. -/
structure Serviceable (w : World) : Prop where
  keyed : w.store.Keyed
  opened : w.store.closed = false
  fresh : ∀ n, w.ids ≤ n → w.store.deadLetters.lookup (env.newID n) = none

/-- From a world to a later one, in which every view has changed by a function of it. -/
structure Becomes (w w' : World) (f : String → View → View) : Prop where
  healthy : Healthy env w'
  registry : w'.registry = w.registry
  ids : w.ids ≤ w'.ids
  tasks : ∀ consumer, ∀ d ∈ w'.tasks consumer,
    d ∈ w.tasks consumer ∨ Used env w' d.message.id
  view : ∀ x, w'.view x = f x (w.view x)

/-- Nothing changes in any view. -/
def still : String → View → View := fun _ v => v

variable {env}

/-- The worlds of all runs are serviceable. -/
theorem Healthy.serviceable (hinj : Function.Injective env.newID) {w : World}
    (h : Healthy env w) : Serviceable env w where
  keyed := h.keyed
  opened := h.opened
  fresh := by
    intro n hn
    cases hl : w.store.deadLetters.lookup (env.newID n) with
    | none => rfl
    | some letter =>
      obtain ⟨i, hi, hid⟩ := h.letters _ letter hl
      have heq : i = n := hinj hid
      omega

theorem Becomes.congr {w w' : World} {f g : String → View → View} (h : Becomes env w w' f)
    (hfg : ∀ x, f x (w.view x) = g x (w.view x)) : Becomes env w w' g where
  healthy := h.healthy
  registry := h.registry
  ids := h.ids
  tasks := h.tasks
  view := fun x => (h.view x).trans (hfg x)

theorem Becomes.trans {w w' w'' : World} {f g : String → View → View} (h : Becomes env w w' f)
    (h' : Becomes env w' w'' g) : Becomes env w w'' (fun x v => g x (f x v)) where
  healthy := h'.healthy
  registry := h'.registry.trans h.registry
  ids := h.ids.trans h'.ids
  tasks := by
    intro consumer d hd
    rcases h'.tasks consumer d hd with hd | hd
    · exact (h.tasks consumer d hd).imp_right (fun hu => hu.mono h'.ids)
    · exact Or.inr hd
  view := by
    intro x
    rw [h'.view x, h.view x]

theorem Becomes.trans_onlyAt {w w' w'' : World} {id : String} {f g : View → View}
    (h : Becomes env w w' (onlyAt id f)) (h' : Becomes env w' w'' (onlyAt id g)) :
    Becomes env w w'' (onlyAt id (fun v => g (f v))) :=
  onlyAt_onlyAt id f g ▸ h.trans h'

/-- Only what is made of the one view matters. -/
theorem Becomes.congr_onlyAt {w w' : World} {id : String} {f g : View → View}
    (h : Becomes env w w' (onlyAt id f)) (hfg : f (w.view id) = g (w.view id)) :
    Becomes env w w' (onlyAt id g) := by
  apply h.congr
  intro x
  by_cases hx : x = id
  · subst hx
    rw [onlyAt_self, onlyAt_self, hfg]
  · rw [onlyAt_of_ne hx, onlyAt_of_ne hx]

/-- A settled view and the event that is written about it. -/
theorem Becomes.recorded {w w' w'' : World} {id : String} {change : Message → Message}
    {events : List HistoryEvent} (h : Becomes env w w' (onlyAt id (View.settled change [])))
    (hp : (w.view id).Leased) (h' : Becomes env w' w'' (onlyAt id (View.recorded events))) :
    Becomes env w w'' (onlyAt id (View.settled change events)) := by
  apply (h.trans_onlyAt h').congr_onlyAt
  simpa using View.recorded_settled hp change [] events

/-- A message that is not in processing is not settled, whatever is written otherwise. -/
theorem Becomes.refused {w w' : World} {id : String} {change : Message → Message}
    (h : Becomes env w w' (onlyAt id (View.settled change []))) (hp : ¬ (w.view id).Leased)
    (events : List HistoryEvent) : Becomes env w w' (onlyAt id (View.settled change events)) := by
  apply h.congr_onlyAt
  rw [View.settled_of_not_leased hp, View.settled_of_not_leased hp]

theorem Healthy.of_store_eq {w w' : World} (h : Healthy env w) (hs : w'.store = w.store)
    (hi : w.ids ≤ w'.ids) : Healthy env w' where
  keyed := hs ▸ h.keyed
  opened := hs ▸ h.opened
  states := hs ▸ h.states
  letters := fun id letter hl => (h.letters id letter (hs ▸ hl)).mono hi

theorem Becomes.of_store_eq {w w' : World} (h : Healthy env w) (hs : w'.store = w.store)
    (hr : w'.registry = w.registry) (hi : w.ids ≤ w'.ids)
    (ht : ∀ consumer, ∀ d ∈ w'.tasks consumer, d ∈ w.tasks consumer ∨ Used env w' d.message.id) :
    Becomes env w w' still where
  healthy := h.of_store_eq hs hi
  registry := hr
  ids := hi
  tasks := ht
  view := fun x => by rw [World.view, hs]; rfl

theorem Becomes.refl {w : World} (h : Healthy env w) : Becomes env w w still :=
  Becomes.of_store_eq h rfl rfl le_rfl (fun _ _ hd => Or.inl hd)

/-- The calls of the engine keep the store healthy. -/
theorem Healthy.callStore {w : World} (h : Healthy env w) {c : Call} (hc : c ≠ .close)
    (happ : ∀ msgs, c = .append msgs → ∀ msg ∈ msgs, msg.state = .queued)
    (hsave : ∀ entry newID, c = .saveDeadLetter entry newID →
      Used env w (Memory.filed entry newID).id) : Healthy env (w.callStore c).2 where
  keyed := Memory.exec_keyed h.keyed c
  opened := (Memory.exec_closed hc w.store).trans h.opened
  states := by
    intro id e he
    have hs := exec_recordStep h.keyed c id
    have he' : (Memory.exec c w.store).2.messages.lookup id = some e := he
    rw [he'] at hs
    cases hr : w.store.messages.lookup id with
    | none =>
      rw [hr] at hs
      obtain ⟨msgs, msg, rfl, -, hm, -, rfl⟩ := hs.of_none
      simp [Memory.unleased, happ msgs rfl msg hm, State.Resting]
    | some old =>
      rw [hr] at hs
      exact RecordStep.states hs (h.states id old hr)
  letters := by
    intro id letter hl
    have hs := exec_letterStep c w.store id
    have hl' : (Memory.exec c w.store).2.deadLetters.lookup id = some letter := hl
    rw [hl'] at hs
    cases hr : w.store.deadLetters.lookup id with
    | none =>
      rw [hr] at hs
      obtain ⟨entry, newID, rfl, hid⟩ := hs.of_none
      exact hid ▸ hsave entry newID rfl
    | some old => exact h.letters id old hr

/-- A store call whose effect on the views is known. -/
theorem Becomes.callStore {w : World} {c : Call} {f : String → View → View}
    (h : Healthy env (w.callStore c).2)
    (hv : ∀ x, viewOf (Memory.exec c w.store).2 x = f x (viewOf w.store x)) :
    Becomes env w (w.callStore c).2 f where
  healthy := h
  registry := rfl
  ids := le_rfl
  tasks := fun _ _ hd => Or.inl hd
  view := hv

end Becomes

section Rules
variable (env : Env) {α β : Type}

/-- Run alone from this world, the program ends with this knowledge. -/
def Runs (p : Program α) (w : World) (K : α → World → Prop) : Prop :=
  K (p.run (perform env) w).1 (p.run (perform env) w).2

variable {env}

theorem Runs.pure {a : α} {w : World} {K : α → World → Prop} (h : K a w) :
    Runs env (Pure.pure a) w K := h

theorem Runs.bind {p : Program α} {f : α → Program β} {w : World} {K : α → World → Prop}
    {K' : β → World → Prop} (hp : Runs env p w K) (hf : ∀ a w', K a w' → Runs env (f a) w' K') :
    Runs env (p >>= f) w K' := by
  unfold Runs
  rw [Prog.run_bind]
  exact hf _ _ hp

theorem Runs.both {p : Program α} {w : World} {K K' : α → World → Prop} (hp : Runs env p w K)
    (hp' : Runs env p w K') : Runs env p w (fun a w' => K a w' ∧ K' a w') := ⟨hp, hp'⟩

/-- Ids and readings of the clock are used up and not returned. -/
theorem run_counters_le (p : Program α) (w : World) :
    w.ids ≤ (p.run (perform env) w).2.ids ∧ w.ticks ≤ (p.run (perform env) w).2.ticks := by
  induction p generalizing w with
  | ret a => exact ⟨le_rfl, le_rfl⟩
  | call e next ih =>
    obtain ⟨hids, hticks⟩ := ih (perform env e w).1 (perform env e w).2
    rw [perform_ids] at hids
    rw [perform_ticks] at hticks
    constructor
    · refine le_trans ?_ hids
      split_ifs
      · exact Nat.le_succ w.ids
      · exact le_rfl
    · refine le_trans ?_ hticks
      split_ifs
      · exact Nat.le_succ w.ticks
      · exact le_rfl

theorem Runs.mono {p : Program α} {w : World} {K K' : α → World → Prop} (hp : Runs env p w K)
    (himp : ∀ a w', K a w' → K' a w') : Runs env p w K' := himp _ _ hp

end Rules

variable {engine : Engine} {env : Env}

/-! ## Single effects -/

theorem clock_runs {w : World} (h : Healthy env w) :
    Runs env clock w (fun _ w' => Becomes env w w' still) :=
  Becomes.of_store_eq h rfl rfl le_rfl (fun _ _ hd => Or.inl hd)

/-- The reading is the next one. -/
theorem clock_reads (w : World) :
    Runs env clock w (fun now w' => now = env.clock w.ticks ∧ w'.ticks = w.ticks + 1) := ⟨rfl, rfl⟩

theorem notify_runs {w : World} (h : Healthy env w) (queues : List String) :
    Runs env (notify queues) w (fun _ w' => Becomes env w w' still) :=
  Becomes.of_store_eq h rfl rfl le_rfl (fun _ _ hd => Or.inl hd)

/-- A generated id is new, and no letter has it. -/
theorem newID_runs (hinj : Function.Injective env.newID) {w : World} (h : Healthy env w) :
    Runs env newID w (fun id w' => Becomes env w w' still ∧ Used env w' id ∧ ¬ Used env w id ∧
      w'.store.deadLetters.lookup id = none) := by
  have hnew : ¬ Used env w (env.newID w.ids) := by
    rintro ⟨i, hi, hid⟩
    exact absurd (hinj hid) (Nat.ne_of_lt hi)
  refine ⟨?_, ⟨w.ids, Nat.lt_succ_self w.ids, rfl⟩, hnew, (h.serviceable hinj).fresh w.ids le_rfl⟩
  exact Becomes.of_store_eq h rfl rfl (Nat.le_succ w.ids) (fun _ _ hd => Or.inl hd)

theorem recordHistory_runs {w : World} (h : Healthy env w) (event : HistoryEvent) :
    Runs env (recordHistory event) w
      (fun _ w' => Becomes env w w' (onlyAt event.messageID (View.recorded [event]))) :=
  Becomes.callStore (h.callStore (by simp) (by simp) (by simp))
    (viewOf_appendHistory h.opened event)

theorem settle_runs {w : World} (h : Healthy env w) {c : Call} {id : String}
    {change : Message → Message} (hc : settling c = some (id, change)) (party : Party)
    (attempt : ℤ) :
    Runs env (settle party attempt c) w (fun reply w' =>
      Becomes env w w' (onlyAt id (View.settled change [])) ∧
        (Handled c reply id ↔ (w.view id).Leased)) := by
  have hs := exec_settledAs hc (fun e hr => (h.states id e hr).ne_failed)
  refine ⟨Becomes.callStore (h.callStore ?_ ?_ ?_) hs.view, hs.succeeded_iff⟩
  · rintro rfl
    cases hc
  · rintro msgs rfl
    cases hc
  · rintro entry newID rfl
    cases hc

theorem message_runs {w : World} (h : Healthy env w) (id : String) :
    Runs env (store (.message id)) w (fun reply w' => Becomes env w w' still ∧
      match reply with
      | .error _ => (w.view id).record = none
      | .ok msg => ∃ e, (w.view id).record = some e ∧ e.msg = msg) := by
  simp only [Runs, store, Prog.run_perform, perform, World.callStore, Memory.exec,
    Memory.Store.message]
  cases hl : w.store.messages.lookup id with
  | none => exact ⟨Becomes.refl h, hl⟩
  | some e => exact ⟨Becomes.refl h, e, hl, rfl⟩

/-- Without a record there is nothing to settle. -/
theorem Becomes.unknown {w w' : World} {id : String} (h : Becomes env w w' still)
    (hn : (w.view id).record = none) (change : Message → Message) (events : List HistoryEvent) :
    Becomes env w w' (onlyAt id (View.settled change events)) := by
  apply h.congr
  intro x
  by_cases hx : x = id
  · subst hx
    simp [still, View.settled, hn]
  · rw [onlyAt_of_ne hx, still]

/-! ## Acknowledging and requeueing -/

theorem ack_runs {w : World} (h : Healthy env w) (id : String) (held : ℤ) :
    Runs env (ack id held) w (fun _ w' => ∃ queue now, Becomes env w w' (onlyAt id
      (View.settled (fun msg => Memory.acknowledged msg now)
        [⟨id, queue, .processing, .acknowledged, "", "", now⟩]))) := by
  apply (message_runs h id).bind
  rintro reply w₁ ⟨h₁, hmsg⟩
  cases reply with
  | error e => exact Runs.pure ⟨"", 0, h₁.unknown hmsg _ _⟩
  | ok msg =>
    apply (clock_runs h₁.healthy).bind
    intro now w₂ h₂
    have h₁₂ : Becomes env w w₂ still := h₁.trans h₂
    apply (settle_runs h₂.healthy rfl _ _).bind
    rintro reply w₃ ⟨h₃, hok⟩
    rw [h₁₂.view id] at hok
    cases reply with
    | error e => exact Runs.pure ⟨msg.queue, now, (h₁₂.trans h₃).refused hok.mpr _⟩
    | ok u =>
      apply (recordHistory_runs h₃.healthy _).bind
      intro _ w₄ h₄
      exact Runs.pure ⟨msg.queue, now, (h₁₂.trans h₃).recorded (hok.mp rfl) h₄⟩

/-- The view of a message that is given back to its queue. -/
def requeuedBy (id queue reason : String) (now : Time) : View → View :=
  View.settled (fun msg => Memory.released msg now)
    [⟨id, queue, .processing, .queued, "", reason, now⟩]

theorem acknowledge_runs {w : World} (h : Healthy env w) (consumer : ConsumerSpec)
    (delivery : Delivery) :
    Runs env (acknowledge consumer delivery) w (fun _ w' => ∃ now,
      Becomes env w w' (onlyAt delivery.message.id
        (View.settled (fun msg => Memory.acknowledged msg now) [⟨delivery.message.id,
          delivery.queue, .processing, .acknowledged, consumer.name, "", now⟩]))) := by
  apply (clock_runs h).bind
  intro now w₁ h₁
  apply (settle_runs h₁.healthy rfl _ _).bind
  rintro reply w₂ ⟨h₂, hok⟩
  rw [h₁.view] at hok
  cases reply with
  | error e => exact Runs.pure ⟨now, (h₁.trans h₂).refused hok.mpr _⟩
  | ok u =>
    apply (recordHistory_runs h₂.healthy _).mono
    intro _ w₃ h₃
    exact ⟨now, (h₁.trans h₂).recorded (hok.mp rfl) h₃⟩

theorem requeueExpired_runs {w : World} (h : Healthy env w) (msg : Message) (now : Time) :
    Runs env (requeueExpired msg now) w (fun _ w' => Becomes env w w'
      (onlyAt msg.id (requeuedBy msg.id msg.queue Cause.leaseExpired.text now))) := by
  apply (settle_runs h rfl _ _).bind
  rintro reply w₁ ⟨h₁, hok⟩
  cases reply with
  | error e => exact Runs.pure (h₁.refused hok.mpr _)
  | ok u =>
    apply (recordHistory_runs h₁.healthy _).bind
    intro _ w₂ h₂
    exact Runs.pure (h₁.recorded (hok.mp rfl) h₂)

/-! ## Failures -/

/-- The view of a message whose failure is followed by a retry. -/
def retriedBy (consumer : String) (delivery : Delivery) (cause : Cause) (availableAt now : Time) :
    View → View :=
  View.settled (fun msg => Memory.retried msg
      { id := delivery.message.id
        attempt := delivery.attempt
        reason := cause.text
        availableAt := availableAt
        now := now })
    [⟨delivery.message.id, delivery.queue, .failed, .retrying, consumer, cause.text, now⟩]

/-- The view of a message the engine has given up on: the letter is saved in any case. -/
def buriedBy (consumer : String) (delivery : Delivery) (cause : Cause) (letter : DeadLetter)
    (now : Time) (v : View) : View :=
  (v.filed letter).settled (fun msg => Memory.deadLettered msg cause.text now)
    [⟨delivery.message.id, delivery.queue, .failed, .deadLettered, consumer, cause.text, now⟩]

/-- The time of the first event that marks a failure. -/
def failedSince (events : List HistoryEvent) (fallback : Time) : Time :=
  ((firstFailure events).map HistoryEvent.time).getD fallback

/-- The same, with the letter that is saved: it takes the time of the first failure from the
history. -/
def buriedSince (consumer : String) (delivery : Delivery) (cause : Cause) (id : String)
    (now : Time) (v : View) : View :=
  buriedBy consumer delivery cause
    { letterOf delivery cause (failedSince v.history now) now with id := id } now v

theorem firstFailureAt_runs (w : World) (id : String) (fallback : Time) :
    Runs env (firstFailureAt id fallback) w (fun time w' =>
      time = failedSince (w.view id).history fallback ∧ w = w') := by
  have hread : Runs env (store (.history id)) w (fun reply w' =>
      reply = .ok (w.view id).history ∧ w = w') := ⟨rfl, rfl⟩
  apply hread.bind
  rintro _ w₁ ⟨rfl, h₁⟩
  dsimp only
  unfold failedSince
  cases firstFailure (w.view id).history with
  | none => exact Runs.pure ⟨rfl, h₁⟩
  | some event => exact Runs.pure ⟨rfl, h₁⟩

/-- A letter without an id is saved under the generated one. -/
theorem saveDeadLetter_runs {w : World} (h : Healthy env w) (letter : DeadLetter) {id : String}
    (hid : letter.id = "") (hu : Used env w id) (hn : w.store.deadLetters.lookup id = none) :
    Runs env (store (.saveDeadLetter letter id)) w (fun reply w' => reply = .ok () ∧
      Becomes env w w' (onlyAt letter.messageID (View.filed { letter with id := id }))) := by
  obtain ⟨hok, hv⟩ := saveDeadLetter_of_fresh h.opened hid hn
  refine ⟨hok, Becomes.callStore (h.callStore (by simp) (by simp) ?_) hv⟩
  rintro entry newID heq
  obtain ⟨rfl, rfl⟩ := Call.saveDeadLetter.inj heq
  rw [Memory.filed_of_unnamed hid]
  exact hu

theorem deadLetter_runs (hinj : Function.Injective env.newID) {w : World} (h : Healthy env w)
    (party : Party) (consumer : String) (delivery : Delivery) (cause : Cause) (now : Time) :
    Runs env (deadLetter party consumer delivery cause now) w (fun _ w' => ∃ id,
      ¬ Used env w id ∧ Becomes env w w' (onlyAt delivery.message.id
        (buriedSince consumer delivery cause id now))) := by
  apply (firstFailureAt_runs w _ now).bind
  rintro _ _ ⟨rfl, rfl⟩
  apply (newID_runs hinj h).bind
  rintro id w₂ ⟨h₂, hu, hnew, hn⟩
  let letter := letterOf delivery cause
    (failedSince (w.view delivery.message.id).history now) now
  apply (saveDeadLetter_runs h₂.healthy letter rfl hu hn).bind
  rintro reply w₃ ⟨rfl, h₃⟩
  have h₁₃ : Becomes env w w₃ (onlyAt delivery.message.id
      (View.filed { letter with id := id })) := h₂.trans h₃
  have hsince : ∀ w', Becomes env w w' (onlyAt delivery.message.id
      (buriedBy consumer delivery cause { letter with id := id } now)) →
      Becomes env w w'
        (onlyAt delivery.message.id (buriedSince consumer delivery cause id now)) := by
    intro w' hb
    exact hb.congr_onlyAt rfl
  apply (settle_runs h₃.healthy rfl _ _).bind
  rintro reply w₄ ⟨h₄, hok⟩
  cases reply with
  | error e =>
    exact Runs.pure ⟨id, hnew, hsince w₄ (h₁₃.trans_onlyAt (h₄.refused hok.mpr _))⟩
  | ok u =>
    apply (recordHistory_runs h₄.healthy _).mono
    intro _ w₅ h₅
    exact ⟨id, hnew, hsince w₅ (h₁₃.trans_onlyAt (h₄.recorded (hok.mp rfl) h₅))⟩

theorem nextAttemptAt_runs {w : World} (h : Healthy env w) (now : Time) (attempt : ℤ) :
    Runs env (nextAttemptAt engine.policy now attempt) w
      (fun _ w' => Becomes env w w' still) := by
  unfold nextAttemptAt
  split_ifs
  · exact Runs.pure (Becomes.refl h)
  · have hdraw : Runs env (Prog.perform Effect.float64) w (fun _ w' => Becomes env w w' still) :=
      Becomes.of_store_eq h rfl rfl le_rfl (fun _ _ hd => Or.inl hd)
    exact hdraw.bind (fun _ _ h₁ => Runs.pure h₁)

/-- Whether the engine tries a message again after this failure. -/
def retryable (engine : Engine) (cause : Cause) (attempt : ℤ) : Bool :=
  !isPermanent cause && engine.policy.shouldRetry attempt

theorem fail_runs_of_retryable {w : World} (h : Healthy env w) (party : Party)
    (consumer : String) (delivery : Delivery) {cause : Cause}
    (hr : retryable engine cause delivery.attempt = true) :
    Runs env (fail engine party consumer delivery cause) w (fun _ w' => ∃ availableAt,
      Becomes env w w' (onlyAt delivery.message.id
        (retriedBy consumer delivery cause availableAt (env.clock w.ticks)))) := by
  apply ((clock_runs h).both (clock_reads w)).bind
  rintro now w₁ ⟨h₁, rfl, -⟩
  unfold retryable at hr
  simp only [hr, Bool.not_true, Bool.false_eq_true, if_false]
  apply (nextAttemptAt_runs h₁.healthy _ delivery.attempt).bind
  intro availableAt w₂ h₂
  have h₁₂ : Becomes env w w₂ still := h₁.trans h₂
  apply (settle_runs h₂.healthy rfl _ _).bind
  rintro reply w₃ ⟨h₃, hok⟩
  rw [h₁₂.view] at hok
  cases reply with
  | error e => exact Runs.pure ⟨availableAt, (h₁₂.trans h₃).refused hok.mpr _⟩
  | ok u =>
    apply (recordHistory_runs h₃.healthy _).mono
    intro _ w₄ h₄
    exact ⟨availableAt, (h₁₂.trans h₃).recorded (hok.mp rfl) h₄⟩

theorem fail_runs_of_not_retryable (hinj : Function.Injective env.newID) {w : World}
    (h : Healthy env w) (party : Party) (consumer : String) (delivery : Delivery) {cause : Cause}
    (hr : retryable engine cause delivery.attempt = false) :
    Runs env (fail engine party consumer delivery cause) w (fun _ w' => ∃ id,
      ¬ Used env w id ∧ Becomes env w w' (onlyAt delivery.message.id
        (buriedSince consumer delivery cause id (env.clock w.ticks)))) := by
  apply ((clock_runs h).both (clock_reads w)).bind
  rintro now w₁ ⟨h₁, rfl, -⟩
  unfold retryable at hr
  simp only [hr, Bool.not_false, if_true]
  apply (deadLetter_runs hinj h₁.healthy party consumer delivery cause _).mono
  rintro _ w₂ ⟨id, hnew, h₂⟩
  exact ⟨id, fun hused => hnew (hused.mono h₁.ids), h₁.trans h₂⟩

theorem nack_runs_requeue {w : World} (h : Healthy env w) (id reason : String) (held : ℤ) :
    Runs env (nack engine id reason true held) w (fun _ w' => ∃ queue reason now,
      Becomes env w w' (onlyAt id (requeuedBy id queue reason now))) := by
  apply (message_runs h id).bind
  rintro reply w₁ ⟨h₁, hmsg⟩
  cases reply with
  | error e => exact Runs.pure ⟨"", "", 0, h₁.unknown hmsg _ _⟩
  | ok msg =>
    dsimp only
    rw [if_pos rfl]
    apply (clock_runs h₁.healthy).bind
    intro now w₂ h₂
    have h₁₂ : Becomes env w w₂ still := h₁.trans h₂
    apply (settle_runs h₂.healthy rfl _ _).bind
    rintro reply w₃ ⟨h₃, hok⟩
    rw [h₁₂.view id] at hok
    cases reply with
    | error e => exact Runs.pure ⟨msg.queue, reason, now, (h₁₂.trans h₃).refused hok.mpr _⟩
    | ok u =>
      apply (recordHistory_runs h₃.healthy _).bind
      intro _ w₄ h₄
      apply (notify_runs h₄.healthy _).bind
      intro _ w₅ h₅
      exact Runs.pure ⟨msg.queue, _, now, ((h₁₂.trans h₃).recorded (hok.mp rfl) h₄).trans h₅⟩

/-- What a failure makes of the view of its message. -/
def FailedBy (engine : Engine) (consumer : String) (delivery : Delivery) (cause : Cause)
    (g : View → View) : Prop :=
  if retryable engine cause delivery.attempt then
    ∃ availableAt now, g = retriedBy consumer delivery cause availableAt now
  else ∃ firstFailedAt now id,
    g = buriedBy consumer delivery cause
      { letterOf delivery cause firstFailedAt now with id := id } now

/-- The same with the time of the failure, which the letter takes over if the history knows of
no earlier one. The letter has an id that was not used before. -/
def FailedAt (engine : Engine) (env : Env) (w : World) (now : Time) (consumer : String)
    (delivery : Delivery) (cause : Cause) (g : View → View) : Prop :=
  if retryable engine cause delivery.attempt then
    ∃ availableAt, g = retriedBy consumer delivery cause availableAt now
  else ∃ id, ¬ Used env w id ∧ g = buriedSince consumer delivery cause id now

theorem FailedAt.mono {w w' : World} {now : Time} {consumer : String} {delivery : Delivery}
    {cause : Cause} {g : View → View} (h : FailedAt engine env w' now consumer delivery cause g)
    (hi : w.ids ≤ w'.ids) : FailedAt engine env w now consumer delivery cause g := by
  unfold FailedAt at h ⊢
  split_ifs at h ⊢
  · exact h
  · exact h.imp (fun id hid => ⟨fun hused => hid.1 (hused.mono hi), hid.2⟩)

theorem FailedAt.failedBy {w : World} {now : Time} {consumer : String} {delivery : Delivery}
    {cause : Cause} {g : View → View} (h : FailedAt engine env w now consumer delivery cause g)
    (v : View) :
    ∃ g', FailedBy engine consumer delivery cause g' ∧ g' v = g v := by
  unfold FailedAt at h
  unfold FailedBy
  split_ifs at h ⊢ with hr
  · obtain ⟨availableAt, rfl⟩ := h
    exact ⟨_, ⟨availableAt, now, rfl⟩, rfl⟩
  · obtain ⟨id, -, rfl⟩ := h
    exact ⟨_, ⟨failedSince v.history now, now, id, rfl⟩, rfl⟩

theorem fail_runs (hinj : Function.Injective env.newID) {w : World} (h : Healthy env w)
    (party : Party) (consumer : String) (delivery : Delivery) (cause : Cause) :
    Runs env (fail engine party consumer delivery cause) w (fun _ w' => ∃ g,
      FailedAt engine env w (env.clock w.ticks) consumer delivery cause g ∧
        Becomes env w w' (onlyAt delivery.message.id g)) := by
  cases hr : retryable engine cause delivery.attempt with
  | true =>
    apply (fail_runs_of_retryable h party consumer delivery hr).mono
    rintro _ w' ⟨availableAt, h'⟩
    refine ⟨_, ?_, h'⟩
    rw [FailedAt, if_pos hr]
    exact ⟨availableAt, rfl⟩
  | false =>
    apply (fail_runs_of_not_retryable hinj h party consumer delivery hr).mono
    rintro _ w' ⟨id, hnew, h'⟩
    refine ⟨_, ?_, h'⟩
    rw [FailedAt, if_neg (by simp [hr])]
    exact ⟨id, hnew, rfl⟩

theorem nack_runs_fail (engine : Engine) (hinj : Function.Injective env.newID) {w : World}
    (h : Healthy env w) (id reason : String) (held : ℤ) :
    Runs env (nack engine id reason false held) w (fun _ w' =>
      ((w.view id).record = none ∧ Becomes env w w' still) ∨
      ∃ e text g, (w.view id).record = some e ∧
        FailedAt engine env w (env.clock w.ticks) "" ⟨e.msg, e.msg.attempts, e.msg.queue⟩
          (.failure text false) g ∧
        Becomes env w w' (onlyAt id g)) := by
  have hticks : Runs env (store (.message id)) w (fun _ w' => w'.ticks = w.ticks) := rfl
  apply ((message_runs h id).both hticks).bind
  rintro reply w₁ ⟨⟨h₁, hmsg⟩, ht⟩
  cases reply with
  | error e => exact Runs.pure (Or.inl ⟨hmsg, h₁⟩)
  | ok msg =>
    obtain ⟨e, hr, rfl⟩ := hmsg
    dsimp only
    rw [if_neg Bool.false_ne_true]
    apply (fail_runs hinj h₁.healthy _ _ _ _).bind
    rintro _ w₂ ⟨g, hg, h₂⟩
    rw [ht] at hg
    apply (notify_runs h₂.healthy _).bind
    intro _ w₃ h₃
    have hid : e.msg.id = id := h.keyed id e hr
    dsimp only at h₂
    rw [hid] at h₂
    exact Runs.pure (Or.inr ⟨e, _, g, hr, hg.mono h₁.ids, (h₁.trans h₂).trans h₃⟩)

end RabbitmqLite.Engine
