import RabbitmqLite.Engine.NoLoss
import RabbitmqLite.Engine.Runs

/-! # Publishing is all or nothing

A publication reaches all queues it is routed to or none of them. The checks of
all queues come before the one append; a check that fails leaves nothing but a
parked letter.
-/

namespace RabbitmqLite.Engine
open Broker Collections Storage Atomic

/-- The message of a publication for one queue, as it is stored. -/
def publishedMessage (id : String) (pub : Publication) (queue : Queue) (now : Time) : Message where
  id := id
  exchange := pub.exchange
  routingKey := pub.routingKey
  queue := queue.name
  schema := if pub.schema = "" then queue.schema else pub.schema
  payload := Payload.copied pub.payload
  headers := pub.headers
  state := .queued
  attempts := 0
  maxAttempts := queue.maxAttempts
  lastError := ""
  createdAt := now
  updatedAt := now
  availableAt := now

/-- The store after a publication that was refused: at most one letter was parked. -/
structure Refused (s s' : Memory.Store) (pub : Publication) : Prop where
  messages : s'.messages = s.messages
  order : s'.order = s.order
  settled : s'.settled = s.settled
  history : s'.history = s.history
  letters : s'.deadLetters = s.deadLetters ∧ s'.deadOrder = s.deadOrder ∨
    ∃ letter, s.deadLetters.lookup letter.id = none ∧
      s'.deadLetters = s.deadLetters.insert letter.id letter ∧
      s'.deadOrder = s.deadOrder ++ [letter.id] ∧
      letter.errorKind = errorKindValidation ∧ letter.attempts = 0 ∧
      letter.payload = Payload.copied pub.payload

/-- The store after a publication that was accepted: one new message for each queue. -/
structure Accepted (s s' : Memory.Store) (pub : Publication) (now : Time) (queues : List Queue)
    (result : PublishResult) : Prop where
  exchange : result.exchange = pub.exchange
  routingKey : result.routingKey = pub.routingKey
  routed : result.queues = queues.map (fun queue => queue.name)
  distinct : result.messageIDs.Nodup
  gained : List.Forall₂ (fun queue id => s.messages.lookup id = none ∧
    s'.messages.lookup id = some (Memory.unleased (publishedMessage id pub queue now)))
      queues result.messageIDs
  others : ∀ id, id ∉ result.messageIDs → s'.messages.lookup id = s.messages.lookup id

/-- What a reply to a publication says about the store, given where it was routed to. -/
def AllOrNothing (s s' : Memory.Store) (pub : Publication) (now : Time)
    (route : Except Broker.Error (List Queue)) : Except Error PublishResult → Prop
  | .ok result => ∃ queues, route = .ok queues ∧ Accepted s s' pub now queues result
  | .error _ => Refused s s' pub

theorem Refused.refl (s : Memory.Store) (pub : Publication) : Refused s s pub :=
  ⟨rfl, rfl, rfl, rfl, Or.inl ⟨rfl, rfl⟩⟩

/-! ## The checks -/

variable {engine : Engine} {env : Env}

theorem transition_addressed (id : String) (pub : Publication) (queue : Queue) (now : Time) :
    (addressed id pub queue now).transition .queued now =
      .ok (publishedMessage id pub queue now) := by
  obtain ⟨-, hstate, -⟩ := addressed_fields id pub queue now
  rw [transition_of_created hstate]
  unfold addressed publishedMessage
  dsimp only [Message.new]
  split_ifs <;> rfl

theorem rejected_payload (msg : Message) (now : Time) :
    (rejected msg now).payload = msg.payload := by
  unfold rejected
  rw [Message.transition_eq _ rfl]
  split_ifs <;> rfl

/-- Parking adds a letter of the kind "validation", or nothing if its id is taken or the
store is closed. -/
theorem parkRejected_refuses {msg : Message} {pub : Publication}
    (hp : msg.payload = Payload.copied pub.payload) (cause : String) (now : Time) (w : World) :
    Runs env (parkRejected msg cause now) w (fun _ w' => Refused w.store w'.store pub) := by
  simp only [Runs, parkRejected, newID, store, Prog.run_bind, Prog.run_perform, Prog.run_pure,
    perform, World.callStore, Memory.exec]
  rcases Memory.Store.saveDeadLetter_cases w.store _ _ with ⟨e, h⟩ | ⟨hnone, h⟩
  · rw [h]
    exact Refused.refl _ _
  · rw [h]
    exact ⟨rfl, rfl, rfl, rfl, Or.inr ⟨_, hnone, rfl, rfl, rfl, rfl, hp⟩⟩

/-- A check that fails parks the message. -/
theorem validate_refuses {msg : Message} {pub : Publication}
    (hp : msg.payload = Payload.copied pub.payload) (now : Time) (w : World) :
    Runs env (engine.validate msg now) w (fun reply w' =>
      match reply with
      | .ok _ => w' = w
      | .error _ => Refused w.store w'.store pub) := by
  unfold validate
  split
  · exact Runs.pure rfl
  · split_ifs
    · exact Runs.pure rfl
    · split
      · exact Runs.pure rfl
      · apply (parkRejected_refuses ((rejected_payload msg now).trans hp) _ now w).bind
        intro _ w' h
        exact Runs.pure h

/-! ## The loop over the queues -/

/-- The messages of a publication for these queues, with the ids from the n-th on. -/
def publishedMessages (env : Env) (pub : Publication) (now : Time) : ℕ → List Queue → List Message
  | _, [] => []
  | n, queue :: queues =>
    publishedMessage (env.newID n) pub queue now :: publishedMessages env pub now (n + 1) queues

theorem publishLoop_refuses (pub : Publication) (now : Time) (queues : List Queue)
    (messages : List Message) (w : World) :
    Runs env (engine.publishLoop pub now queues messages) w (fun reply w' =>
      match reply with
      | .ok result => result = messages ++ publishedMessages env pub now w.ids queues ∧
          w'.store = w.store
      | .error _ => Refused w.store w'.store pub) := by
  induction queues generalizing messages w with
  | nil => exact ⟨(List.append_nil messages).symm, rfl⟩
  | cons queue queues ih =>
    have hid : Runs env newID w (fun id w' => id = env.newID w.ids ∧
        w' = { w with ids := w.ids + 1 }) := ⟨rfl, rfl⟩
    apply hid.bind
    rintro id w' ⟨rfl, rfl⟩
    apply (validate_refuses (addressed_payload _ pub queue now) now _).bind
    intro reply w' h
    cases reply with
    | error e => exact Runs.pure h
    | ok u =>
      subst h
      simp only [transition_addressed]
      apply (ih _ _).mono
      intro reply w' h
      cases reply with
      | error e => exact h
      | ok result => simpa [publishedMessages] using h

section Published
variable (pub : Publication) (now : Time)

theorem publishedMessages_queue (n : ℕ) (queues : List Queue) :
    (publishedMessages env pub now n queues).map Message.queue =
      queues.map (fun queue => queue.name) := by
  induction queues generalizing n with
  | nil => rfl
  | cons queue queues ih =>
    simp only [publishedMessages, List.map_cons, ih]
    rfl

theorem clone_publishedMessages {n : ℕ} {queues : List Queue} {msg : Message}
    (h : msg ∈ publishedMessages env pub now n queues) : msg.clone = msg := by
  induction queues generalizing n with
  | nil => cases h
  | cons queue queues ih =>
    rcases List.mem_cons.mp h with rfl | h
    · exact Message.clone_eq_self (Payload.copied_copied pub.payload)
    · exact ih h

theorem publishedMessages_forall₂ {n : ℕ} {queues : List Queue} {P : Message → Prop}
    (h : ∀ msg ∈ publishedMessages env pub now n queues, P msg) :
    List.Forall₂ (fun queue msg => P msg ∧ msg = publishedMessage msg.id pub queue now)
      queues (publishedMessages env pub now n queues) := by
  induction queues generalizing n with
  | nil => exact List.Forall₂.nil
  | cons queue queues ih =>
    obtain ⟨hfirst, hrest⟩ := List.forall_mem_cons.mp h
    exact List.Forall₂.cons ⟨hfirst, rfl⟩ (ih hrest)

theorem mem_publishedMessages {n : ℕ} {queues : List Queue} {msg : Message}
    (h : msg ∈ publishedMessages env pub now n queues) : ∃ i, n ≤ i ∧ msg.id = env.newID i := by
  induction queues generalizing n with
  | nil => cases h
  | cons queue queues ih =>
    rcases List.mem_cons.mp h with rfl | h
    · exact ⟨n, le_rfl, rfl⟩
    · obtain ⟨i, hi, hid⟩ := ih h
      exact ⟨i, by omega, hid⟩

theorem publishedMessages_nodup {n : ℕ}
    (hdistinct : ∀ i j, n ≤ i → n ≤ j → env.newID i = env.newID j → i = j) (queues : List Queue) :
    ((publishedMessages env pub now n queues).map Message.id).Nodup := by
  induction queues generalizing n with
  | nil => exact List.nodup_nil
  | cons queue queues ih =>
    refine List.nodup_cons.mpr ⟨?_, ih (fun i j hi hj => hdistinct i j (by omega) (by omega))⟩
    intro hmem
    obtain ⟨msg, hmsg, hid⟩ := List.mem_map.mp hmem
    obtain ⟨i, hi, hm⟩ := mem_publishedMessages pub now hmsg
    have : i = n := hdistinct i n (by omega) le_rfl (hm.symm.trans hid)
    omega

end Published

/-! ## The publication -/

theorem recordEach_messages (events : List HistoryEvent) (w : World) :
    Runs env (recordEach events) w (fun _ w' => w'.store.messages = w.store.messages) := by
  induction events generalizing w with
  | nil => exact Runs.pure rfl
  | cons event events ih =>
    have hrecord : Runs env (recordHistory event) w
        (fun _ w' => w'.store.messages = w.store.messages) := by
      simp only [Runs, recordHistory, store, Prog.run_bind, Prog.run_perform, Prog.run_pure,
        perform, World.callStore, Memory.exec, Memory.Store.appendHistory,
        Memory.Store.unlessClosed]
      split_ifs <;> rfl
    apply hrecord.bind
    intro _ w₁ h₁
    apply (ih w₁).mono
    intro _ w₂ h₂
    exact h₂.trans h₁

/-- One append stores all messages of a publication, and no other message changes. -/
theorem Accepted.of_storeAll {s s' : Memory.Store} {n : ℕ} (pub : Publication) (now : Time)
    (queues : List Queue)
    (hfresh : ∀ msg ∈ publishedMessages env pub now n queues, s.messages.lookup msg.id = none)
    (hdistinct : ∀ i j, n ≤ i → n ≤ j → env.newID i = env.newID j → i = j)
    (hs : s'.messages =
      Memory.Store.storeAll s.messages (publishedMessages env pub now n queues)) :
    Accepted s s' pub now queues ⟨pub.exchange, pub.routingKey,
      (publishedMessages env pub now n queues).map Message.id,
      (publishedMessages env pub now n queues).map Message.queue⟩ where
  exchange := rfl
  routingKey := rfl
  routed := publishedMessages_queue pub now n queues
  distinct := publishedMessages_nodup pub now hdistinct queues
  gained := by
    have hstored : ∀ msg ∈ publishedMessages env pub now n queues,
        s.messages.lookup msg.id = none ∧
          s'.messages.lookup msg.id = some (Memory.unleased msg) := by
      intro msg hmsg
      rw [hs, Memory.storeAll_of_nodup (publishedMessages_nodup pub now hdistinct queues) hmsg,
        clone_publishedMessages pub now hmsg]
      exact ⟨hfresh msg hmsg, rfl⟩
    rw [List.forall₂_map_right_iff]
    apply (publishedMessages_forall₂ pub now hstored).imp
    rintro queue msg ⟨⟨hbefore, hafter⟩, hmsg⟩
    exact ⟨hbefore, hmsg ▸ hafter⟩
  others := by
    intro id hid
    rw [hs]
    exact Memory.storeAll_of_notMem hid

theorem append_runs_any (msgs : List Message) (w : World) :
    Runs env (store (.append msgs)) w (fun reply w' =>
      match reply with
      | .ok _ => (∀ msg ∈ msgs, w.store.messages.lookup msg.id = none) ∧
          w'.store.messages = Memory.Store.storeAll w.store.messages msgs
      | .error _ => w'.store = w.store) := by
  simp only [Runs, store, Prog.run_perform, perform, World.callStore, Memory.exec]
  rcases w.store.append_cases msgs with ⟨e, h⟩ | ⟨hnone, h⟩
  · rw [h]
  · rw [h]
    exact ⟨hnone, rfl⟩

/-- A publication is stored for every queue it is routed to, or for none. -/
theorem publish_all_or_nothing (engine : Engine) (env : Env) (w : World) (pub : Publication)
    (hdistinct : ∀ i j, w.ids ≤ i → w.ids ≤ j → env.newID i = env.newID j → i = j) :
    AllOrNothing w.store (engine.exec env (.publish pub) w).2.store pub (env.clock w.ticks)
      (w.registry.route pub.exchange pub.routingKey) (engine.exec env (.publish pub) w).1 := by
  change Runs env (engine.publish pub) w (fun reply w' => AllOrNothing w.store w'.store pub
    (env.clock w.ticks) (w.registry.route pub.exchange pub.routingKey) reply)
  have hroute : Runs env (Prog.perform (Effect.route pub.exchange pub.routingKey)) w
      (fun reply w' => reply = w.registry.route pub.exchange pub.routingKey ∧ w' = w) := ⟨rfl, rfl⟩
  apply hroute.bind
  rintro reply w₁ ⟨hr, rfl⟩
  cases reply with
  | error e => exact Runs.pure (Refused.refl _ _)
  | ok queues =>
    have hclock : Runs env clock w₁ (fun now w' => now = env.clock w₁.ticks ∧
        w' = { w₁ with ticks := w₁.ticks + 1 }) := ⟨rfl, rfl⟩
    apply hclock.bind
    rintro now w₂ ⟨rfl, rfl⟩
    apply (publishLoop_refuses pub _ queues [] _).bind
    intro reply w₃ h₃
    cases reply with
    | error e => exact Runs.pure h₃
    | ok messages =>
      obtain ⟨rfl, hs⟩ := h₃
      dsimp only [List.nil_append] at hs ⊢
      apply (append_runs_any _ w₃).bind
      intro reply w₄ h₄
      rw [hs] at h₄
      cases reply with
      | error e =>
        apply Runs.pure
        rw [h₄]
        exact Refused.refl _ _
      | ok u =>
        obtain ⟨hnone, hm⟩ := h₄
        apply (recordEach_messages _ w₄).bind
        intro _ w₅ h₅
        exact ⟨queues, hr.symm, Accepted.of_storeAll pub _ queues hnone hdistinct (h₅.trans hm)⟩

/-- A fanout exchange in front of two queues, of which one has a schema. -/
def newsRegistry : Registry where
  exchanges := Finmap.singleton "news" ⟨⟨"news", .fanout, true⟩, 0⟩
  bindings := Finmap.singleton "news" [⟨⟨"news", "orders", ""⟩, 0⟩, ⟨⟨"news", "audit", ""⟩, 0⟩]
  queues := (Finmap.singleton "orders" ⟨⟨"orders", true, 3, 30, ""⟩, 0⟩).insert "audit"
    ⟨⟨"audit", true, 3, 30, "audit"⟩, 0⟩

/-- An engine whose validator accepts one payload only, the byte 1. -/
def newsEngine : Engine :=
  { ordersEngine 3 threeAttempts with
    schemas := some (fun _ bytes => if bytes = [1] then none else some "not the byte 1") }

def news (byte : UInt8) : Publication := ⟨"news", "", some [byte], ∅, ""⟩

def afterNews (byte : UInt8) : Except Error PublishResult × World :=
  newsEngine.exec steadyEnv (.publish (news byte)) (World.init newsRegistry)

theorem publish_all_or_nothing_order :
    (afterNews 1).1 = .ok ⟨"news", "", ["|", "||"], ["audit", "orders"]⟩ ∧
      AllOrNothing (World.init newsRegistry).store (afterNews 1).2.store (news 1) 0
        (newsRegistry.route "news" "") (afterNews 1).1 ∧
      (afterNews 2).1.isOk = false ∧ (afterNews 2).2.store.deadOrder.length = 1 ∧
      AllOrNothing (World.init newsRegistry).store (afterNews 2).2.store (news 2) 0
        (newsRegistry.route "news" "") (afterNews 2).1 := by
  have h (byte : UInt8) := publish_all_or_nothing newsEngine steadyEnv (World.init newsRegistry)
    (news byte) (fun i j _ _ h => ordersEnv_injective [] h)
  exact ⟨by decide +kernel, h 1, by decide +kernel, by decide +kernel, h 2⟩

end RabbitmqLite.Engine
