import RabbitmqLite.Engine.QueueManagement

/-! # Crashes and restarts

A restart ends all operations where they stand, empties the pools and reads the
topology back from the store; the topology may change between any two steps of
the operations. The messages stay accounted for: what an operation has heard of
a message stays true, and it gives a message up only after it has saved a dead
letter with what it heard.
-/

namespace RabbitmqLite.Engine
open Broker Collections Storage Atomic
open Memory (Declaring Record RecordStep exec_recordStep exec_letterStep)

variable {engine : Engine} {env : Env} {α β : Type} {w w' : World} {past : List EngineEvent}

/-! ## What an operation has heard -/

/-- What a delivery says about its message. -/
def Delivery.content (d : Delivery) : Content := { d.message.content with queue := d.queue }

theorem Delivery.content_eq {d : Delivery} (h : d.queue = d.message.queue) :
    d.content = d.message.content := by
  unfold Delivery.content
  rw [h]
  rfl

/-- What a reply says about messages. -/
def heardBy : EngineEvent → List Content
  | ⟨.store (.message _), .ok msg⟩ => [msg.content]
  | ⟨.store (.claim _), .ok msgs⟩ => msgs.map Message.content
  | ⟨.store (.expiredLeases _ _), .ok msgs⟩ => msgs.map Message.content
  | ⟨.receive _, some delivery⟩ => [delivery.content]
  | _ => []

def heard (past : List EngineEvent) : List Content := past.flatMap heardBy

/-- A letter with this content was saved. -/
def Filed (past : List EngineEvent) (content : Content) : Prop :=
  ∃ letter newID, ⟨.store (.saveDeadLetter letter newID), .ok ()⟩ ∈ past ∧
    letter.content = content

/-- Nothing is taken out of the store, tasks repeat what was heard, and a message is given up
only after a letter was saved with what was heard of it. -/
def Careful (past : List EngineEvent) : Effect → Prop
  | .store (.purge _) | .store (.deleteDeadLetter _) => False
  | .settle _ _ (.markDeadLettered id _ _) =>
    ∃ content ∈ heard past, content.id = id ∧ Filed past content
  | .submit _ delivery =>
    delivery.content ∈ heard past ∧ delivery.queue = delivery.message.queue
  | _ => True

/-- An effect that is careful at any time. -/
def Effect.mild : Effect → Bool
  | .store (.purge _) | .store (.deleteDeadLetter _) | .settle _ _ (.markDeadLettered _ _ _)
  | .submit _ _ => false
  | _ => true

theorem careful_of_mild {e : Effect} (he : e.mild = true) (past : List EngineEvent) :
    Careful past e := by
  unfold Careful
  split <;> trivial

theorem heard_snoc (past : List EngineEvent) (e : EngineEvent) :
    heard (past ++ [e]) = heard past ++ heardBy e := by
  simp [heard]

theorem subset_heard_snoc {known : List Content} (h : known ⊆ heard past) (e : EngineEvent) :
    known ⊆ heard (past ++ [e]) := by
  rw [heard_snoc]
  exact List.subset_append_of_subset_left _ h

/-- The program is careful if it starts with a past that has heard all this. -/
def Cares (known : List Content) (p : Program α) : Prop :=
  ∀ past, known ⊆ heard past → p.Obeys Careful past (fun _ past' => known ⊆ heard past')

namespace Cares
variable {known : List Content}

theorem pure (a : α) : Cares known (Pure.pure a : Program α) := fun _ h => h

theorem bind {p : Program α} {f : α → Program β} (hp : Cares known p)
    (hf : ∀ a, Cares known (f a)) : Cares known (p >>= f) :=
  fun past h => (hp past h).bind (fun a past' h' => hf a past' h')

theorem effect {e : Effect} (he : e.mild = true) :
    Cares known (Prog.perform e : Program e.Reply) :=
  fun past h => ⟨careful_of_mild he past, fun _ => subset_heard_snoc h _⟩

theorem step {e : Effect} (he : e.mild = true) {f : e.Reply → Program β}
    (hf : ∀ r, Cares known (f r)) : Cares known (Prog.perform e >>= f) :=
  (effect he).bind hf

/-- What a reply says is known from then on. -/
theorem hear {e : Effect} (he : e.mild = true) {f : e.Reply → Program β}
    (hf : ∀ r, Cares (known ++ heardBy ⟨e, r⟩) (f r)) : Cares known (Prog.perform e >>= f) := by
  refine fun past h => ⟨careful_of_mild he past, fun r => (hf r _ ?_).mono ?_⟩
  · rw [heard_snoc]
    exact List.append_subset.mpr ⟨List.subset_append_of_subset_left _ h,
      List.subset_append_right _ _⟩
  · exact fun _ _ h' => (List.append_subset.mp h').1

end Cares

open Cares

section Operations
variable {known : List Content}

theorem recordHistory_cares (event : HistoryEvent) : Cares known (recordHistory event) :=
  step rfl (fun _ => Cares.pure ())

theorem recordEach_cares (events : List HistoryEvent) : Cares known (recordEach events) := by
  induction events with
  | nil => exact Cares.pure ()
  | cons event events ih => exact (recordHistory_cares event).bind (fun _ => ih)

theorem firstFailureAt_cares (id : String) (fallback : Time) :
    Cares known (firstFailureAt id fallback) := by
  refine step rfl ?_
  rintro (e | events)
  · exact Cares.pure fallback
  · dsimp only
    cases firstFailure events with
    | none => exact Cares.pure fallback
    | some event => exact Cares.pure event.time

/-- The letter is saved before the message is given up. -/
theorem deadLetter_cares (party : Party) (consumer : String) {delivery : Delivery} (cause : Cause)
    (now : Time) (hd : delivery.content ∈ known) :
    Cares known (deadLetter party consumer delivery cause now) := by
  apply (firstFailureAt_cares _ now).bind
  intro firstFailedAt
  refine step rfl (fun id past h => ⟨trivial, ?_⟩)
  rintro (e | u)
  · exact subset_heard_snoc h _
  · refine ⟨⟨delivery.content, ?_, rfl, _, id, List.mem_append_right _ (List.mem_singleton_self _),
      rfl⟩, ?_⟩
    · exact subset_heard_snoc h _ hd
    · rintro (e | u)
      · exact subset_heard_snoc (subset_heard_snoc h _) _
      · exact recordHistory_cares _ _ (subset_heard_snoc (subset_heard_snoc h _) _)

theorem nextAttemptAt_cares (policy : Retry.Policy) (now : Time) (attempt : ℤ) :
    Cares known (nextAttemptAt policy now attempt) := by
  unfold nextAttemptAt
  split_ifs
  · exact Cares.pure _
  · exact step rfl (fun drawn => Cares.pure _)

theorem fail_cares (party : Party) (consumer : String) {delivery : Delivery} (cause : Cause)
    (hd : delivery.content ∈ known) : Cares known (fail engine party consumer delivery cause) := by
  refine step rfl ?_
  intro now
  dsimp only
  split_ifs
  · exact deadLetter_cares party consumer cause now hd
  · apply (nextAttemptAt_cares engine.policy now delivery.attempt).bind
    intro availableAt
    refine step rfl ?_
    rintro (e | u)
    · exact Cares.pure ()
    · exact recordHistory_cares _

theorem validate_cares (msg : Message) (now : Time) : Cares known (validate engine msg now) := by
  unfold validate
  cases engine.schemas with
  | none => exact Cares.pure _
  | some schemas =>
    dsimp only
    split_ifs
    · exact Cares.pure _
    · cases schemas msg.schema msg.payload.bytes with
      | none => exact Cares.pure _
      | some cause =>
        refine Cares.bind ?_ (fun _ => Cares.pure _)
        exact step rfl (fun id => step rfl (fun _ => Cares.pure ()))

theorem publishLoop_cares (pub : Publication) (now : Time) (queues : List Queue)
    (messages : List Message) : Cares known (publishLoop engine pub now queues messages) := by
  induction queues generalizing messages with
  | nil => exact Cares.pure _
  | cons queue queues ih =>
    refine step rfl ?_
    intro id
    apply (validate_cares _ now).bind
    rintro (e | u)
    · exact Cares.pure _
    · dsimp only
      cases (addressed id pub queue now).transition .queued now with
      | error e => exact Cares.pure _
      | ok msg => exact ih _

theorem publish_cares (pub : Publication) : Cares known (publish engine pub) := by
  refine step rfl ?_
  rintro (e | queues)
  · exact Cares.pure _
  · refine step rfl ?_
    intro now
    apply (publishLoop_cares pub now queues []).bind
    rintro (e | messages)
    · exact Cares.pure _
    · refine step rfl ?_
      rintro (e | u)
      · exact Cares.pure _
      · apply (recordEach_cares _).bind
        intro _
        exact step rfl (fun _ => Cares.pure _)

theorem replayDeadLetter_cares (id : String) : Cares known (replayDeadLetter id) := by
  refine step rfl ?_
  rintro (e | record)
  · exact Cares.pure _
  · refine step rfl ?_
    rintro (e | queue)
    · exact Cares.pure _
    · refine step rfl (fun now => step rfl (fun newID => ?_))
      cases (replayOf newID record queue now).transition .queued now with
      | error e => exact Cares.pure _
      | ok replay =>
        refine step rfl ?_
        rintro (e | u)
        · exact Cares.pure _
        · apply (recordHistory_cares _).bind
          intro _
          exact step rfl (fun _ => step rfl (fun _ => Cares.pure _))

theorem pull_cares (req : PullRequest) : Cares known (pull req) := by
  refine step rfl ?_
  rintro (e | queue)
  · exact Cares.pure _
  · refine step rfl (fun now => step rfl ?_)
    rintro (e | claimed)
    · exact Cares.pure _
    · exact (recordEach_cares _).bind (fun _ => Cares.pure _)

theorem ack_cares (id : String) (held : ℤ) : Cares known (ack id held) := by
  refine step rfl ?_
  rintro (e | msg)
  · exact Cares.pure _
  · refine step rfl (fun now => step rfl ?_)
    rintro (e | u)
    · exact Cares.pure _
    · exact (recordHistory_cares _).bind (fun _ => Cares.pure _)

theorem nack_cares (id reason : String) (requeue : Bool) (held : ℤ) :
    Cares known (nack engine id reason requeue held) := by
  refine hear rfl ?_
  rintro (e | msg)
  · exact Cares.pure _
  · cases requeue with
    | true =>
      refine step rfl (fun now => step rfl ?_)
      rintro (e | u)
      · exact Cares.pure _
      · apply (recordHistory_cares _).bind
        intro _
        exact step rfl (fun _ => Cares.pure _)
    | false =>
      apply Cares.bind
      · exact fail_cares _ _ _ (List.mem_append_right _ (List.mem_singleton_self _))
      · exact fun _ => step rfl (fun _ => Cares.pure _)

theorem handOff_cares (consumer : ConsumerSpec) {msg : Message} (hm : msg.content ∈ known) :
    Cares known (handOff consumer msg) := by
  refine step rfl (fun now => (recordHistory_cares _).bind (fun _ => ?_))
  refine fun past h => ⟨⟨h hm, rfl⟩, ?_⟩
  rintro (e | u)
  · have hundo : Cares known (releaseUndispatched msg.id msg.attempts) :=
      step rfl (fun _ => step rfl (fun _ => Cares.pure ()))
    exact hundo _ (subset_heard_snoc h _)
  · exact subset_heard_snoc h _

theorem handOffAll_cares (consumer : ConsumerSpec) {msgs : List Message}
    (hm : ∀ msg ∈ msgs, msg.content ∈ known) : Cares known (handOffAll consumer msgs) := by
  induction msgs with
  | nil => exact Cares.pure ()
  | cons msg msgs ih =>
    rw [List.forall_mem_cons] at hm
    exact (handOff_cares consumer hm.1).bind (fun _ => ih hm.2)

theorem claimBatch_cares (consumer : ConsumerSpec) : Cares known (claimBatch consumer) := by
  refine step rfl ?_
  rintro (e | queue)
  · exact Cares.pure _
  · refine step rfl (fun now => hear rfl ?_)
    rintro (e | messages)
    · exact Cares.pure _
    · refine Cares.bind (handOffAll_cares consumer (fun msg hm => ?_)) (fun _ => Cares.pure _)
      exact List.mem_append_right _ (List.mem_map_of_mem hm)

theorem work_cares (consumer : ConsumerSpec) (outcome : Option Cause) :
    Cares known (work engine consumer outcome) := by
  refine hear rfl ?_
  rintro (_ | delivery)
  · exact Cares.pure ()
  · refine step rfl ?_
    intro _
    cases outcome with
    | none =>
      refine step rfl (fun now => step rfl ?_)
      rintro (e | u)
      · exact Cares.pure ()
      · exact recordHistory_cares _
    | some cause =>
      exact fail_cares _ _ _ (List.mem_append_right _ (List.mem_singleton_self _))

theorem reclaimLoop_cares (now : Time) {msgs : List Message} (requeued : List String)
    (hm : ∀ msg ∈ msgs, msg.content ∈ known) :
    Cares known (reclaimLoop engine now msgs requeued) := by
  induction msgs generalizing requeued with
  | nil => exact Cares.pure _
  | cons msg msgs ih =>
    rw [List.forall_mem_cons] at hm
    unfold reclaimLoop
    split_ifs
    · apply Cares.bind
      · refine step rfl ?_
        rintro (e | u)
        · exact Cares.pure _
        · exact (recordHistory_cares _).bind (fun _ => Cares.pure _)
      · intro released
        split_ifs
        · exact ih _ hm.2
        · exact ih _ hm.2
    · exact (deadLetter_cares _ _ _ _ hm.1).bind (fun _ => ih _ hm.2)

theorem reclaim_cares : Cares known (reclaim engine) := by
  refine step rfl (fun now => hear rfl ?_)
  rintro (e | expired)
  · exact Cares.pure ()
  · refine Cares.bind (reclaimLoop_cares now [] (fun msg hm => ?_)) (fun _ => effect rfl)
    exact List.mem_append_right _ (List.mem_map_of_mem hm)

end Operations

theorem program_cares {op : Op} (h : op.Retains) : Cares [] (engine.program op) := by
  cases op with
  | publish pub => exact publish_cares pub
  | pull req => exact pull_cares req
  | ack id held => exact ack_cares id held
  | nack id reason requeue held => exact nack_cares id reason requeue held
  | claimBatch consumer => exact claimBatch_cares consumer
  | work consumer outcome => exact work_cares consumer outcome
  | reclaim => exact reclaim_cares
  | replayDeadLetter id => exact replayDeadLetter_cares id
  | purge | discardDeadLetter => exact h.elim

/-! ## What the store keeps -/

/-- The message of this content is in the store. -/
def Held (w : World) (content : Content) : Prop :=
  ∃ entry, w.store.messages.lookup content.id = some entry ∧ entry.msg.content = content

/-- Messages and letters stay, and no id is generated twice. -/
structure Keeps (w w' : World) : Prop where
  ids : w.ids ≤ w'.ids
  held : ∀ content, Held w content → Held w' content
  letters : ∀ content, Buried w content → Buried w' content

/-- The invariant of the world, whatever the registry says. -/
structure Safekept (w : World) : Prop where
  keyed : w.store.Keyed
  states : ∀ id e, w.store.messages.lookup id = some e → e.msg.state.Resting
  buried : ∀ id e, w.store.messages.lookup id = some e → e.msg.state = .deadLettered →
    Buried w e.msg.content
  tasks : ∀ consumer, ∀ d ∈ w.tasks consumer, Held w d.content ∧ d.queue = d.message.queue

/-- A call of the store that takes nothing out, appends queued messages only and gives up only
messages there is a letter about. -/
structure Gentle (w : World) (c : Call) : Prop where
  keeps : ¬ Removes c
  append : ∀ msgs, c = .append msgs → ∀ msg ∈ msgs, msg.state = .queued
  markDeadLettered : ∀ id reason now, c = .markDeadLettered id reason now →
    ∀ e, w.store.messages.lookup id = some e → Buried w e.msg.content

theorem Gentle.keeps_held {c : Call} (h : Gentle w c) (hk : w.store.Keyed) (hids : w.ids ≤ w'.ids)
    (hs : w'.store = (Memory.exec c w.store).2) : Keeps w w' where
  ids := hids
  held := by
    rintro content ⟨entry, hl, hc⟩
    have hstep := exec_recordStep hk c content.id
    rw [hl] at hstep
    obtain ⟨entry', hl', hev⟩ := RecordStep.evolves hstep h.keeps
    exact ⟨entry', by rw [hs]; exact hl', hev.content.trans hc⟩
  letters := by
    rintro content ⟨id, letter, hl, hc⟩
    have hstep := exec_letterStep c w.store id
    rw [hl] at hstep
    obtain ⟨letter', hl', hid⟩ := hstep.kept (fun hd => h.keeps (by rw [hd]; trivial))
    exact ⟨id, letter', by rw [hs]; exact hl', (congrArg Prod.fst hid).trans hc⟩

theorem Gentle.safekept {c : Call} (h : Gentle w c) (hw : Safekept w) (hids : w.ids ≤ w'.ids)
    (hs : w'.store = (Memory.exec c w.store).2) (ht : w'.tasks = w.tasks) : Safekept w' := by
  have hkeeps := h.keeps_held hw.keyed hids hs
  have hrecord : ∀ id e', w'.store.messages.lookup id = some e' →
      e'.msg.state.Resting ∧
        (e'.msg.state = .deadLettered → Buried w e'.msg.content) := by
    intro id e' he'
    have hstep := exec_recordStep hw.keyed c id
    rw [hs] at he'
    rw [he'] at hstep
    cases hr : w.store.messages.lookup id with
    | none =>
      rw [hr] at hstep
      obtain ⟨msgs, msg, rfl, -, hm, -, rfl⟩ := hstep.of_none
      simp [Memory.unleased, h.append msgs rfl msg hm, State.Resting]
    | some e =>
      rw [hr] at hstep
      refine ⟨RecordStep.states hstep (hw.states id e hr), fun hdead => ?_⟩
      rw [hstep.content_eq]
      rcases RecordStep.of_deadLettered hstep hdead with hold | ⟨reason, now, hc⟩
      · exact hw.buried id e hr hold
      · exact h.markDeadLettered id reason now hc e hr
  exact
    { keyed := by rw [hs]; exact Memory.exec_keyed hw.keyed c
      states := fun id e he => (hrecord id e he).1
      buried := fun id e he hdead => hkeeps.letters _ ((hrecord id e he).2 hdead)
      tasks := fun consumer d hd => (hw.tasks consumer d (ht ▸ hd)).imp_left (hkeeps.held _) }

/-! ## Steps of the operations -/

/-- The past of an operation is true of the world. -/
structure Recalls (env : Env) (w : World) (past : List EngineEvent) : Prop where
  generated : Generated env w past
  heard : ∀ content ∈ heard past, Held w content
  filed : ∀ content, Filed past content → Buried w content

theorem Recalls.nil (env : Env) (w : World) : Recalls env w [] where
  generated := Generated.nil env w
  heard := by simp [Engine.heard]
  filed := by simp [Filed]

theorem Recalls.kept (h : Recalls env w past) (hk : Keeps w w') : Recalls env w' past where
  generated := h.generated.mono hk.ids
  heard := fun content hc => hk.held content (h.heard content hc)
  filed := fun content hc => hk.letters content (h.filed content hc)

theorem Keeps.of_store_eq (hs : w'.store = w.store) (hids : w.ids ≤ w'.ids) : Keeps w w' where
  ids := hids
  held := fun content ⟨entry, h⟩ => ⟨entry, by rw [hs]; exact h⟩
  letters := fun content ⟨id, letter, h⟩ => ⟨id, letter, by rw [hs]; exact h⟩

theorem Safekept.of_store_eq (h : Safekept w) (hs : w'.store = w.store)
    (ht : ∀ consumer, ∀ d ∈ w'.tasks consumer, Held w d.content ∧ d.queue = d.message.queue) :
    Safekept w' where
  keyed := hs ▸ h.keyed
  states := hs ▸ h.states
  buried := by
    intro id e he hdead
    rw [hs] at he
    obtain ⟨letterID, letter, hl⟩ := h.buried id e he hdead
    exact ⟨letterID, letter, by rw [hs]; exact hl⟩
  tasks := by
    intro consumer d hd
    obtain ⟨⟨entry, hl⟩, hq⟩ := ht consumer d hd
    exact ⟨⟨entry, by rw [hs]; exact hl⟩, hq⟩

theorem toldBy_held (hw : Safekept w) {e : Effect} {id : String} {msg : Message}
    (h : (id, msg) ∈ toldBy ⟨e, (perform env e w).1⟩) : Held w msg.content := by
  rcases toldBy_perform hw.keyed h with ⟨entry, hl, hc⟩ | ⟨consumer, d, hd, -, rfl⟩
  · have hid : id = msg.content.id := (hw.keyed id entry hl).symm.trans (congrArg Content.id hc)
    exact ⟨entry, hid ▸ hl, hc⟩
  · obtain ⟨hheld, hq⟩ := hw.tasks consumer d hd
    exact Delivery.content_eq hq ▸ hheld

/-- What a reply says is true. -/
theorem heardBy_held (hw : Safekept w) (e : Effect) :
    ∀ content ∈ heardBy ⟨e, (perform env e w).1⟩, Held w content := by
  have htold : ∀ (e : Effect) (msg : Message),
      (msg.id, msg) ∈ toldBy ⟨e, (perform env e w).1⟩ → Held w msg.content :=
    fun _ _ h => toldBy_held hw h
  intro content hc
  cases e with
  | store c =>
    cases c with
    | message i =>
      cases hr : (perform env (.store (.message i)) w).1 with
      | error e => simp [hr, heardBy] at hc
      | ok msg =>
        rw [hr] at hc
        rw [List.mem_singleton.mp hc]
        have hm : (i, msg) ∈
            toldBy ⟨.store (.message i), (perform env (.store (.message i)) w).1⟩ := by
          rw [hr]
          exact List.mem_singleton_self _
        exact toldBy_held hw hm
    | claim req =>
      specialize htold (.store (.claim req))
      cases hr : (perform env (.store (.claim req)) w).1 with
      | error e => simp [hr, heardBy] at hc
      | ok msgs =>
        rw [hr] at hc htold
        obtain ⟨msg, hm, rfl⟩ := List.mem_map.mp hc
        exact htold msg (List.mem_map_of_mem hm)
    | expiredLeases now limit =>
      obtain ⟨msg, hm, rfl⟩ := List.mem_map.mp hc
      exact htold (.store (.expiredLeases now limit)) msg (List.mem_map_of_mem hm)
    | _ => simp [heardBy] at hc
  | receive consumer =>
    simp only [perform] at hc
    cases ht : w.tasks consumer with
    | nil => simp [ht, heardBy] at hc
    | cons d rest =>
      simp only [ht, heardBy, List.mem_singleton] at hc
      rw [hc]
      exact (hw.tasks consumer d (by simp [ht])).1
  | _ => simp [heardBy] at hc

/-- A letter that was saved is there. -/
theorem buried_of_saved {letter : DeadLetter} {newID : String}
    (h : (perform env (.store (.saveDeadLetter letter newID)) w).1 = .ok ()) :
    Buried (perform env (.store (.saveDeadLetter letter newID)) w).2 letter.content := by
  rcases w.store.saveDeadLetter_cases letter newID with ⟨e, hs⟩ | ⟨-, hs⟩ <;>
    simp only [perform, World.callStore, Memory.exec, hs] at h ⊢
  · cases h
  · refine ⟨(Memory.filed letter newID).id, Memory.filed letter newID, by simp, ?_⟩
    unfold Memory.filed
    split_ifs <;> rfl

/-- What an operation may do next, by its past, is gentle to the store. -/
theorem Careful.gentle {e : Effect} {c : Call} (h : Careful past e) (hc : Conduct engine past e)
    (hcall : e.call? = some c) (hr : Recalls env w past) : Gentle w c := by
  have hs := hc.serving hcall
  refine ⟨?_, fun msgs hm msg hmsg => ((hs.append msgs hm).2 msg hmsg).state, ?_⟩
  · cases c with
    | purge queue =>
      cases e with
      | store => cases hcall; exact h.elim
      | settle => cases hcall; exact hc.elim
      | _ => cases hcall
    | deleteDeadLetter id =>
      cases e with
      | store => cases hcall; exact h.elim
      | settle => cases hcall; exact hc.elim
      | _ => cases hcall
    | deleteQueue name => exact absurd trivial hs.tables
    | _ => exact id
  · rintro id reason now rfl entry hl
    cases e with
    | store => cases hcall; exact hc.elim
    | settle =>
      cases hcall
      obtain ⟨content, hheard, rfl, hfiled⟩ := h
      obtain ⟨entry', hl', hcontent⟩ := hr.heard content hheard
      rw [hl] at hl'
      obtain rfl := Option.some.inj hl'
      rw [hcontent]
      exact hr.filed content hfiled
    | _ => cases hcall

theorem Recalls.step (hinj : Function.Injective env.newID) (hw : Safekept w)
    (h : Recalls env w past) {e : Effect} (hk : Keeps w (perform env e w).2) :
    Recalls env (perform env e w).2 (past ++ [⟨e, (perform env e w).1⟩]) where
  generated := h.generated.step hinj e
  heard := by
    intro content hc
    rw [heard_snoc] at hc
    rcases List.mem_append.mp hc with hc | hc
    · exact hk.held content (h.heard content hc)
    · exact hk.held content (heardBy_held hw e content hc)
  filed := by
    rintro content ⟨letter, newID, hm, rfl⟩
    rcases List.mem_append.mp hm with hm | hm
    · exact hk.letters _ (h.filed _ ⟨letter, newID, hm, rfl⟩)
    · obtain ⟨rfl, hr⟩ := Event.mk.inj (List.mem_singleton.mp hm)
      exact buried_of_saved (eq_of_heq hr).symm

/-- Every effect of a careful operation keeps what there is. -/
theorem Careful.keeps {e : Effect} (h : Careful past e) (hc : Conduct engine past e)
    (hw : Safekept w) (hr : Recalls env w past) :
    Safekept (perform env e w).2 ∧ Keeps w (perform env e w).2 := by
  have hids := ids_le_perform env e w
  have hstore := perform_store env e w
  cases hcall : e.call? with
  | some c =>
    rw [hcall] at hstore
    have hg := h.gentle hc hcall hr
    have ht : (perform env e w).2.tasks = w.tasks := by
      cases e with
      | store | settle => rfl
      | _ => cases hcall
    exact ⟨hg.safekept hw hids hstore ht, hg.keeps_held hw.keyed hids hstore⟩
  | none =>
    rw [hcall] at hstore
    refine ⟨hw.of_store_eq hstore (fun consumer d hd => ?_), Keeps.of_store_eq hstore hids⟩
    cases e with
    | submit name delivery =>
      rcases submit_tasks hd with hd | rfl
      · exact hw.tasks consumer d hd
      · exact ⟨hr.heard _ h.1, h.2⟩
    | receive name => exact hw.tasks consumer d (receive_tasks hd)
    | _ => exact hw.tasks consumer d hd

/-- The messages that were appended are there, and the acknowledged ones were acknowledged. -/
theorem Careful.traced {e : Effect} {events : List EngineEvent} (h : Careful past e)
    (hc : Conduct engine past e) (hw : Safekept w) (hr : Recalls env w past)
    (ht : Traced w events) :
    Traced (perform env e w).2 (events ++ [⟨e, (perform env e w).1⟩]) := by
  refine ht.effect hw.keyed (fun msg hm => (h.keeps hc hw hr).2.held msg.content hm) ?_
    (fun c hcall => (h.gentle hc hcall hr).append) ?_
  · rintro msgs rfl
    obtain ⟨hids, hcomposed⟩ := (hc.serving rfl).append msgs rfl
    exact ⟨hr.generated.nodup.sublist hids, fun msg hm => (hcomposed msg hm).own⟩
  · rintro id now rfl
    exact hc.elim

/-! ## Topology operations and restarts -/

/-- The requests that take nothing out of the store. -/
def Request.Retains : Request → Prop
  | .act (.start op) => op.Retains
  | .topology (.deleteQueue _) _ => False
  | _ => True

/-- The store has seen a gentle call for the topology or none, and nothing else has happened. -/
def Extended (w w' : World) : Prop :=
  w'.ids = w.ids ∧ w'.tasks = w.tasks ∧
    (w'.store = w.store ∨
      ∃ c, Declaring c ∧ Gentle w c ∧ w'.store = (Memory.exec c w.store).2)

theorem Extended.keeps (h : Extended w w') (hw : Safekept w) : Safekept w' ∧ Keeps w w' := by
  obtain ⟨hids, htasks, hstore | ⟨c, -, hc, hstore⟩⟩ := h
  · exact ⟨hw.of_store_eq hstore (by rw [htasks]; exact hw.tasks), Keeps.of_store_eq hstore hids.ge⟩
  · exact ⟨hc.safekept hw hids.ge hstore htasks, hc.keeps_held hw.keyed hids.ge hstore⟩

theorem TopologyOp.exec_extended {op : TopologyOp} {now : Time}
    (h : (Request.topology op now).Retains) (w : World) : Extended w (op.exec none now w).2 := by
  obtain ⟨hids, htasks, hstore⟩ := op.exec_redeclared now w
  refine ⟨hids, htasks, hstore.imp_right ?_⟩
  rintro ⟨c, hc, hdeletes, hstore⟩
  refine ⟨c, hc, ⟨?_, ?_, ?_⟩, hstore⟩
  · intro hremoves
    cases c with
    | deleteQueue name =>
      rw [hdeletes name rfl] at h
      exact h.elim
    | purge | deleteDeadLetter => exact hc.elim
    | _ => exact hremoves.elim
  · rintro msgs rfl
    exact hc.elim
  · rintro id reason now rfl
    exact hc.elim

theorem Extended.traced {events : List EngineEvent} (h : Extended w w') (hw : Safekept w)
    (ht : Traced w events) : Traced w' events where
  appended := fun msgs ha msg hm => (h.keeps hw).2.held msg.content (ht.appended msgs ha msg hm)
  acknowledged := by
    intro id r hl hack
    obtain ⟨-, -, hstore | ⟨c, hd, hc, hstore⟩⟩ := h
    · exact ht.acknowledged id r (hstore ▸ hl) hack
    · have hs := exec_recordStep hw.keyed c id
      rw [← hstore, hl] at hs
      rcases RecordStep.of_acknowledged hs hack hc.append with hold | ⟨now, rfl, -⟩
      · exact ht.acknowledged id r hold hack
      · exact hd.elim

theorem Safekept.restart (h : Safekept w) : Safekept w.restart :=
  h.of_store_eq rfl (fun _ _ hd => absurd hd List.not_mem_nil)

theorem Traced.restart {events : List EngineEvent} (h : Traced w events) :
    Traced w.restart events := ⟨h.appended, h.acknowledged⟩

/-! ## Runs -/

/-- The invariant of a server: its operations are careful and know what their pasts mean. -/
structure Watched (engine : Engine) (env : Env) (x : Server) : Prop where
  contracted : x.Contracted (fun past e => Conduct engine past e ∧ Careful past e) (Recalls env)
  safekept : Safekept x.state
  traced : Traced x.state x.events

theorem Watched.serve (hinj : Function.Injective env.newID) {x : Server}
    (h : Watched engine env x) {request : Request} (hreq : request.Retains) :
    Watched engine env (engine.serve env request x).2 := by
  cases request with
  | act action =>
    have hprogram : ∀ op : Op, op.Retains → (engine.program op).void.Obeys
        (fun past e => Conduct engine past e ∧ Careful past e) [] (fun _ _ => True) :=
      fun op hop => ((program_obeys op).both (program_cares hop [] (List.nil_subset _))).void.mono
        (fun _ _ _ => trivial)
    obtain ⟨hx, hw⟩ := h.contracted.act hprogram (Recalls.nil env)
      (fun w past e hw hr he (_ : True) =>
        have hk := he.2.keeps he.1 hw hr
        ⟨hk.1, hr.step hinj hw hk.2, fun other ho => ho.kept hk.2⟩)
      (by rintro op rfl; exact hreq) (Config.meets_true _ action) h.safekept
    refine ⟨hx, hw, h.contracted.act_events ?_ action h.safekept h.traced⟩
    exact fun w past events e hw hr he ht => he.2.traced he.1 hw hr ht
  | topology op now =>
    have he := TopologyOp.exec_extended hreq x.state
    refine ⟨fun p hp => ?_, (he.keeps h.safekept).1, he.traced h.safekept h.traced⟩
    obtain ⟨past, hobeys, hr⟩ := h.contracted p hp
    exact ⟨past, hobeys, hr.kept (he.keeps h.safekept).2⟩
  | restart =>
    exact ⟨fun p hp => absurd hp List.not_mem_nil, h.safekept.restart, h.traced.restart⟩

theorem init_watched : Watched engine env (Config.init (World.init Registry.newRegistry)) where
  contracted := Config.init_contracted _ _
  safekept := by
    constructor <;> simp [Config.init, World.init, Memory.Store.new, Memory.Store.Keyed]
  traced := init_traced _

theorem served_watched (hinj : Function.Injective env.newID) (requests : List Request)
    (hreq : ∀ request ∈ requests, request.Retains) :
    Watched engine env (engine.served env requests) := by
  induction requests using List.reverseRecOn with
  | nil => exact init_watched
  | append_singleton requests request ih =>
    rw [served_snoc]
    exact (ih (fun r hr => hreq r (List.mem_append_left _ hr))).serve hinj
      (hreq request (List.mem_append_right _ (List.mem_singleton_self _)))

/-- Whatever the order in which the operations make their steps, whenever the server is
restarted and however the topology changes meanwhile, every message whose append succeeded is
accounted for. -/
theorem no_message_lost_across_restarts (engine : Engine) (env : Env)
    (hinj : Function.Injective env.newID) (requests : List Request)
    (hreq : ∀ request ∈ requests, request.Retains) (msgs : List Message)
    (happ : Appended (engine.served env requests).events msgs) :
    ∀ msg ∈ msgs, ∃ entry, Accounted (engine.served env requests) msg entry := by
  intro msg hm
  have h : Watched engine env (engine.served env requests) := served_watched hinj requests hreq
  obtain ⟨entry, hl, hc⟩ := h.traced.appended msgs happ msg hm
  exact ⟨entry,
    { stored := hl
      content := hc
      state := h.safekept.states msg.id entry hl
      acknowledged := h.traced.acknowledged msg.id entry hl
      deadLettered := fun hdead => hc ▸ h.safekept.buried msg.id entry hl hdead }⟩

/-- The server is restarted in the middle of a nack, after the dead letter was saved. -/
def crashedNack : List Request :=
  [.topology (.declareExchange ⟨"shop", .fanout, true⟩) 1,
   .topology (.declareQueue ⟨"orders", true, 1, 30, ""⟩) 2,
   .topology (.bind ⟨"shop", "orders", "orders"⟩) 3] ++
  (Action.begin (Op.publish order) 0 6).map .act ++
  (Action.begin (Op.pull ⟨"orders", "a", 1, 0⟩) 1 4).map .act ++
  (Action.begin (Op.nack "|" "" false 1) 2 5).map .act ++ [.restart]

def crashed : Server := (ordersEngine 1 oneAttempt).served (ordersEnv []) crashedNack

theorem no_message_lost_across_restarts_crashedNack :
    Appended crashed.events [overtakenMessage] ∧
      (crashed.state.store.messages.lookup "|").map (fun e => e.msg.state) = some .processing ∧
      crashed.state.store.deadOrder.length = 1 ∧
      ∃ entry, Accounted crashed overtakenMessage entry := by
  have happ : Appended crashed.events [overtakenMessage] := by
    unfold Appended
    decide +kernel
  refine ⟨happ, by decide +kernel, by decide +kernel, ?_⟩
  have hreq : ∀ request ∈ crashedNack, request.Retains := by
    simp [crashedNack, Action.begin, Action.steps, Request.Retains, Op.Retains, Op.Fits]
  exact no_message_lost_across_restarts (ordersEngine 1 le_rfl) (ordersEnv [])
    (ordersEnv_injective []) crashedNack hreq [overtakenMessage] happ overtakenMessage
    (List.mem_singleton_self overtakenMessage)

end RabbitmqLite.Engine
