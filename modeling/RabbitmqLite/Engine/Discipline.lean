import RabbitmqLite.Engine.Operations
import RabbitmqLite.Storage.Memory.Ledger

/-! # What the operations do while others run

A discipline for the engine. Between two steps of one operation the others may
move messages on, but no message and no dead letter is lost or altered in its
content. The steps every operation makes, and what it knows when it makes them,
are the allowed effects.
-/

namespace RabbitmqLite.Engine
open Broker Collections Storage Atomic
open Memory (Record RecordStep LetterStep exec_recordStep exec_letterStep)

/-- A message moves on: it keeps its content, and either nothing has happened, or it
was handed out again, or the attempt has ended. -/
structure Evolves (e e' : Record) : Prop where
  content : e'.msg.content = e.msg.content
  progress : e' = e ∨ e.msg.attempts < e'.msg.attempts ∨
    e'.msg.attempts = e.msg.attempts ∧ e'.msg.state ≠ .processing

theorem Evolves.refl (e : Record) : Evolves e e := ⟨rfl, Or.inl rfl⟩

theorem Evolves.trans {e e' e'' : Record} (h : Evolves e e') (h' : Evolves e' e'') :
    Evolves e e'' := by
  refine ⟨h'.content.trans h.content, ?_⟩
  rcases h.progress with rfl | hlt | ⟨heq, hend⟩
  · exact h'.progress
  · rcases h'.progress with rfl | hlt' | ⟨heq', -⟩
    · exact Or.inr (Or.inl hlt)
    · exact Or.inr (Or.inl (hlt.trans hlt'))
    · exact Or.inr (Or.inl (heq' ▸ hlt))
  · rcases h'.progress with rfl | hlt' | ⟨heq', hend'⟩
    · exact Or.inr (Or.inr ⟨heq, hend⟩)
    · exact Or.inr (Or.inl (heq ▸ hlt'))
    · exact Or.inr (Or.inr ⟨heq'.trans heq, hend'⟩)

/-- The calls that take something out of the store. -/
def Removes : Call → Prop
  | .purge _ | .deleteQueue _ | .deleteDeadLetter _ => True
  | _ => False

theorem RecordStep.evolves {c : Call} {reply : c.Reply} {id : String} {e : Record}
    {r : Option Record} (h : RecordStep c reply id (some e) r) (hc : ¬ Removes c) :
    ∃ e', r = some e' ∧ Evolves e e' := by
  cases h with
  | same => exact ⟨e, rfl, Evolves.refl e⟩
  | claim => exact ⟨_, rfl, rfl, Or.inr (Or.inl (lt_add_one e.msg.attempts))⟩
  | acknowledge | scheduleRetry | release | markDeadLettered =>
    exact ⟨_, rfl, rfl, Or.inr (Or.inr ⟨rfl, by
      simp [Memory.unleased, Memory.acknowledged, Memory.retried, Memory.released,
        Memory.deadLettered]⟩)⟩
  | purge | deleteQueue => exact absurd trivial hc

/-! ## Facts that last -/

/-- The store has the message of a snapshot, with the same content. -/
def Stored (w : World) (msg : Message) : Prop :=
  ∃ entry, w.store.messages.lookup msg.id = some entry ∧ entry.msg.content = msg.content

/-- There is a dead letter with this content. -/
def Buried (w : World) (content : Content) : Prop :=
  ∃ id letter, w.store.deadLetters.lookup id = some letter ∧ letter.content = content

/-- The clock was read with this result. -/
def Read (env : Env) (w : World) (now : ℤ) : Prop := ∃ i < w.ticks, env.clock i = now

/-- The id has been generated. -/
def Used (env : Env) (w : World) (id : String) : Prop := ∃ i < w.ids, env.newID i = id

/-- The lease of this attempt has been seen to end, or the attempt is over anyway. -/
def Overdue (env : Env) (w : World) (id : String) (attempt : ℤ) : Prop :=
  ∃ e, w.store.messages.lookup id = some e ∧ (attempt < e.msg.attempts ∨
    e.msg.attempts = attempt ∧
      (e.msg.state = .processing → ∃ now, Read env w now ∧ e.lease ≤ now))

/-- The message has a payload of its own and the attempt limit of a declared queue. -/
def Stamped (w : World) (msg : Message) : Prop :=
  Payload.copied msg.payload = msg.payload ∧
    ∃ name queue, w.registry.queues.lookup name = some queue ∧ msg.queue = queue.name ∧
      msg.maxAttempts = queue.maxAttempts

/-- What can happen between two worlds. -/
structure Later (w w' : World) : Prop where
  ticks : w.ticks ≤ w'.ticks
  ids : w.ids ≤ w'.ids
  registry : w'.registry = w.registry
  kept : ∀ id e, w.store.messages.lookup id = some e →
    ∃ e', w'.store.messages.lookup id = some e' ∧ Evolves e e'
  letters : ∀ content, Buried w content → Buried w' content

theorem Later.refl (w : World) : Later w w where
  ticks := le_rfl
  ids := le_rfl
  registry := rfl
  kept := fun _ e h => ⟨e, h, Evolves.refl e⟩
  letters := fun _ h => h

theorem Later.trans {u v w : World} (h : Later u v) (h' : Later v w) : Later u w where
  ticks := h.ticks.trans h'.ticks
  ids := h.ids.trans h'.ids
  registry := h'.registry.trans h.registry
  kept := by
    intro id e he
    obtain ⟨e', he', hev⟩ := h.kept id e he
    obtain ⟨e'', he'', hev'⟩ := h'.kept id e' he'
    exact ⟨e'', he'', hev.trans hev'⟩
  letters := fun content hb => h'.letters content (h.letters content hb)

theorem Stored.later {w w' : World} {msg : Message} (h : Stored w msg) (hl : Later w w') :
    Stored w' msg := by
  obtain ⟨e, he, hc⟩ := h
  obtain ⟨e', he', hev⟩ := hl.kept msg.id e he
  exact ⟨e', he', hev.content.trans hc⟩

theorem Read.later {env : Env} {w w' : World} {now : ℤ} (h : Read env w now) (hl : Later w w') :
    Read env w' now := by
  obtain ⟨i, hi, hnow⟩ := h
  exact ⟨i, hi.trans_le hl.ticks, hnow⟩

theorem Used.mono {env : Env} {w w' : World} {id : String} (h : Used env w id)
    (hle : w.ids ≤ w'.ids) : Used env w' id := by
  obtain ⟨i, hi, hid⟩ := h
  exact ⟨i, hi.trans_le hle, hid⟩

theorem Overdue.later {env : Env} {w w' : World} {id : String} {attempt : ℤ}
    (h : Overdue env w id attempt) (hl : Later w w') : Overdue env w' id attempt := by
  obtain ⟨e, he, hcase⟩ := h
  obtain ⟨e', he', hev⟩ := hl.kept id e he
  refine ⟨e', he', ?_⟩
  rcases hcase with hlt | ⟨heq, hread⟩
  · rcases hev.progress with rfl | hlt' | ⟨heq', -⟩
    · exact Or.inl hlt
    · exact Or.inl (hlt.trans hlt')
    · exact Or.inl (heq' ▸ hlt)
  · rcases hev.progress with rfl | hlt' | ⟨heq', hend⟩
    · refine Or.inr ⟨heq, fun hp => ?_⟩
      obtain ⟨now, hnow, hle⟩ := hread hp
      exact ⟨now, hnow.later hl, hle⟩
    · exact Or.inl (heq ▸ hlt')
    · exact Or.inr ⟨heq'.trans heq, fun hp => absurd hp hend⟩

/-! ## The invariant and the allowed effects -/

/-- The invariant of the world. A message in flight to a handler is a true copy. -/
structure Sound (w : World) : Prop where
  keyed : w.store.Keyed
  states : ∀ id e, w.store.messages.lookup id = some e → e.msg.state.Resting
  stamped : ∀ id e, w.store.messages.lookup id = some e → Stamped w e.msg
  buried : ∀ id e, w.store.messages.lookup id = some e → e.msg.state = .deadLettered →
    Buried w e.msg.content
  tasks : ∀ consumer, ∀ d ∈ w.tasks consumer, Stored w d.message ∧ d.queue = d.message.queue

variable (engine : Engine) (env : Env) (ends : ℤ → Prop)

/-- The store calls an operation makes besides settling. -/
def MayCall (w : World) : Call → Prop
  | .append msgs => (msgs.map Message.id).Nodup ∧
      ∀ msg ∈ msgs, msg.state = .queued ∧ msg.attempts = 0 ∧ Stamped w msg
  | .expiredLeases now _ => Read env w now
  | .saveDeadLetter entry newID => entry.id = "" ∧ Used env w newID
  | .acknowledge _ _ | .scheduleRetry _ | .release _ _ | .markDeadLettered _ _ _ | .purge _
  | .deleteQueue _ | .deleteDeadLetter _ | .close => False
  | _ => True

/-- What is known when a message is settled. `ends` are the attempts at which an operation
may give up on a message. -/
def MaySettle (w : World) (party : Party) (attempt : ℤ) : Call → Prop
  | .acknowledge _ _ => party ≠ .reclaim
  | .scheduleRetry _ => party ≠ .reclaim ∧ engine.policy.shouldRetry attempt = true
  | .release id _ => party = .reclaim →
      engine.policy.shouldRetry attempt = true ∧ Overdue env w id attempt
  | .markDeadLettered id _ _ => ends attempt ∧
      (∀ e, w.store.messages.lookup id = some e → Buried w e.msg.content) ∧
      (party = .reclaim → Overdue env w id attempt)
  | _ => False

def Allowed (w : World) : Effect → Prop
  | .store c => MayCall env w c
  | .settle party attempt c => MaySettle engine env ends w party attempt c
  | .submit _ d => Stored w d.message ∧ d.queue = d.message.queue
  | _ => True

/-- Storewise, an allowed effect is a call with these properties. -/
structure Harmless (w : World) (c : Call) : Prop where
  keeps : ¬ Removes c
  append : ∀ msgs, c = .append msgs → ∀ msg ∈ msgs, msg.state = .queued ∧ Stamped w msg
  markDeadLettered : ∀ id reason now, c = .markDeadLettered id reason now →
    ∀ e, w.store.messages.lookup id = some e → Buried w e.msg.content

variable {engine env ends}

theorem MayCall.harmless {w : World} {c : Call} (h : MayCall env w c) : Harmless w c := by
  refine ⟨?_, ?_, ?_⟩
  · cases c with
    | purge | deleteQueue | deleteDeadLetter => exact h.elim
    | _ => exact id
  · rintro msgs rfl msg hm
    obtain ⟨hq, -, hs⟩ := h.2 msg hm
    exact ⟨hq, hs⟩
  · rintro id reason now rfl
    exact h.elim

theorem MaySettle.harmless {w : World} {party : Party} {attempt : ℤ} {c : Call}
    (h : MaySettle engine env ends w party attempt c) : Harmless w c := by
  refine ⟨?_, ?_, ?_⟩
  · cases c with
    | purge | deleteQueue | deleteDeadLetter => exact h.elim
    | _ => exact id
  · rintro msgs rfl
    exact h.elim
  · rintro id reason now rfl e he
    exact h.2.1 e he

theorem RecordStep.maxAttempts_eq {c : Call} {reply : c.Reply} {id : String} {e e' : Record}
    (h : RecordStep c reply id (some e) (some e')) : e'.msg.maxAttempts = e.msg.maxAttempts := by
  cases h <;> rfl

/-- Every call leaves a stored message in a state it can rest in. -/
theorem RecordStep.states {c : Call} {reply : c.Reply} {id : String} {e e' : Record}
    (h : RecordStep c reply id (some e) (some e')) (he : e.msg.state.Resting) :
    e'.msg.state.Resting := by
  cases h with
  | same => exact he
  | claim | acknowledge | scheduleRetry | release | markDeadLettered =>
    simp [Memory.takenOver, Memory.unleased, Memory.acknowledged, Memory.retried,
      Memory.released, Memory.deadLettered, State.Resting]

/-- A message is dead-lettered by the call for it only. -/
theorem RecordStep.of_deadLettered {c : Call} {reply : c.Reply} {id : String} {e e' : Record}
    (h : RecordStep c reply id (some e) (some e')) (hdead : e'.msg.state = .deadLettered) :
    e.msg.state = .deadLettered ∨ ∃ reason now, c = .markDeadLettered id reason now := by
  cases h with
  | same => exact Or.inl hdead
  | markDeadLettered => exact Or.inr ⟨_, _, rfl⟩
  | claim | acknowledge | scheduleRetry | release =>
    simp [Memory.takenOver, Memory.unleased, Memory.acknowledged, Memory.retried,
      Memory.released] at hdead

theorem Harmless.later {w : World} {c : Call} (h : Harmless w c) (hk : w.store.Keyed) :
    Later w (w.callStore c).2 where
  ticks := le_rfl
  ids := le_rfl
  registry := rfl
  kept := by
    intro id e he
    have hs := exec_recordStep hk c id
    rw [he] at hs
    exact RecordStep.evolves hs h.keeps
  letters := by
    rintro content ⟨id, letter, hl, hc⟩
    have hs := exec_letterStep c w.store id
    rw [hl] at hs
    obtain ⟨letter', hl', hid⟩ := hs.kept (fun hd => h.keeps (by rw [hd]; trivial))
    exact ⟨id, letter', hl', (congrArg Prod.fst hid).trans hc⟩

/-- The record of a message after a harmless call, and where it comes from. -/
theorem Harmless.record {w : World} {c : Call} (h : Harmless w c) (hw : Sound w) {id : String}
    {e' : Record} (he' : (w.callStore c).2.store.messages.lookup id = some e') :
    e'.msg.state.Resting ∧ Stamped w e'.msg ∧
      (e'.msg.state = .deadLettered → Buried w e'.msg.content) := by
  have hs := exec_recordStep hw.keyed c id
  have he'' : (Memory.exec c w.store).2.messages.lookup id = some e' := he'
  rw [he''] at hs
  cases hr : w.store.messages.lookup id with
  | none =>
    rw [hr] at hs
    obtain ⟨msgs, msg, rfl, -, hm, -, rfl⟩ := hs.of_none
    obtain ⟨hq, hst⟩ := h.append msgs rfl msg hm
    have hclone : Stamped w msg.clone := ⟨Payload.copied_copied msg.payload, hst.2⟩
    simp [Memory.unleased, hq, hclone, State.Resting]
  | some e =>
    rw [hr] at hs
    have hstamp : Stamped w e'.msg := by
      obtain ⟨hown, name, queue, hl, hq, hmax⟩ := hw.stamped id e hr
      have hqueue : e'.msg.queue = e.msg.queue := congrArg Content.queue hs.content_eq
      have hpayload : e'.msg.payload = e.msg.payload := congrArg Content.payload hs.content_eq
      exact ⟨hpayload ▸ hown, name, queue, hl, hqueue.trans hq,
        (RecordStep.maxAttempts_eq hs).trans hmax⟩
    refine ⟨RecordStep.states hs (hw.states id e hr), hstamp, fun hdead => ?_⟩
    rw [hs.content_eq]
    rcases RecordStep.of_deadLettered hs hdead with hold | ⟨reason, now, hc⟩
    · exact hw.buried id e hr hold
    · exact h.markDeadLettered id reason now hc e hr

theorem Harmless.sound {w : World} {c : Call} (h : Harmless w c) (hw : Sound w) :
    Sound (w.callStore c).2 where
  keyed := Memory.exec_keyed hw.keyed c
  states := fun _ _ he => (h.record hw he).1
  stamped := fun _ _ he => (h.record hw he).2.1
  buried := fun _ _ he hdead => (h.later hw.keyed).letters _ ((h.record hw he).2.2 hdead)
  tasks := fun consumer d hd =>
    ⟨(hw.tasks consumer d hd).1.later (h.later hw.keyed), (hw.tasks consumer d hd).2⟩

/-- An effect that leaves store and registry alone. -/
theorem sound_of_store_eq {w w' : World} (hw : Sound w) (hs : w'.store = w.store)
    (hr : w'.registry = w.registry)
    (ht : ∀ consumer, ∀ d ∈ w'.tasks consumer, Stored w d.message ∧ d.queue = d.message.queue) :
    Sound w' where
  keyed := hs ▸ hw.keyed
  states := hs ▸ hw.states
  stamped := by
    intro id e he
    rw [hs] at he
    obtain ⟨hown, name, queue, hq⟩ := hw.stamped id e he
    exact ⟨hown, name, queue, hr ▸ hq⟩
  buried := by
    intro id e he hdead
    rw [hs] at he
    obtain ⟨i, letter, hl⟩ := hw.buried id e he hdead
    exact ⟨i, letter, hs ▸ hl⟩
  tasks := by
    intro consumer d hd
    obtain ⟨⟨e, he⟩, hq⟩ := ht consumer d hd
    exact ⟨⟨e, hs ▸ he⟩, hq⟩

theorem later_of_store_eq {w w' : World} (hs : w'.store = w.store)
    (hr : w'.registry = w.registry) (ht : w.ticks ≤ w'.ticks) (hi : w.ids ≤ w'.ids) :
    Later w w' where
  ticks := ht
  ids := hi
  registry := hr
  kept := fun id e he => ⟨e, by rw [hs]; exact he, Evolves.refl e⟩
  letters := fun content ⟨id, letter, hl⟩ => ⟨id, letter, by rw [hs]; exact hl⟩

theorem submit_tasks {w : World} {consumer name : String} {delivery d : Delivery}
    (h : d ∈ (perform env (.submit consumer delivery) w).2.tasks name) :
    d ∈ w.tasks name ∨ d = delivery := by
  simp only [perform] at h
  split at h <;> dsimp only at h
  · exact Or.inl h
  · by_cases hn : name = consumer
    · subst hn
      simpa using h
    · rw [Function.update_of_ne hn] at h
      exact Or.inl h

theorem receive_tasks {w : World} {consumer name : String} {d : Delivery}
    (h : d ∈ (perform env (.receive consumer) w).2.tasks name) : d ∈ w.tasks name := by
  simp only [perform] at h
  split at h <;> dsimp only at h
  · exact h
  · rename_i head rest htasks
    by_cases hn : name = consumer
    · subst hn
      rw [htasks]
      exact List.mem_cons_of_mem head (by simpa using h)
    · rwa [Function.update_of_ne hn] at h

/-- Only the two kinds of store effects touch the store. -/
theorem perform_store_eq {e : Effect} (hc : ∀ c, e ≠ .store c) (hs : ∀ p a c, e ≠ .settle p a c)
    (w : World) : (perform env e w).2.store = w.store := by
  cases e with
  | store c => exact absurd rfl (hc c)
  | settle p a c => exact absurd rfl (hs p a c)
  | submit | receive =>
    simp only [perform]
    split <;> rfl
  | clock | newID | float64 | route | queue | notify => rfl

/-- What an effect does to the record of one message. -/
theorem perform_cases {w : World} (hk : w.store.Keyed) (e : Effect) (id : String) :
    (perform env e w).2.store.messages.lookup id = w.store.messages.lookup id ∨
    (∃ c, e = .store c ∧ RecordStep c (Memory.exec c w.store).1 id (w.store.messages.lookup id)
      ((perform env e w).2.store.messages.lookup id)) ∨
    ∃ party attempt c, e = .settle party attempt c ∧
      RecordStep c (Memory.exec c w.store).1 id (w.store.messages.lookup id)
        ((perform env e w).2.store.messages.lookup id) := by
  cases e with
  | store c => exact Or.inr (Or.inl ⟨c, rfl, exec_recordStep hk c id⟩)
  | settle party attempt c =>
    exact Or.inr (Or.inr ⟨party, attempt, c, rfl, exec_recordStep hk c id⟩)
  | _ =>
    left
    rw [perform_store_eq (by simp) (by simp)]

/-- Every allowed effect keeps the invariant and leads to a later world. -/
theorem allowed_keeps (w : World) (e : Effect) (hw : Sound w) (he : Allowed engine env ends w e) :
    Sound (perform env e w).2 ∧ Later w (perform env e w).2 := by
  cases e with
  | store c => exact ⟨he.harmless.sound hw, he.harmless.later hw.keyed⟩
  | settle party attempt c => exact ⟨he.harmless.sound hw, he.harmless.later hw.keyed⟩
  | clock =>
    exact ⟨sound_of_store_eq hw rfl rfl hw.tasks,
      later_of_store_eq rfl rfl (Nat.le_succ w.ticks) le_rfl⟩
  | newID =>
    exact ⟨sound_of_store_eq hw rfl rfl hw.tasks,
      later_of_store_eq rfl rfl le_rfl (Nat.le_succ w.ids)⟩
  | float64 | route | queue | notify =>
    exact ⟨sound_of_store_eq hw rfl rfl hw.tasks, later_of_store_eq rfl rfl le_rfl le_rfl⟩
  | submit consumer delivery =>
    have hsame : (perform env (.submit consumer delivery) w).2.store = w.store ∧
        (perform env (.submit consumer delivery) w).2.registry = w.registry ∧
        (perform env (.submit consumer delivery) w).2.ticks = w.ticks ∧
        (perform env (.submit consumer delivery) w).2.ids = w.ids := by
      simp only [perform]
      split <;> exact ⟨rfl, rfl, rfl, rfl⟩
    refine ⟨sound_of_store_eq hw hsame.1 hsame.2.1 (fun name d hd => ?_),
      later_of_store_eq hsame.1 hsame.2.1 hsame.2.2.1.ge hsame.2.2.2.ge⟩
    rcases submit_tasks hd with hd | rfl
    · exact hw.tasks name d hd
    · exact he
  | receive consumer =>
    have hsame : (perform env (.receive consumer) w).2.store = w.store ∧
        (perform env (.receive consumer) w).2.registry = w.registry ∧
        (perform env (.receive consumer) w).2.ticks = w.ticks ∧
        (perform env (.receive consumer) w).2.ids = w.ids := by
      simp only [perform]
      split <;> exact ⟨rfl, rfl, rfl, rfl⟩
    exact ⟨sound_of_store_eq hw hsame.1 hsame.2.1
        (fun name d hd => hw.tasks name d (receive_tasks hd)),
      later_of_store_eq hsame.1 hsame.2.1 hsame.2.2.1.ge hsame.2.2.2.ge⟩

variable (engine env ends)

/-- The discipline of the engine's operations. -/
def discipline : Discipline (perform env) where
  inv := Sound
  later := Later
  allowed := Allowed engine env ends
  refl := Later.refl
  trans := fun _ _ _ => Later.trans
  keeps := allowed_keeps

theorem init_sound (registry : Registry) : Sound (World.init registry) where
  keyed := Memory.new_keyed
  states := by simp [World.init, Memory.Store.new]
  stamped := by simp [World.init, Memory.Store.new]
  buried := by simp [World.init, Memory.Store.new]
  tasks := by simp [World.init]

end RabbitmqLite.Engine
