import RabbitmqLite.Engine.Change
import RabbitmqLite.Engine.Conduct

/-! # Tasks and letters

Where the tasks of the pools and the dead letters of the store come from. Only
the dispatcher hands tasks to a pool, and they are copies of stored messages.
Only a replay touches a letter that is there; every letter is saved unreplayed,
under an id that was generated for it. Messages are appended by publications and
replays, once in an operation.
-/

namespace RabbitmqLite.Engine
open Broker Collections Storage Atomic
open Memory (LetterStep exec_letterStep)

variable {engine : Engine} {env : Env} {α β : Type}

/-! ## Operations that neither dispatch nor replay -/

/-- An append that was tried, whether it succeeded or not. -/
def isAppend : EngineEvent → Bool
  | ⟨.store (.append _), _⟩ => true
  | _ => false

def appends (past : List EngineEvent) : List EngineEvent := past.filter isAppend

theorem appends_snoc (past : List EngineEvent) (e : EngineEvent) :
    appends (past ++ [e]) = appends past ++ if isAppend e then [e] else [] := by
  simp [appends, List.filter_cons]

/-- No task is handed to a pool, letters are only saved as new ones, and there is one append at
most. -/
def Plain (past : List EngineEvent) : Effect → Prop
  | .store (.append _) => appends past = []
  | .store (.saveDeadLetter letter newID) =>
    letter.id = "" ∧ letter.replayCount = 0 ∧ newID ∈ generated past
  | .store (.markDeadLetterReplayed _ _ _) | .settle _ _ (.markDeadLetterReplayed _ _ _)
  | .settle _ _ (.saveDeadLetter _ _) => False
  | .submit _ _ => False
  | _ => True

/-- An effect that is plain at any time. -/
def Effect.free : Effect → Bool
  | .store (.append _) | .store (.saveDeadLetter _ _) | .store (.markDeadLetterReplayed _ _ _)
  | .settle _ _ (.markDeadLetterReplayed _ _ _) | .settle _ _ (.saveDeadLetter _ _)
  | .submit _ _ => false
  | _ => true

theorem plain_of_free {e : Effect} (he : e.free = true) (past : List EngineEvent) :
    Plain past e := by
  unfold Plain
  split <;> trivial

theorem not_isAppend_of_free {e : Effect} (he : e.free = true) (r : e.Reply) :
    isAppend ⟨e, r⟩ = false := by
  unfold isAppend
  split
  · rename_i h
    obtain ⟨rfl, -⟩ := Event.mk.inj h
    cases he
  · rfl

/-- Whatever was done before, the program keeps to this without an append. -/
def KeepsPlain (p : Program α) : Prop :=
  ∀ past, p.Obeys Plain past (fun _ past' => appends past' = appends past)

namespace KeepsPlain

theorem pure (a : α) : KeepsPlain (Pure.pure a : Program α) := fun _ => rfl

theorem bind {p : Program α} {f : α → Program β} (hp : KeepsPlain p)
    (hf : ∀ a, KeepsPlain (f a)) : KeepsPlain (p >>= f) :=
  fun past => (hp past).bind (fun a past' h => (hf a past').mono (fun _ _ h' => h'.trans h))

theorem effect {e : Effect} (he : e.free = true) :
    KeepsPlain (Prog.perform e : Program e.Reply) :=
  fun past => ⟨plain_of_free he past, fun r =>
    (appends_snoc past ⟨e, r⟩).trans (by simp [not_isAppend_of_free he r])⟩

theorem step {e : Effect} (he : e.free = true) {f : e.Reply → Program β}
    (hf : ∀ r, KeepsPlain (f r)) : KeepsPlain (Prog.perform e >>= f) :=
  (effect he).bind hf

/-- A letter is saved right after its id was generated. -/
theorem file (letter : DeadLetter) (hid : letter.id = "") (hcount : letter.replayCount = 0)
    {f : (id : String) → (Call.saveDeadLetter letter id).Reply → Program β}
    (hf : ∀ id reply, KeepsPlain (f id reply)) :
    KeepsPlain (newID >>= fun id => store (.saveDeadLetter letter id) >>= f id) := by
  intro past
  refine ⟨trivial, fun id => ⟨⟨hid, hcount, ?_⟩, fun reply => (hf id reply _).mono ?_⟩⟩
  · rw [generated_snoc]
    exact List.mem_append_right _ (List.mem_singleton_self id)
  · intro _ past' h
    rw [h, appends_snoc, appends_snoc]
    simp [isAppend]

end KeepsPlain

open KeepsPlain

theorem recordHistory_plain (event : HistoryEvent) : KeepsPlain (recordHistory event) :=
  step rfl (fun _ => KeepsPlain.pure ())

theorem recordEach_plain (events : List HistoryEvent) : KeepsPlain (recordEach events) := by
  induction events with
  | nil => exact KeepsPlain.pure ()
  | cons event events ih => exact (recordHistory_plain event).bind (fun _ => ih)

theorem firstFailureAt_plain (id : String) (fallback : Time) :
    KeepsPlain (firstFailureAt id fallback) := by
  refine step rfl ?_
  rintro (e | events)
  · exact KeepsPlain.pure fallback
  · dsimp only
    cases firstFailure events with
    | none => exact KeepsPlain.pure fallback
    | some event => exact KeepsPlain.pure event.time

theorem deadLetter_plain (party : Party) (consumer : String) (delivery : Delivery) (cause : Cause)
    (now : Time) : KeepsPlain (deadLetter party consumer delivery cause now) := by
  apply (firstFailureAt_plain _ now).bind
  intro firstFailedAt
  refine file _ rfl rfl ?_
  rintro id (e | u)
  · exact KeepsPlain.pure ()
  · refine step rfl ?_
    rintro (e | u)
    · exact KeepsPlain.pure ()
    · exact recordHistory_plain _

theorem nextAttemptAt_plain (policy : Retry.Policy) (now : Time) (attempt : ℤ) :
    KeepsPlain (nextAttemptAt policy now attempt) := by
  unfold nextAttemptAt
  split_ifs
  · exact KeepsPlain.pure _
  · exact step rfl (fun drawn => KeepsPlain.pure _)

theorem fail_plain (party : Party) (consumer : String) (delivery : Delivery) (cause : Cause) :
    KeepsPlain (fail engine party consumer delivery cause) := by
  refine step rfl ?_
  intro now
  dsimp only
  split_ifs
  · exact deadLetter_plain party consumer delivery cause now
  · apply (nextAttemptAt_plain engine.policy now delivery.attempt).bind
    intro availableAt
    refine step rfl ?_
    rintro (e | u)
    · exact KeepsPlain.pure ()
    · exact recordHistory_plain _

theorem parkRejected_plain (msg : Message) (cause : String) (now : Time) :
    KeepsPlain (parkRejected msg cause now) := by
  unfold parkRejected
  exact file _ rfl rfl (fun _ _ => KeepsPlain.pure ())

theorem validate_plain (msg : Message) (now : Time) : KeepsPlain (validate engine msg now) := by
  unfold validate
  cases engine.schemas with
  | none => exact KeepsPlain.pure _
  | some schemas =>
    dsimp only
    split_ifs
    · exact KeepsPlain.pure _
    · cases schemas msg.schema msg.payload.bytes with
      | none => exact KeepsPlain.pure _
      | some cause =>
        exact (parkRejected_plain _ cause now).bind (fun _ => KeepsPlain.pure _)

theorem publishLoop_plain (pub : Publication) (now : Time) (queues : List Queue)
    (messages : List Message) : KeepsPlain (publishLoop engine pub now queues messages) := by
  induction queues generalizing messages with
  | nil => exact KeepsPlain.pure _
  | cons queue queues ih =>
    refine step rfl ?_
    intro id
    apply (validate_plain _ now).bind
    rintro (e | u)
    · exact KeepsPlain.pure _
    · dsimp only
      cases (addressed id pub queue now).transition .queued now with
      | error e => exact KeepsPlain.pure _
      | ok msg => exact ih _

/-- A publication appends once, after everything that may refuse it. -/
theorem publish_plain (pub : Publication) {past : List EngineEvent} (h : appends past = []) :
    (publish engine pub).Obeys Plain past (fun _ _ => True) := by
  have hroute : KeepsPlain (Prog.perform (Effect.route pub.exchange pub.routingKey)) := effect rfl
  refine (hroute past).bind (fun routed past₁ h₁ => ?_)
  rcases routed with e | queues
  · trivial
  · have hclock : KeepsPlain clock := effect rfl
    refine (hclock past₁).bind (fun now past₂ h₂ => ?_)
    refine (publishLoop_plain pub now queues [] past₂).bind (fun reply past₃ h₃ => ?_)
    rcases reply with e | messages
    · trivial
    · refine ⟨h₃.trans (h₂.trans (h₁.trans h)), fun reply => ?_⟩
      rcases reply with e | u
      · trivial
      · refine Prog.Obeys.mono (KeepsPlain.bind (recordEach_plain _) (fun _ => ?_) _)
          (fun _ _ _ => trivial)
        exact step rfl (fun _ => KeepsPlain.pure _)

theorem pull_plain (req : PullRequest) : KeepsPlain (pull req) := by
  refine step rfl ?_
  rintro (e | queue)
  · exact KeepsPlain.pure _
  · refine step rfl ?_
    intro now
    refine step rfl ?_
    rintro (e | claimed)
    · exact KeepsPlain.pure _
    · exact (recordEach_plain _).bind (fun _ => KeepsPlain.pure _)

theorem ack_plain (id : String) (held : ℤ) : KeepsPlain (ack id held) := by
  refine step rfl ?_
  rintro (e | msg)
  · exact KeepsPlain.pure _
  · refine step rfl ?_
    intro now
    refine step rfl ?_
    rintro (e | u)
    · exact KeepsPlain.pure _
    · exact (recordHistory_plain _).bind (fun _ => KeepsPlain.pure _)

theorem nack_plain (id reason : String) (requeue : Bool) (held : ℤ) :
    KeepsPlain (nack engine id reason requeue held) := by
  refine step rfl ?_
  rintro (e | msg)
  · exact KeepsPlain.pure _
  · cases requeue with
    | true =>
      refine step rfl ?_
      intro now
      refine step rfl ?_
      rintro (e | u)
      · exact KeepsPlain.pure _
      · apply (recordHistory_plain _).bind
        intro _
        exact step rfl (fun _ => KeepsPlain.pure _)
    | false =>
      apply (fail_plain _ _ _ _).bind
      intro _
      exact step rfl (fun _ => KeepsPlain.pure _)

theorem work_plain (consumer : ConsumerSpec) (outcome : Option Cause) :
    KeepsPlain (work engine consumer outcome) := by
  refine step rfl ?_
  rintro (_ | delivery)
  · exact KeepsPlain.pure ()
  · refine step rfl ?_
    intro _
    cases outcome with
    | none =>
      refine step rfl ?_
      intro now
      refine step rfl ?_
      rintro (e | u)
      · exact KeepsPlain.pure ()
      · exact recordHistory_plain _
    | some cause => exact fail_plain _ _ _ _

theorem reclaimLoop_plain (now : Time) (msgs : List Message) (requeued : List String) :
    KeepsPlain (reclaimLoop engine now msgs requeued) := by
  induction msgs generalizing requeued with
  | nil => exact KeepsPlain.pure _
  | cons msg msgs ih =>
    unfold reclaimLoop
    split_ifs
    · apply KeepsPlain.bind
      · refine step rfl ?_
        rintro (e | u)
        · exact KeepsPlain.pure _
        · exact (recordHistory_plain _).bind (fun _ => KeepsPlain.pure _)
      · intro released
        split_ifs
        · exact ih _
        · exact ih _
    · exact (deadLetter_plain _ _ _ _ _).bind (fun _ => ih _)

theorem reclaim_plain : KeepsPlain (reclaim engine) := by
  refine step rfl ?_
  intro now
  refine step rfl ?_
  rintro (e | expired)
  · exact KeepsPlain.pure ()
  · exact (reclaimLoop_plain now expired []).bind (fun _ => effect rfl)

/-- The operations that neither dispatch nor replay. -/
def Op.Plain : Op → Prop
  | .claimBatch _ | .replayDeadLetter _ => False
  | _ => True

theorem Op.plain_cases (op : Op) :
    op.Plain ∨ (∃ consumer, op = .claimBatch consumer) ∨ ∃ id, op = .replayDeadLetter id := by
  cases op <;> simp [Op.Plain]

theorem program_plain {op : Op} (h : op.Plain) :
    (engine.program op).Obeys Plain [] (fun _ _ => True) := by
  have hkeeps : ∀ {α : Type} {p : Program α}, KeepsPlain p → p.Obeys Plain [] (fun _ _ => True) :=
    fun hp => (hp []).mono (fun _ _ _ => trivial)
  cases op with
  | publish pub => exact publish_plain pub rfl
  | pull req => exact hkeeps (pull_plain req)
  | ack id held => exact hkeeps (ack_plain id held)
  | nack id reason requeue held => exact hkeeps (nack_plain id reason requeue held)
  | work consumer outcome => exact hkeeps (work_plain consumer outcome)
  | reclaim => exact hkeeps reclaim_plain
  | purge | discardDeadLetter => exact hkeeps (effect rfl)
  | claimBatch | replayDeadLetter => exact h.elim

/-! ## One append -/

/-- Nothing has been appended before. -/
def Once (past : List EngineEvent) (e : Effect) : Prop :=
  ∀ msgs, e = .store (.append msgs) → appends past = []

theorem Plain.once {past : List EngineEvent} {e : Effect} (h : Plain past e) : Once past e := by
  rintro msgs rfl
  exact h

theorem replayDeadLetter_once (id : String) {past : List EngineEvent} (h : appends past = []) :
    (replayDeadLetter id).Obeys Once past (fun _ _ => True) := by
  have hfree : ∀ {e : Effect} (past : List EngineEvent), e.free = true → appends past = [] →
      (Prog.perform e : Program e.Reply).Obeys Once past (fun _ past' => appends past' = []) :=
    fun past he hnone => ((effect he past).mono (fun _ _ h' => h'.trans hnone)).weaken
      (fun _ _ => Plain.once)
  refine (hfree past rfl h).bind (fun letter past₁ h₁ => ?_)
  rcases letter with e | record
  · trivial
  · refine (hfree past₁ rfl h₁).bind (fun declared past₂ h₂ => ?_)
    rcases declared with e | queue
    · trivial
    · refine (hfree past₂ rfl h₂).bind (fun now past₃ h₃ => ?_)
      refine (hfree past₃ rfl h₃).bind (fun newID past₄ h₄ => ?_)
      cases (replayOf newID record queue now).transition .queued now with
      | error e => trivial
      | ok replay =>
        refine ⟨fun _ _ => h₄, fun appended => ?_⟩
        rcases appended with e | u
        · trivial
        · exact ⟨nofun, fun _ => ⟨nofun, fun _ => ⟨nofun, fun _ => trivial⟩⟩⟩

/-- Every operation but the dispatcher's, which appends nothing, appends once at most. -/
theorem program_once {op : Op} (h : ∀ consumer, op ≠ .claimBatch consumer) :
    (engine.program op).Obeys Once [] (fun _ _ => True) := by
  rcases op.plain_cases with hop | ⟨consumer, rfl⟩ | ⟨id, rfl⟩
  · exact (program_plain hop).weaken (fun _ _ => Plain.once)
  · exact absurd rfl (h consumer)
  · exact replayDeadLetter_once id rfl

/-! ## What such an operation leaves -/

/-- Where a letter comes from that is there after a call. -/
theorem LetterStep.source {c : Call} {reply : c.Reply} {id : String} {d : Option DeadLetter}
    {d' : DeadLetter} (h : LetterStep c reply id d (some d')) :
    d = some d' ∨
      (∃ entry newID, c = .saveDeadLetter entry newID ∧ d' = Memory.filed entry newID ∧
        d'.id = id) ∨
      ∃ replayedAs now, c = .markDeadLetterReplayed id replayedAs now := by
  cases h with
  | same => exact Or.inl rfl
  | save => exact Or.inr (Or.inl ⟨_, _, rfl, rfl, rfl⟩)
  | replayed => exact Or.inr (Or.inr ⟨_, _, rfl⟩)

theorem Plain.saved {past : List EngineEvent} {e : Effect} (h : Plain past e) {letter : DeadLetter}
    {newID : String} (hc : e.call? = some (.saveDeadLetter letter newID)) :
    letter.id = "" ∧ letter.replayCount = 0 ∧ newID ∈ generated past := by
  cases e with
  | store c =>
    obtain rfl := Option.some.inj hc
    exact h
  | settle party attempt c =>
    obtain rfl := Option.some.inj hc
    exact h.elim
  | _ => cases hc

theorem Plain.not_replayed {past : List EngineEvent} {e : Effect} (h : Plain past e)
    (id replayedAs : String) (now : Time) :
    e.call? ≠ some (.markDeadLetterReplayed id replayedAs now) := by
  intro hc
  cases e with
  | store c | settle party attempt c =>
    obtain rfl := Option.some.inj hc
    exact h
  | _ => cases hc

/-- Since then tasks were only taken, and letters were only deleted or saved as new ones. -/
structure Tended (env : Env) (w w' : World) : Prop where
  ids : w.ids ≤ w'.ids
  tasks : ∀ consumer, ∀ d ∈ w'.tasks consumer, d ∈ w.tasks consumer
  letters : ∀ a letter, w'.store.deadLetters.lookup a = some letter →
    w.store.deadLetters.lookup a = some letter ∨
      ¬ Used env w a ∧ letter.id = a ∧ letter.replayCount = 0

theorem Tended.perform (hinj : Function.Injective env.newID) {w w' : World}
    {past : List EngineEvent} {e : Effect} (he : Plain past e)
    (h : Tended env w w' ∧ ∀ id ∈ generated past, ¬ Used env w id) :
    Tended env w (Engine.perform env e w').2 ∧
      ∀ id ∈ generated (past ++ [⟨e, (Engine.perform env e w').1⟩]), ¬ Used env w id := by
  obtain ⟨ht, hg⟩ := h
  refine ⟨⟨ht.ids.trans (ids_le_perform env e w'), ?_, ?_⟩, ?_⟩
  · intro consumer d hd
    apply ht.tasks consumer
    cases e with
    | submit => exact he.elim
    | receive => exact receive_tasks hd
    | _ => exact hd
  · intro a letter hl
    rw [perform_store] at hl
    cases hc : e.call? with
    | none =>
      rw [hc] at hl
      exact ht.letters a letter hl
    | some c =>
      rw [hc] at hl
      have hs := exec_letterStep c w'.store a
      rw [hl] at hs
      rcases LetterStep.source hs with hsame | ⟨entry, newID, rfl, rfl, rfl⟩ | ⟨_, _, rfl⟩
      · exact ht.letters a letter hsame
      · obtain ⟨hid, hcount, hgen⟩ := he.saved hc
        rw [Memory.filed, if_pos hid]
        exact Or.inr ⟨hg newID hgen, rfl, hcount⟩
      · exact absurd hc (he.not_replayed _ _ _)
  · intro id hid
    rw [generated_snoc] at hid
    rcases List.mem_append.mp hid with hid | hid
    · exact hg id hid
    · cases e with
      | newID =>
        rintro ⟨i, hi, hsame⟩
        have heq : i = w'.ids := hinj (hsame.trans (List.mem_singleton.mp hid))
        exact absurd (hi.trans_le ht.ids) (heq ▸ lt_irrefl _)
      | _ => cases hid

theorem exec_tended (engine : Engine) (hinj : Function.Injective env.newID) {op : Op}
    (h : op.Plain) (w : World) : Tended env w (exec engine env op w).2 := by
  have hstart : Tended env w w ∧ ∀ id ∈ generated [], ¬ Used env w id :=
    ⟨⟨le_rfl, fun _ _ hd => hd, fun _ _ hl => Or.inl hl⟩, by simp [generated]⟩
  obtain ⟨past, ⟨ht, -⟩, -⟩ := (@program_plain engine op h).run
    (I := fun w' past => Tended env w w' ∧ ∀ id ∈ generated past, ¬ Used env w id)
    (fun w' past e he hI => Tended.perform hinj he hI) hstart
  exact ht

/-! ## Dispatching -/

/-- The task is a copy of a stored message. -/
def CopyOf (w : World) (d : Delivery) : Prop :=
  d.queue = d.message.queue ∧
    ∃ e, w.store.messages.lookup d.message.id = some e ∧ e.msg.content = d.message.content

/-- The task is the message as a claim has handed it out. -/
def TakenFrom (w : World) (d : Delivery) : Prop :=
  d.queue = d.message.queue ∧ ∃ e req, w.store.messages.lookup d.message.id = some e ∧
    d.message = (Memory.takenOver req e).msg

theorem TakenFrom.copyOf {w : World} {d : Delivery} (h : TakenFrom w d) : CopyOf w d := by
  obtain ⟨hq, e, req, hl, hmsg⟩ := h
  exact ⟨hq, e, hl, by rw [hmsg]; rfl⟩

theorem handOff_tasks (consumer : ConsumerSpec) (msg : Message) (w : World) :
    Runs env (handOff consumer msg) w (fun _ w' => ∀ name, ∀ d ∈ w'.tasks name,
      d ∈ w.tasks name ∨ d = ⟨msg, msg.attempts, msg.queue⟩) := by
  have hsubmit : ∀ w₁ : World, w₁.tasks = w.tasks →
      Runs env (Prog.perform (Effect.submit consumer.name ⟨msg, msg.attempts, msg.queue⟩)) w₁
        (fun _ w' => ∀ name, ∀ d ∈ w'.tasks name,
          d ∈ w.tasks name ∨ d = ⟨msg, msg.attempts, msg.queue⟩) := by
    intro w₁ ht name d hd
    rw [← ht]
    exact submit_tasks hd
  have hclock : Runs env clock w (fun _ w' => w'.tasks = w.tasks) := rfl
  apply hclock.bind
  intro now w₁ h₁
  have hrecord : Runs env (recordHistory ⟨msg.id, msg.queue, .queued, .processing, consumer.name,
      "", now⟩) w₁ (fun _ w' => w'.tasks = w.tasks) := h₁
  apply hrecord.bind
  intro _ w₂ h₂
  apply (hsubmit w₂ h₂).bind
  intro reply w₃ h₃
  cases reply with
  | ok u => exact Runs.pure h₃
  | error e => exact h₃

theorem handOffAll_tasks (consumer : ConsumerSpec) (msgs : List Message) (w : World) :
    Runs env (handOffAll consumer msgs) w (fun _ w' => ∀ name, ∀ d ∈ w'.tasks name,
      d ∈ w.tasks name ∨ ∃ msg ∈ msgs, d = ⟨msg, msg.attempts, msg.queue⟩) := by
  induction msgs generalizing w with
  | nil => exact Runs.pure (fun _ _ hd => Or.inl hd)
  | cons msg msgs ih =>
    apply (handOff_tasks consumer msg w).bind
    intro _ w₁ h₁
    apply (ih w₁).mono
    intro _ w₂ h₂ name d hd
    rcases h₂ name d hd with hd | ⟨other, ho, rfl⟩
    · rcases h₁ name d hd with hd | rfl
      · exact Or.inl hd
      · exact Or.inr ⟨msg, List.mem_cons_self, rfl⟩
    · exact Or.inr ⟨other, List.mem_cons_of_mem msg ho, rfl⟩

theorem claimBatch_tasks {w : World} (hk : w.store.Keyed) (consumer : ConsumerSpec) :
    Runs env (claimBatch consumer) w (fun _ w' => ∀ name, ∀ d ∈ w'.tasks name,
      d ∈ w.tasks name ∨ TakenFrom w d) := by
  have hqueue : Runs env (Prog.perform (Effect.queue consumer.queue)) w (fun _ w' => w = w') := rfl
  apply hqueue.bind
  rintro reply _ rfl
  cases reply with
  | error e => exact Runs.pure (fun _ _ hd => Or.inl hd)
  | ok queue =>
    have hclock : Runs env clock w (fun _ w' => w'.tasks = w.tasks ∧ w'.store = w.store) :=
      ⟨rfl, rfl⟩
    apply hclock.bind
    rintro now w₁ ⟨ht₁, hs₁⟩
    have hclaim : ∀ req, Runs env (store (.claim req)) w₁ (fun reply w' => w'.tasks = w.tasks ∧
        ∀ claimed, reply = .ok claimed → ∀ msg ∈ claimed,
          TakenFrom w ⟨msg, msg.attempts, msg.queue⟩) := by
      intro req
      refine ⟨ht₁, fun claimed hreply msg hm => ⟨rfl, ?_⟩⟩
      rcases viewOf_claim (s := w₁.store) (hs₁ ▸ hk) req with ⟨e, hr, -⟩ | ⟨_, hr, -, hc, -⟩
      · cases hr.symm.trans hreply
      · obtain rfl := Except.ok.inj (hr.symm.trans hreply)
        obtain ⟨e, hl, -, hmsg⟩ := hc msg hm
        exact ⟨e, req, hs₁ ▸ hl, hmsg⟩
    apply (hclaim _).bind
    rintro reply w₂ ⟨ht₂, hcopies⟩
    cases reply with
    | error e => exact Runs.pure (fun name d hd => Or.inl (by rwa [ht₂] at hd))
    | ok claimed =>
      apply (handOffAll_tasks consumer claimed w₂).bind
      intro _ w₃ h₃
      refine Runs.pure (fun name d hd => ?_)
      rcases h₃ name d hd with hd | ⟨msg, hm, rfl⟩
      · exact Or.inl (by rwa [ht₂] at hd)
      · exact Or.inr (hcopies claimed rfl msg hm)

end RabbitmqLite.Engine
