import RabbitmqLite.Engine.Filing
import RabbitmqLite.Engine.LetterAgreement

/-! # Replaying a dead letter again and again

A message travels from the store to a consumer, from there into a dead letter
and, by a replay, into a new message. All copies that are made on the way have
the content the message was stored with, so a message that was replayed many
times is still the first publication, apart from the two headers that name its
predecessor.
-/

namespace RabbitmqLite.Engine
open Broker Collections Storage Atomic
open Memory (Record)

variable {engine : Engine} {env : Env}

/-! ## Copies keep the content -/

/-- The message has existed, and what the store still has of it has this content. -/
structure View.Preserved (c : Content) (v : View) : Prop where
  known : v.history ≠ []
  record : ∀ e, v.record = some e → e.msg.content = c
  letters : ∀ a d, v.letters a = some d → d.content = c

namespace View.Preserved
variable {c : Content} {v : View}

theorem recorded (h : v.Preserved c) (events : List HistoryEvent) :
    (v.recorded events).Preserved c where
  known := fun hnil => h.known (List.append_eq_nil_iff.mp hnil).1
  record := h.record
  letters := h.letters

theorem takenOver (h : v.Preserved c) (req : ClaimRequest) : (v.takenOver req).Preserved c where
  known := h.known
  record := by
    intro e he
    obtain ⟨old, hr, rfl⟩ := Option.map_eq_some_iff.mp he
    exact h.record old hr
  letters := h.letters

theorem filed (h : v.Preserved c) {letter : DeadLetter} (hl : letter.content = c) :
    (v.filed letter).Preserved c where
  known := h.known
  record := h.record
  letters := by
    intro a d hd
    by_cases ha : a = letter.id
    · have hd' : letter = d := by simpa [View.filed, ha] using hd
      exact hd' ▸ hl
    · exact h.letters a d (by simpa [View.filed, ha] using hd)

theorem settled (h : v.Preserved c) {change : Message → Message}
    (hchange : ∀ msg, (change msg).content = msg.content) (events : List HistoryEvent) :
    (v.settled change events).Preserved c := by
  by_cases hp : v.Leased
  · obtain ⟨e, hr, hp⟩ := hp
    rw [settled_of_leased hr hp]
    refine ⟨fun hnil => h.known (List.append_eq_nil_iff.mp hnil).1, ?_, h.letters⟩
    intro e' he'
    obtain rfl := Option.some.inj he'
    exact (hchange e.msg).trans (h.record e hr)
  · rw [settled_of_not_leased hp]
    exact h

theorem buried (h : v.Preserved c) {d : Delivery} (hd : d.message.content = c)
    (hq : d.queue = c.queue) (consumer : String) (cause : Cause) (firstFailedAt now : Time)
    (id : String) : (buriedBy consumer d cause
      { letterOf d cause firstFailedAt now with id := id } now v).Preserved c := by
  have hletter : { letterOf d cause firstFailedAt now with id := id }.content = c := by
    rw [← hd] at hq ⊢
    simp only [DeadLetter.content, letterOf, hq]
    rfl
  exact (h.filed hletter).settled (by intro; rfl) _

theorem failed (h : v.Preserved c) {d : Delivery} (hd : d.message.content = c)
    (hq : d.queue = c.queue) {consumer : String} {cause : Cause} {g : View → View}
    (hg : FailedBy engine consumer d cause g) : (g v).Preserved c := by
  unfold FailedBy at hg
  split_ifs at hg
  · obtain ⟨availableAt, now, rfl⟩ := hg
    exact h.settled (by intro; rfl) _
  · obtain ⟨firstFailedAt, now, id, rfl⟩ := hg
    exact h.buried hd hq _ _ _ _ _

theorem reclaimed (h : v.Preserved c) {e : Record} (hr : v.record = some e) {now : Time}
    {g : View → View} (hg : ReclaimedBy engine now e.msg g) : (g v).Preserved c := by
  have hc : e.msg.content = c := h.record e hr
  unfold ReclaimedBy at hg
  split_ifs at hg
  · rw [hg]
    exact h.settled (by intro; rfl) _
  · obtain ⟨firstFailedAt, id, rfl⟩ := hg
    exact h.buried (d := ⟨e.msg, e.msg.attempts, e.msg.queue⟩) hc (hc ▸ rfl) _ _ _ _ _

theorem dispatched (h : v.Preserved c) {consumer : ConsumerSpec} {req : ClaimRequest}
    {msg : Message} {g : View → View} (hg : DispatchedBy env consumer req msg g) :
    (g v).Preserved c := by
  obtain ⟨a, ⟨now, rfl | ⟨-, later, rfl⟩⟩, rfl⟩ := hg
  · exact (h.takenOver req).recorded _
  · exact ((h.takenOver req).recorded _).settled (by intro; rfl) _

end View.Preserved

/-- The tasks for a message carry this content. -/
def TasksCarry (w : World) (id : String) (c : Content) : Prop :=
  ∀ consumer, ∀ d ∈ w.tasks consumer, d.message.id = id →
    d.message.content = c ∧ d.queue = c.queue

/-- Every operation keeps what there is of the content of a message. -/
theorem Change.preserved {w : World} {op : Op} {reply : op.Reply} {id : String} {v v' : View}
    {c : Content} (hc : Change engine env w op reply id v v') (ht : TasksCarry w id c)
    (h : v.Preserved c) : v'.Preserved c := by
  cases hc with
  | same => exact h
  | publish | reject | replay => exact absurd rfl h.known
  | pull hr hc hm hn hg =>
    rw [hg]
    exact (h.takenOver _).recorded _
  | dispatch hr hc hg => exact h.dispatched hg
  | ack | requeue | handled => exact h.settled (by intro; rfl) _
  | @nack _ _ _ _ _ _ e _ hr hg =>
    have he : e.msg.content = c := h.record e hr
    exact h.failed (d := ⟨e.msg, e.msg.attempts, e.msg.queue⟩) he (he ▸ rfl) hg
  | failed hd hg =>
    obtain ⟨hcontent, hqueue⟩ := ht _ _ (List.mem_of_head? hd) rfl
    exact h.failed hcontent hqueue hg
  | reclaim hr hm hp hg => exact h.reclaimed hr hg
  | @replayed _ letterID =>
    refine ⟨h.known, h.record, fun a d' hd' => ?_⟩
    by_cases ha : a = letterID
    · simp only [View.replayed, ha, if_true] at hd'
      obtain ⟨d, hd, rfl⟩ := Option.map_eq_some_iff.mp hd'
      exact h.letters letterID d hd
    · exact h.letters a d' (by simpa [View.replayed, ha] using hd')
  | purge => exact ⟨h.known, by simp, h.letters⟩
  | @discard i =>
    refine ⟨h.known, h.record, fun a d hd => ?_⟩
    by_cases ha : a = i
    · simp [View.discarded, ha] at hd
    · exact h.letters a d (by simpa [View.discarded, ha] using hd)

/-! ## Tasks -/

theorem replayDeadLetter_tasks (id : String) (w : World) :
    Runs env (replayDeadLetter id) w (fun _ w' => w'.tasks = w.tasks) := by
  have hread : Runs env (store (.deadLetter id)) w (fun _ w' => w'.tasks = w.tasks) := rfl
  apply hread.bind
  intro reply w₁ h₁
  cases reply with
  | error e => exact Runs.pure h₁
  | ok record =>
    have hqueue : Runs env (Prog.perform (Effect.queue record.queue)) w₁
        (fun _ w' => w'.tasks = w.tasks) := h₁
    apply hqueue.bind
    intro reply w₂ h₂
    cases reply with
    | error e => exact Runs.pure h₂
    | ok queue =>
      have hclock : Runs env clock w₂ (fun _ w' => w'.tasks = w.tasks) := h₂
      apply hclock.bind
      intro now w₃ h₃
      have hnew : Runs env newID w₃ (fun _ w' => w'.tasks = w.tasks) := h₃
      apply hnew.bind
      intro fresh w₄ h₄
      rw [transition_of_created rfl]
      have happend : Runs env (store (.append [replayMessage fresh record queue now])) w₄
          (fun _ w' => w'.tasks = w.tasks) := h₄
      apply happend.bind
      intro reply w₅ h₅
      cases reply with
      | error e => exact Runs.pure h₅
      | ok u => exact h₅

/-- Tasks are there already, or they were taken from stored messages. -/
theorem exec_tasks (engine : Engine) (hinj : Function.Injective env.newID) {w : World}
    (hk : w.store.Keyed) (op : Op) {consumer : String} {d : Delivery}
    (hd : d ∈ (exec engine env op w).2.tasks consumer) :
    d ∈ w.tasks consumer ∨ TakenFrom w d := by
  rcases op.plain_cases with hop | ⟨spec, rfl⟩ | ⟨id, rfl⟩
  · exact Or.inl ((exec_tended engine hinj hop w).tasks consumer d hd)
  · exact claimBatch_tasks hk spec consumer d hd
  · left
    have hsame : (exec engine env (.replayDeadLetter id) w).2.tasks = w.tasks :=
      replayDeadLetter_tasks id w
    rwa [hsame] at hd

/-! ## Remembering the content of a message -/

/-- All that is left of a message, in the store and in the pools, has this content. -/
structure Remembered (w : World) (id : String) (c : Content) : Prop where
  view : (w.view id).Preserved c
  tasks : TasksCarry w id c

theorem Remembered.step (hinj : Function.Injective env.newID) {w : World} (htidy : Tidy env w)
    {id : String} {c : Content} (h : Remembered w id c) (op : Op) :
    Remembered (exec engine env op w).2 id c where
  view := ((exec_changes engine hinj htidy op).2 id).preserved h.tasks h.view
  tasks := by
    intro consumer d hd hid
    rcases exec_tasks engine hinj htidy.healthy.keyed op hd with hd | htaken
    · exact h.tasks consumer d hd hid
    · obtain ⟨hq, e, hl, hc⟩ := htaken.copyOf
      have hcontent : e.msg.content = c := h.view.record e (hid ▸ hl)
      rw [hc] at hcontent
      exact ⟨hcontent, hq.trans (congrArg Content.queue hcontent)⟩

/-- A message that was just stored under a new id. -/
theorem Remembered.of_new (hinj : Function.Injective env.newID) {w : World} (htidy : Tidy env w)
    {op : Op} {msg : Message} (hnew : ¬ Used env w msg.id) {detail : String} {now : Time}
    {g : View → View} (hg : PublishedBy detail now msg g)
    (hv : (exec engine env op w).2.view msg.id = g View.empty) :
    Remembered (exec engine env op w).2 msg.id msg.clone.content where
  view := by
    rw [hv, hg]
    refine ⟨by simp [View.recorded, View.stored, View.empty], fun e he => ?_, fun a d hd => ?_⟩
    · obtain rfl := Option.some.inj he
      rfl
    · cases hd
  tasks := by
    intro consumer d hd hid
    rcases exec_tasks engine hinj htidy.healthy.keyed op hd with hd | ⟨-, e, _, hl, -⟩
    · exact absurd (htidy.tasks consumer d hd) (hid ▸ hnew)
    · exact absurd (htidy.used_of_record (hid ▸ hl)) hnew

/-! ## What a replay changes -/

theorem letter_iff {w : World} {a : String} {d : DeadLetter} :
    w.store.deadLetters.lookup a = some d ↔ (w.view d.messageID).letters a = some d := by
  simp [World.view, viewOf, Option.filter_eq_some_iff]

/-- A successful replay of a letter: there is one more message, and only the replay fields
of the letter have changed. -/
structure OneMore (w w' : World) (id : String) (result : ReplayResult) : Prop where
  new : w.store.messages.lookup result.messageID = none
  stored : ∃ e, w'.store.messages.lookup result.messageID = some e
  messages : ∀ x, x ≠ result.messageID →
    w'.store.messages.lookup x = w.store.messages.lookup x
  letter : ∃ d now, w.store.deadLetters.lookup id = some d ∧
    w'.store.deadLetters.lookup id = some { d with
      replayedAs := result.messageID
      replayedAt := now
      replayCount := d.replayCount + 1 }
  letters : ∀ a, a ≠ id → w'.store.deadLetters.lookup a = w.store.deadLetters.lookup a

theorem ReplayedBy.oneMore {w w' : World} {id : String} {result : ReplayResult}
    {record : DeadLetter} {queue : Queue} {now : Time}
    (h : ReplayedBy env w w' id result record queue now) (htidy : Tidy env w)
    (hid : record.id = id) : OneMore w w' id result := by
  obtain ⟨g, hg, hb⟩ := h.becomes
  have hempty : w.view result.messageID = View.empty :=
    htidy.view_of_unused (h.fresh.unused _ (List.mem_singleton_self _))
  have hletters : ∀ x, (w'.view x).letters =
      ((w.view x).replayed record.id result.messageID now).letters := by
    intro x
    rw [hb.view]
    by_cases hx : x = result.messageID
    · subst hx
      rw [onlyAt_self, hg]
      rfl
    · rw [onlyAt_of_ne hx]
  subst hid
  refine ⟨congrArg View.record hempty, ?_, ?_, ⟨record, now, h.read, ?_⟩, ?_⟩
  · have hr := congrArg View.record (hb.view result.messageID)
    rw [onlyAt_self, hg] at hr
    exact ⟨_, hr⟩
  · intro x hx
    have hr := congrArg View.record (hb.view x)
    rwa [onlyAt_of_ne hx] at hr
  · rw [letter_iff, hletters]
    simp [View.replayed, letter_iff.mp h.read]
  · intro a ha
    apply Option.ext
    intro d
    rw [letter_iff, letter_iff, hletters]
    simp [View.replayed, ha]

/-! ## Handlers that edit the message

A handler gets a pointer to the message, and the engine reads the dead letter
from it afterwards. The letter and all its replays have the content the message
was stored with only if the handler puts back what it changes. -/

/-- An operation, or a task whose handler edits the message. -/
inductive HandledOp where
  | plain (op : Op)
  | edited (consumer : ConsumerSpec) (outcome : Option Cause) (edit : Message → Message)

abbrev HandledOp.Reply : HandledOp → Type
  | .plain op => op.Reply
  | .edited _ _ _ => Unit

def execHandled (engine : Engine) (env : Env) : (act : HandledOp) → World → act.Reply × World
  | .plain op, w => exec engine env op w
  | .edited consumer outcome edit, w =>
    (engine.workEditing consumer outcome edit).run (perform env) w

abbrev HandledEvent := Event HandledOp HandledOp.Reply

/-- The operation without the edit. -/
def HandledOp.unedited : HandledOp → Op
  | .plain op => op
  | .edited consumer outcome _ => .work consumer outcome

/-- The engine gives a message up after this failure. -/
def Buries (engine : Engine) (attempt : ℤ) (cause : Cause) : Prop :=
  isPermanent cause = true ∨ engine.policy.shouldRetry attempt = false

/-- The edit does not show: the message has its id, and if the engine gives it up, the letter is
the one of the message as it was delivered. -/
def HandledOp.Unseen (engine : Engine) (w : World) : HandledOp → Prop
  | .plain _ => True
  | .edited consumer outcome edit => ∀ d ∈ (w.tasks consumer.name).head?,
      (edit d.message).id = d.message.id ∧
      ∀ cause ∈ outcome, Buries engine d.attempt cause → ∀ firstFailedAt now,
        letterOf { d with message := edit d.message } cause firstFailedAt now =
          letterOf d cause firstFailedAt now

section Congruence
variable {d : Delivery} {msg : Message} {cause : Cause}

theorem acknowledge_congr (consumer : ConsumerSpec) (hid : msg.id = d.message.id) :
    acknowledge consumer { d with message := msg } = acknowledge consumer d := by
  refine bind_congr (fun now => ?_)
  dsimp only
  rw [hid]
  exact bind_congr (fun reply => by cases reply <;> rfl)

theorem deadLetter_congr (party : Party) (consumer : String) (now : Time)
    (hid : msg.id = d.message.id)
    (hletter : ∀ firstFailedAt now,
      letterOf { d with message := msg } cause firstFailedAt now =
        letterOf d cause firstFailedAt now) :
    deadLetter party consumer { d with message := msg } cause now =
      deadLetter party consumer d cause now := by
  unfold deadLetter
  dsimp only
  rw [hid]
  refine bind_congr (fun firstFailedAt => bind_congr (fun id => ?_))
  rw [hletter]
  refine bind_congr (fun reply => ?_)
  cases reply with
  | error e => rfl
  | ok u => exact bind_congr (fun reply => by cases reply <;> rfl)

/-- What the engine reads of a delivery after the handler. -/
theorem process_congr (consumer : ConsumerSpec) {outcome : Option Cause}
    (hid : msg.id = d.message.id)
    (hletter : ∀ cause ∈ outcome, Buries engine d.attempt cause → ∀ firstFailedAt now,
      letterOf { d with message := msg } cause firstFailedAt now =
        letterOf d cause firstFailedAt now) :
    process engine consumer { d with message := msg } outcome =
      process engine consumer d outcome := by
  refine bind_congr (fun started => ?_)
  cases outcome with
  | none => exact acknowledge_congr consumer hid
  | some cause =>
    refine bind_congr (fun now => ?_)
    by_cases hgives : Buries engine d.attempt cause
    · have hretry : (!isPermanent cause && engine.policy.shouldRetry d.attempt) = false := by
        rcases hgives with h | h <;> simp [h]
      simp only [hretry, Bool.not_false, if_true]
      exact deadLetter_congr _ _ now hid (hletter cause rfl hgives)
    · obtain ⟨hpermanent, hretry⟩ := not_or.mp hgives
      simp only [hpermanent, Bool.not_eq_false] at hretry ⊢
      simp only [hretry, Bool.not_false, Bool.and_true, Bool.not_true, Bool.false_eq_true, if_false]
      rw [hid]
      exact bind_congr (fun availableAt => bind_congr (fun reply => by cases reply <;> rfl))

end Congruence

/-- An edit that does not show changes nothing. -/
theorem HandledOp.Unseen.execHandled_eq {w : World} {act : HandledOp} (h : act.Unseen engine w) :
    (execHandled engine env act w).2 = (exec engine env act.unedited w).2 := by
  cases act with
  | plain op => rfl
  | edited consumer outcome edit =>
    change ((workEditing engine consumer outcome edit).run (perform env) w).2 =
      ((work engine consumer outcome).run (perform env) w).2
    simp only [workEditing, work, Prog.run_bind, Prog.run_perform]
    cases hd : (perform env (.receive consumer.name) w).1 with
    | none => rfl
    | some d =>
      have hnext : d ∈ (w.tasks consumer.name).head? := by
        cases ht : w.tasks consumer.name <;> simp_all [perform]
      obtain ⟨hid, hletter⟩ := h d hnext
      dsimp only [id]
      rw [process_congr consumer hid hletter]

/-- The engine on an empty store after such steps. -/
def handled (engine : Engine) (env : Env) (registry : Registry) (acts : List HandledOp) : World :=
  after (execHandled engine env) (World.init registry) acts

def handledTrace (engine : Engine) (env : Env) (registry : Registry) (acts : List HandledOp) :
    List HandledEvent :=
  trace (execHandled engine env) (World.init registry) acts

theorem handled_snoc (engine : Engine) (env : Env) (registry : Registry) (acts : List HandledOp)
    (act : HandledOp) : handled engine env registry (acts ++ [act]) =
      (execHandled engine env act (handled engine env registry acts)).2 := by
  unfold handled
  rw [after_append, after_singleton]

def isReplayOf (id : String) : HandledEvent → Bool
  | ⟨.plain (.replayDeadLetter i), .ok _⟩ => i = id
  | _ => false

/-- How often a letter was replayed successfully. -/
def replays (es : List HandledEvent) (id : String) : ℕ := es.countP (isReplayOf id)

/-- The letters count their replays, and they are stored under their ids. -/
structure ReplaysCounted (env : Env) (w : World) (es : List HandledEvent) : Prop where
  letters : ∀ a d, w.store.deadLetters.lookup a = some d →
    d.id = a ∧ d.replayCount = replays es a
  unused : ∀ a, ¬ Used env w a → replays es a = 0

theorem replays_snoc (es : List HandledEvent) (e : HandledEvent) (id : String) :
    replays (es ++ [e]) id = replays es id + if isReplayOf id e then 1 else 0 := by
  simp [replays, List.countP_append, List.countP_singleton]

/-- An operation that replays nothing and leaves the letters alone, apart from new ones. -/
theorem ReplaysCounted.kept {w w' : World} {es : List HandledEvent}
    (h : ReplaysCounted env w es) {e : HandledEvent} (he : ∀ a, isReplayOf a e = false)
    (hids : w.ids ≤ w'.ids)
    (hl : ∀ a d, w'.store.deadLetters.lookup a = some d →
      w.store.deadLetters.lookup a = some d ∨ ¬ Used env w a ∧ d.id = a ∧ d.replayCount = 0) :
    ReplaysCounted env w' (es ++ [e]) := by
  have hsame : ∀ a, replays (es ++ [e]) a = replays es a := by
    intro a
    rw [replays_snoc, he a]
    rfl
  constructor
  · intro a d hd
    rw [hsame]
    rcases hl a d hd with hd | ⟨hnew, hid, hcount⟩
    · exact h.letters a d hd
    · exact ⟨hid, by rw [hcount, h.unused a hnew]; rfl⟩
  · intro a hnot
    rw [hsame]
    exact h.unused a (fun hu => hnot (hu.mono hids))

theorem OneMore.counted {w w' : World} {es : List HandledEvent} {id : String}
    {result : ReplayResult} (h : OneMore w w' id result) (htidy : Tidy env w)
    (hids : w.ids ≤ w'.ids) (hc : ReplaysCounted env w es) :
    ReplaysCounted env w' (es ++ [⟨.plain (.replayDeadLetter id), .ok result⟩]) := by
  obtain ⟨d₀, now, hd₀, hd₀'⟩ := h.letter
  constructor
  · intro a d hd
    rw [replays_snoc]
    by_cases ha : a = id
    · subst ha
      obtain rfl := Option.some.inj (hd₀'.symm.trans hd)
      obtain ⟨hid, hcount⟩ := hc.letters a d₀ hd₀
      exact ⟨hid, by simp [isReplayOf, hcount]⟩
    · rw [h.letters a ha] at hd
      simpa [isReplayOf, Ne.symm ha] using hc.letters a d hd
  · intro a hnot
    have hw : ¬ Used env w a := fun hu => hnot (hu.mono hids)
    have hne : id ≠ a := by
      rintro rfl
      exact hw (htidy.healthy.letters id d₀ hd₀)
    rw [replays_snoc, hc.unused a hw]
    simp [isReplayOf, hne]

theorem claimBatch_letters (hinj : Function.Injective env.newID) {w : World} (htidy : Tidy env w)
    (consumer : ConsumerSpec) (x : String) :
    ((exec engine env (.claimBatch consumer) w).2.view x).letters = (w.view x).letters := by
  have hc := (exec_changes engine hinj htidy (.claimBatch consumer)).2 x
  generalize (exec engine env (.claimBatch consumer) w).1 = reply at hc
  generalize w.view x = v at hc ⊢
  generalize (exec engine env (.claimBatch consumer) w).2.view x = v' at hc ⊢
  cases hc with
  | same => rfl
  | dispatch hr hc hg => exact letters_dispatched hg v

theorem ReplaysCounted.step (hinj : Function.Injective env.newID) {w : World}
    {es : List HandledEvent} (htidy : Tidy env w) (h : ReplaysCounted env w es) (op : Op) :
    ReplaysCounted env (exec engine env op w).2
      (es ++ [⟨.plain op, (exec engine env op w).1⟩]) := by
  rcases op.plain_cases with hop | ⟨consumer, rfl⟩ | ⟨id, rfl⟩
  · have ht := exec_tended engine hinj hop w
    apply h.kept _ ht.ids ht.letters
    intro a
    cases op with
    | replayDeadLetter => exact hop.elim
    | _ => rfl
  · obtain ⟨req, claimed, -, f, -, hb⟩ := claimBatch_runs htidy.healthy consumer
      (fun _ _ hr => htidy.used_of_record hr)
    have hids : w.ids ≤ (exec engine env (.claimBatch consumer) w).2.ids := hb.ids
    apply h.kept (fun _ => rfl) hids
    intro a d hd
    rw [letter_iff, claimBatch_letters hinj htidy, ← letter_iff] at hd
    exact Or.inl hd
  · have hout : ReplayOutcome env w id (exec engine env (.replayDeadLetter id) w).1
        (exec engine env (.replayDeadLetter id) w).2 := replayDeadLetter_outcome hinj htidy.healthy
      (fun _ _ hr => htidy.used_of_record hr) id
    generalize exec engine env (.replayDeadLetter id) w = x at hout ⊢
    obtain ⟨_ | result, w'⟩ := x
    · apply h.kept (fun _ => rfl) hout.ids
      intro a d hd
      rw [letter_iff, hout.view, still, ← letter_iff] at hd
      exact Or.inl hd
    · obtain ⟨record, queue, now, hr⟩ := hout
      obtain ⟨g, -, hb⟩ := hr.becomes
      exact (hr.oneMore htidy (h.letters id record hr.read).1).counted htidy hb.ids h

/-! ## Chains of replays -/

/-- After these steps, the last message of a chain of replays that began with a
publication: the messages are those that were stored in the beginning and by the last
replay so far, as they were stored. Anything may happen in between. -/
inductive Chain (engine : Engine) (env : Env) (registry : Registry) :
    List HandledOp → ℕ → Message → Message → Prop where
  | published {acts : List HandledOp} {pub : Publication} {id : String} {e : Record}
      (hnew : (handled engine env registry acts).store.messages.lookup id = none)
      (hl : (handled engine env registry
        (acts ++ [.plain (.publish pub)])).store.messages.lookup id = some e) :
      Chain engine env registry (acts ++ [.plain (.publish pub)]) 0 e.msg e.msg
  | later {acts : List HandledOp} {n : ℕ} {first last : Message} (act : HandledOp)
      (h : Chain engine env registry acts n first last) :
      Chain engine env registry (acts ++ [act]) n first last
  | replayed {acts : List HandledOp} {n : ℕ} {first last : Message} {id : String}
      {result : ReplayResult} {e : Record} (h : Chain engine env registry acts n first last)
      (hreply : (exec engine env (.replayDeadLetter id) (handled engine env registry acts)).1 =
        .ok result)
      (hlast : result.originalMessageID = last.id)
      (hl : (handled engine env registry
        (acts ++ [.plain (.replayDeadLetter id)])).store.messages.lookup result.messageID =
          some e) :
      Chain engine env registry (acts ++ [.plain (.replayDeadLetter id)]) (n + 1) first e.msg

/-- The message repeats a publication, and it names its predecessor and the letter it was
made from. -/
structure Republished (first : Message) (previous letter : String) (msg : Message) : Prop where
  payload : msg.payload = first.payload
  exchange : msg.exchange = first.exchange
  routingKey : msg.routingKey = first.routingKey
  schema : msg.schema = first.schema
  queue : msg.queue = first.queue
  headers : ∀ key, msg.header key =
    if key = headerDeadLetterID then some letter
    else if key = headerReplayOf then some previous
    else first.header key
  state : msg.state = .queued
  attempts : msg.attempts = 0

/-- The message repeats a publication that has a payload of its own, whatever its provenance
headers say. -/
structure Alike (first msg : Message) : Prop where
  own : Payload.copied first.payload = first.payload
  payload : msg.payload = first.payload
  exchange : msg.exchange = first.exchange
  routingKey : msg.routingKey = first.routingKey
  schema : msg.schema = first.schema
  queue : msg.queue = first.queue
  headers : ∀ key, key ≠ headerDeadLetterID → key ≠ headerReplayOf →
    msg.header key = first.header key

theorem Alike.clone (msg : Message) : Alike msg.clone msg.clone :=
  ⟨Payload.copied_copied msg.payload, rfl, rfl, rfl, rfl, rfl, fun _ _ _ => rfl⟩

theorem Republished.alike {first msg : Message} {previous letter : String}
    (h : Republished first previous letter msg)
    (hown : Payload.copied first.payload = first.payload) : Alike first msg where
  own := hown
  payload := h.payload
  exchange := h.exchange
  routingKey := h.routingKey
  schema := h.schema
  queue := h.queue
  headers := by
    intro key hd hr
    rw [h.headers, if_neg hd, if_neg hr]

/-- A letter with the content of a message that repeats a publication is replayed as another
such message. -/
theorem replayMessage_republished {first last : Message} (h : Alike first last)
    {record : DeadLetter} (hc : record.content = last.content) {queue : Queue}
    (hq : queue.name = record.queue) (id : String) (now : Time) :
    Republished first last.id record.id (replayMessage id record queue now) := by
  obtain ⟨hid, hqueue, hexchange, hkey, hschema, hpayload, hheaders⟩ := Content.mk.inj hc
  refine ⟨?_, ?_, ?_, ?_, ?_, ?_, rfl, rfl⟩
  · change Payload.copied record.payload = first.payload
    rw [hpayload.trans h.payload, h.own]
  · exact hexchange.trans h.exchange
  · exact hkey.trans h.routingKey
  · exact hschema.trans h.schema
  · exact hq.trans (hqueue.trans h.queue)
  · intro key
    have hlookup : (replayMessage id record queue now).header key =
        ((record.headers.insert headerReplayOf record.messageID).insert
          headerDeadLetterID record.id).lookup key := rfl
    rw [hlookup, lookup_insert_eq, lookup_insert_eq, hid, hheaders]
    split_ifs with hd hr
    · rfl
    · rfl
    · exact h.headers key hd hr

theorem run_registry {α : Type} (p : Program α) (w : World) :
    (p.run (perform env) w).2.registry = w.registry := by
  induction p generalizing w with
  | ret a => rfl
  | call e next ih => exact (ih _ _).trans (perform_registry env e w)

/-- The worlds of a run in which replays can be counted. -/
structure Replayable (env : Env) (registry : Registry) (w : World)
    (es : List HandledEvent) : Prop where
  tidy : Tidy env w
  counted : ReplaysCounted env w es
  registry : w.registry = registry

theorem Replayable.step (hinj : Function.Injective env.newID) {registry : Registry} {w : World}
    {es : List HandledEvent} (h : Replayable env registry w es) {act : HandledOp}
    (hu : act.Unseen engine w) :
    Replayable env registry (execHandled engine env act w).2
      (es ++ [⟨act, (execHandled engine env act w).1⟩]) where
  tidy := hu.execHandled_eq ▸ (exec_changes engine hinj h.tidy act.unedited).1
  counted := by
    cases act with
    | plain op => exact h.counted.step hinj h.tidy op
    | edited consumer outcome edit =>
      have ht := exec_tended engine hinj (show (Op.work consumer outcome).Plain from trivial) w
      rw [hu.execHandled_eq]
      exact h.counted.kept (fun _ => rfl) ht.ids ht.letters
  registry := by
    rw [hu.execHandled_eq]
    exact (run_registry _ _).trans h.registry

theorem handled_replayable (hinj : Function.Injective env.newID) (registry : Registry)
    {acts : List HandledOp}
    (hu : StepsMeet (execHandled engine env) (fun w act => act.Unseen engine w)
      (World.init registry) acts) :
    Replayable env registry (handled engine env registry acts)
      (handledTrace engine env registry acts) := by
  have hinit : Replayable env registry (World.init registry) [] := by
    refine ⟨init_tidy env registry, ⟨?_, fun _ _ => rfl⟩, rfl⟩
    intro a d hd
    simp [World.init, Memory.Store.new] at hd
  exact run_rule (execHandled engine env) (fun w es act hact h => h.step hinj hact) hu hinit

/-- What is stored by a publication is new. -/
theorem publish_remembered (hinj : Function.Injective env.newID) {w : World}
    (htidy : Tidy env w) {pub : Publication} {id : String} {e : Record}
    (hnew : w.store.messages.lookup id = none)
    (hl : (exec engine env (.publish pub) w).2.store.messages.lookup id = some e) :
    Alike e.msg e.msg ∧
      Remembered (exec engine env (.publish pub) w).2 e.msg.id e.msg.content := by
  have hold : (w.view id).record = none := hnew
  have hrecord : ((exec engine env (.publish pub) w).2.view id).record = some e := hl
  have hout : Runs env (publish engine pub) w _ := publish_runs hinj htidy.healthy
    (fun _ _ hr => htidy.used_of_record hr) pub
  rcases hout with ⟨messages, now, f, hfresh, -, hf, hb⟩ | ⟨id', letter, -, -, -, hb⟩
  · have hview : ∀ x, (exec engine env (.publish pub) w).2.view x = f x (w.view x) := hb.view
    by_cases hid : id ∈ messages.map Message.id
    · obtain ⟨msg, hm, rfl⟩ := List.mem_map.mp hid
      have hempty := htidy.view_of_unused (hfresh.unused msg hm)
      have hg := hf.inside msg hm
      rw [hview, hempty, hg] at hrecord
      obtain rfl := Option.some.inj hrecord
      refine ⟨Alike.clone msg, Remembered.of_new hinj htidy (hfresh.unused msg hm) hg ?_⟩
      rw [hview, hempty]
    · rw [hview, hf.outside id hid] at hrecord
      cases hold.symm.trans hrecord
  · have hview : ∀ x, (exec engine env (.publish pub) w).2.view x =
      onlyAt id' (View.filed letter) x (w.view x) := hb.view
    rw [hview] at hrecord
    by_cases hx : id = id'
    · subst hx
      rw [onlyAt_self] at hrecord
      cases hold.symm.trans hrecord
    · rw [onlyAt_of_ne hx] at hrecord
      cases hold.symm.trans hrecord

theorem Replayable.replayedBy (hinj : Function.Injective env.newID) {registry : Registry}
    {w : World} {es : List HandledEvent} (h : Replayable env registry w es) {id : String}
    {result : ReplayResult}
    (hreply : (exec engine env (.replayDeadLetter id) w).1 = .ok result) :
    ∃ record queue now,
      ReplayedBy env w (exec engine env (.replayDeadLetter id) w).2 id result record queue now ∧
        record.id = id := by
  have hout : ReplayOutcome env w id (exec engine env (.replayDeadLetter id) w).1
      (exec engine env (.replayDeadLetter id) w).2 := replayDeadLetter_outcome hinj
    h.tidy.healthy (fun _ _ hr => h.tidy.used_of_record hr) id
  rw [hreply] at hout
  obtain ⟨record, queue, now, hr⟩ := hout
  exact ⟨record, queue, now, hr, (h.counted.letters id record hr.read).1⟩

/-- The next replay in a chain. -/
theorem Replayable.republished (hinj : Function.Injective env.newID) {registry : Registry}
    (hnamed : ∀ name q, registry.queues.lookup name = some q → q.name = name) {w : World}
    {es : List HandledEvent} (h : Replayable env registry w es) {first last : Message}
    (halike : Alike first last) (hlast : Remembered w last.id last.content) {id : String}
    {result : ReplayResult} (hreply : (exec engine env (.replayDeadLetter id) w).1 = .ok result)
    (horiginal : result.originalMessageID = last.id) :
    ∃ e, (exec engine env (.replayDeadLetter id) w).2.store.messages.lookup result.messageID =
        some e ∧ Republished first last.id id e.msg ∧
      Remembered (exec engine env (.replayDeadLetter id) w).2 e.msg.id e.msg.content := by
  obtain ⟨record, queue, now, hr, rfl⟩ := h.replayedBy hinj hreply
  obtain ⟨g, hg, hb⟩ := hr.becomes
  have hunused := hr.fresh.unused _ (List.mem_singleton_self _)
  have hempty : w.view result.messageID = View.empty := h.tidy.view_of_unused hunused
  have hview : (exec engine env (.replayDeadLetter record.id) w).2.view result.messageID =
      g View.empty := by
    rw [hb.view, hempty, onlyAt_self, View.replayed_of_none]
    intro a
    rw [hg]
    rfl
  have hcontent : record.content = last.content := by
    have hid : record.messageID = last.id := by
      rw [← horiginal, hr.returned]
    exact hlast.view.letters record.id record (hid ▸ letter_iff.mp hr.read)
  have hqueue : queue.name = record.queue := by
    have hdeclared := hr.declared
    rw [h.registry, Registry.queue] at hdeclared
    split at hdeclared
    · rename_i q hq
      exact Except.ok.inj hdeclared ▸ hnamed record.queue q hq
    · cases hdeclared
  have hclone : (replayMessage result.messageID record queue now).clone =
      replayMessage result.messageID record queue now :=
    Message.clone_eq_self (Payload.copied_copied record.payload)
  have hremembered := Remembered.of_new hinj h.tidy hunused hg hview
  have hrecord := congrArg View.record hview
  rw [hclone] at hremembered
  rw [hg] at hrecord
  simp only [View.recorded, View.stored, hclone] at hrecord
  exact ⟨_, hrecord, replayMessage_republished halike hcontent hqueue _ _, hremembered⟩

theorem Chain.remembered (hinj : Function.Injective env.newID) {registry : Registry}
    (hnamed : ∀ name q, registry.queues.lookup name = some q → q.name = name)
    {acts : List HandledOp} {n : ℕ} {first last : Message}
    (h : Chain engine env registry acts n first last)
    (hu : StepsMeet (execHandled engine env) (fun w act => act.Unseen engine w)
      (World.init registry) acts) :
    Alike first last ∧ Remembered (handled engine env registry acts) last.id last.content := by
  induction h with
  | @published acts pub id e hnew hl =>
    have hr := handled_replayable hinj registry (hu.of_prefix _ (List.prefix_append acts _))
    rw [handled_snoc] at hl ⊢
    exact publish_remembered hinj hr.tidy hnew hl
  | @later acts n first last act h ih =>
    have hbefore := hu.of_prefix _ (List.prefix_append acts _)
    have hr := handled_replayable hinj registry hbefore
    obtain ⟨halike, hlast⟩ := ih hbefore
    have hunseen : act.Unseen engine (handled engine env registry acts) := hu.last
    rw [handled_snoc, hunseen.execHandled_eq]
    exact ⟨halike, hlast.step hinj hr.tidy act.unedited⟩
  | @replayed acts n first last id result e h hreply hlast hl ih =>
    have hbefore := hu.of_prefix _ (List.prefix_append acts _)
    have hr := handled_replayable hinj registry hbefore
    obtain ⟨halike, hold⟩ := ih hbefore
    obtain ⟨e', hl', hrep, hrem⟩ := hr.republished hinj hnamed halike hold hreply hlast
    rw [handled_snoc] at hl ⊢
    obtain rfl := Option.some.inj (hl'.symm.trans hl)
    exact ⟨hrep.alike halike.own, hrem⟩

/-- However often a message fails and is replayed, what is stored is the first publication, with
the last two links of the chain in its headers, as long as no edit of a handler shows. A replay
adds this message and changes nothing but the replay fields of its letter, which count its
replays. -/
theorem replays_preserve_publication (engine : Engine) (env : Env)
    (hinj : Function.Injective env.newID) (registry : Registry)
    (hnamed : ∀ name q, registry.queues.lookup name = some q → q.name = name)
    (acts : List HandledOp)
    (hunseen : StepsMeet (execHandled engine env) (fun w act => act.Unseen engine w)
      (World.init registry) acts) :
    (∀ id result, (exec engine env (.replayDeadLetter id) (handled engine env registry acts)).1 =
        .ok result →
      OneMore (handled engine env registry acts)
        (handled engine env registry (acts ++ [.plain (.replayDeadLetter id)])) id result ∧
      ∀ n first last, Chain engine env registry acts n first last →
        result.originalMessageID = last.id →
        ∃ e, (handled engine env registry
            (acts ++ [.plain (.replayDeadLetter id)])).store.messages.lookup result.messageID =
              some e ∧ Republished first last.id id e.msg) ∧
      ∀ id d, (handled engine env registry acts).store.deadLetters.lookup id = some d →
        d.replayCount = replays (handledTrace engine env registry acts) id := by
  have hr := handled_replayable hinj registry hunseen
  refine ⟨fun id result hreply => ?_, fun id d hd => (hr.counted.letters id d hd).2⟩
  rw [handled_snoc]
  constructor
  · obtain ⟨record, queue, now, hrep, hid⟩ := hr.replayedBy hinj hreply
    exact hrep.oneMore hr.tidy hid
  · intro n first last hchain horiginal
    obtain ⟨halike, hlast⟩ := hchain.remembered hinj hnamed hunseen
    obtain ⟨e, hl, hrep, -⟩ := hr.republished hinj hnamed halike hlast hreply horiginal
    exact ⟨e, hl, hrep⟩

def ordersConsumer : ConsumerSpec := ⟨"a", "orders", 1, 1, 30⟩

theorem ordersRegistry_named (maxAttempts : ℤ) :
    ∀ name q, (ordersRegistry maxAttempts).queues.lookup name = some q → q.name = name := by
  intro name q hlookup
  obtain ⟨rfl, rfl⟩ := ordersRegistry_lookup hlookup
  rfl

/-- The orders, with one attempt for each of them. -/
def handledOrders (acts : List HandledOp) : World :=
  handled (ordersEngine 1 oneAttempt) (ordersEnv []) (ordersRegistry 1) acts

def OrderChain : List HandledOp → ℕ → Message → Message → Prop :=
  Chain (ordersEngine 1 oneAttempt) (ordersEnv []) (ordersRegistry 1)

/-- An order fails at a handler, is replayed and is rejected by a client. The handler changes the
text of the last error, which nothing reads afterwards. -/
def failedTwice : List HandledOp :=
  [.plain (.publish order), .plain (.claimBatch ordersConsumer),
    .edited ordersConsumer (some (.failure "" false)) (fun msg => { msg with lastError := "late" }),
    .plain (.replayDeadLetter "||"), .plain (.pull ⟨"orders", "a", 1, 10⟩),
    .plain (.nack "|||" "" false 1)]

theorem replays_preserve_publication_failedTwice :
    ∃ first last e, OrderChain failedTwice 1 first last ∧
      (handledOrders (failedTwice ++ [.plain (.replayDeadLetter "||||")])).store.messages.lookup
        "|||||" = some e ∧
      Republished first "|||" "||||" e.msg := by
  have hfirst : ((handledOrders ([] ++ [.plain (.publish order)])).store.messages.lookup "|").map
      (fun e => e.msg.id) = some "|" := by
    decide +kernel
  obtain ⟨first, hl₀, hid₀⟩ := Option.map_eq_some_iff.mp hfirst
  have hsecond : ((handledOrders (failedTwice.take 4)).store.messages.lookup "|||").map
      (fun e => e.msg.id) = some "|||" := by
    decide +kernel
  obtain ⟨second, hl, hid⟩ := Option.map_eq_some_iff.mp hsecond
  have hreplied : (exec (ordersEngine 1 oneAttempt) (ordersEnv []) (.replayDeadLetter "||")
      (handledOrders (failedTwice.take 3))).1 = .ok ⟨"||", "|", "|||", "orders"⟩ := by
    decide +kernel
  have hdead : OrderChain (failedTwice.take 3) 0 first.msg first.msg :=
    .later _ (.later _ (.published rfl hl₀))
  have hchain : OrderChain failedTwice 1 first.msg second.msg :=
    .later _ (.later _ (.replayed hdead hreplied hid₀.symm hl))
  have hunseen : StepsMeet (execHandled (ordersEngine 1 oneAttempt) (ordersEnv []))
      (fun w act => act.Unseen (ordersEngine 1 oneAttempt) w) (World.init (ordersRegistry 1))
      failedTwice :=
    ⟨trivial, trivial, fun _ _ => ⟨rfl, fun _ _ _ _ _ => rfl⟩, trivial, trivial, trivial, trivial⟩
  have hreply : (exec (ordersEngine 1 oneAttempt) (ordersEnv []) (.replayDeadLetter "||||")
      (handledOrders failedTwice)).1 = .ok ⟨"||||", "|||", "|||||", "orders"⟩ := by
    decide +kernel
  obtain ⟨e, he, hrep⟩ := ((replays_preserve_publication (ordersEngine 1 oneAttempt)
    (ordersEnv []) (ordersEnv_injective []) (ordersRegistry 1) (ordersRegistry_named 1)
    failedTwice hunseen).1 "||||" ⟨"||||", "|||", "|||||", "orders"⟩ hreply).2 1
    first.msg second.msg hchain hid.symm
  rw [hid] at hrep
  refine ⟨first.msg, second.msg, e, hchain, ?_, hrep⟩
  rw [handledOrders]
  exact he

/-- An order fails at a handler that has set a header of the message. -/
def markedByHandler : List HandledOp :=
  [.plain (.publish order), .plain (.claimBatch ordersConsumer),
    .edited ordersConsumer (some (.failure "" false)) (fun msg => msg.setHeader "x-seen" "yes")]

/-- The replay has the header, and the publication has not. -/
theorem replays_preserve_publication_markedByHandler :
    ∃ first e, OrderChain markedByHandler 0 first first ∧
      (exec (ordersEngine 1 oneAttempt) (ordersEnv []) (.replayDeadLetter "||")
        (handledOrders markedByHandler)).1 = .ok ⟨"||", first.id, "|||", "orders"⟩ ∧
      (handledOrders (markedByHandler ++ [.plain (.replayDeadLetter "||")])).store.messages.lookup
        "|||" = some e ∧
      first.header "x-seen" = none ∧ e.msg.header "x-seen" = some "yes" ∧
      ¬ Republished first first.id "||" e.msg := by
  have hfirst : ((handledOrders ([] ++ [.plain (.publish order)])).store.messages.lookup "|").map
      (fun e => (e.msg.id, e.msg.header "x-seen")) = some ("|", none) := by
    decide +kernel
  obtain ⟨first, hl, hread⟩ := Option.map_eq_some_iff.mp hfirst
  have hreplayed : ((handledOrders (markedByHandler ++
      [.plain (.replayDeadLetter "||")])).store.messages.lookup "|||").map
        (fun e => e.msg.header "x-seen") = some (some "yes") := by
    decide +kernel
  obtain ⟨e, he, hheader⟩ := Option.map_eq_some_iff.mp hreplayed
  obtain ⟨hid, hnone⟩ := Prod.mk.inj hread
  refine ⟨first.msg, e, .later _ (.later _ (.published rfl hl)), ?_, he, hnone, hheader, ?_⟩
  · rw [hid]
    decide +kernel
  · intro h
    have hsame := h.headers "x-seen"
    simp [hheader, hnone, headerDeadLetterID, headerReplayOf] at hsame

end RabbitmqLite.Engine
