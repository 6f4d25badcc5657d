import RabbitmqLite.Engine.Change
import RabbitmqLite.Engine.NoLoss

/-! # Dead letters and message states

With the operations one at a time: a letter that records a failure names a
message that is dead-lettered, and it is the only one of that message, as long
as the engine gives up on the message only while it is in processing. It does
not check this: the letter is saved before the store refuses to mark the
message, and it stays.
-/

namespace RabbitmqLite.Engine
open Broker Collections Storage Atomic
open Memory (Record)

namespace View

/-- No letter names the message, apart from a rejected publication. -/
def Clear (v : View) : Prop :=
  ∀ a d, v.letters a = some d → d.errorKind = errorKindValidation

/-- A failed message has one letter, and it is dead-lettered. -/
structure Agrees (v : View) : Prop where
  dead : ∀ a d, v.letters a = some d → d.errorKind ≠ errorKindValidation →
    ∃ e, v.record = some e ∧ e.msg.state = .deadLettered
  unique : ∀ a b d d', v.letters a = some d → v.letters b = some d' →
    d.errorKind ≠ errorKindValidation → d'.errorKind ≠ errorKindValidation → a = b

theorem Clear.agrees {v : View} (h : v.Clear) : v.Agrees where
  dead := fun a d hl hk => absurd (h a d hl) hk
  unique := fun a _ d _ hl _ hk _ => absurd (h a d hl) hk

theorem Agrees.clear {v : View} (h : v.Agrees)
    (hs : ∀ e, v.record = some e → e.msg.state ≠ .deadLettered) : v.Clear := by
  intro a d hl
  by_contra hk
  obtain ⟨e, hr, hd⟩ := h.dead a d hl hk
  exact hs e hr hd

/-- Settling a message in processing leaves no letter behind. -/
theorem Agrees.settled {v : View} (h : v.Agrees) (change : Message → Message)
    (events : List HistoryEvent) : (v.settled change events).Agrees := by
  by_cases hp : v.Leased
  · obtain ⟨e, hr, hp⟩ := hp
    have hclear : v.Clear := h.clear (fun e' hr' => by
      rw [Option.some.inj (hr'.symm.trans hr), hp]
      simp)
    rw [settled_of_leased hr hp]
    exact Clear.agrees hclear
  · rw [settled_of_not_leased hp]
    exact h

/-- A message given up in processing gets its letter and is dead-lettered. -/
theorem Agrees.buried {v : View} (h : v.Agrees) (hp : v.Leased) (consumer : String)
    (d : Delivery) (cause : Cause) (letter : DeadLetter) (now : Time) :
    (buriedBy consumer d cause letter now v).Agrees := by
  obtain ⟨e, hr, hp⟩ := hp
  have hclear : v.Clear := h.clear (fun e' hr' => by
    rw [Option.some.inj (hr'.symm.trans hr), hp]
    simp)
  have honly : ∀ a d, (v.filed letter).letters a = some d →
      d.errorKind ≠ errorKindValidation → a = letter.id := by
    intro a d hl hk
    by_contra ha
    have hl' : v.letters a = some d := by simpa [filed, ha] using hl
    exact hk (hclear a d hl')
  rw [buriedBy, settled_of_leased (v := v.filed letter) hr hp]
  constructor
  · exact fun _ _ _ _ => ⟨_, rfl, rfl⟩
  · exact fun a b d d' hl hl' hk hk' => (honly a d hl hk).trans (honly b d' hl' hk').symm

end View

variable {engine : Engine} {env : Env}

/-- The engine gives up on the message only while it is in processing. -/
def InHand (engine : Engine) (id : String) (w : World) : Op → Prop
  | .nack i _ false _ => i = id → ∀ e ∈ w.store.messages.lookup id,
    engine.policy.shouldRetry e.msg.attempts = false → e.msg.state = .processing
  | .work consumer (some cause) => ∀ d ∈ (w.tasks consumer.name).head?, d.message.id = id →
    retryable engine cause d.attempt = false →
      (w.store.messages.lookup id).map (fun e => e.msg.state) = some .processing
  | _ => True

instance (engine : Engine) (id : String) (w : World) :
    (op : Op) → Decidable (InHand engine id w op)
  | .nack _ _ false _ | .work _ (some _) => by
    dsimp only [InHand]
    infer_instance
  | .publish _ | .pull _ | .ack _ _ | .nack _ _ true _ | .claimBatch _ | .work _ none | .reclaim
  | .replayDeadLetter _ | .purge _ | .discardDeadLetter _ => .isTrue trivial

theorem View.Agrees.failed {v : View} (h : v.Agrees) {consumer : String} {d : Delivery}
    {cause : Cause} {g : View → View} (hg : FailedBy engine consumer d cause g)
    (hp : retryable engine cause d.attempt = false → v.Leased) : (g v).Agrees := by
  unfold FailedBy at hg
  split_ifs at hg with hr
  · obtain ⟨availableAt, now, rfl⟩ := hg
    exact h.settled _ _
  · obtain ⟨firstFailedAt, now, id, rfl⟩ := hg
    exact h.buried (hp (by simpa using hr)) _ _ _ _ _

theorem View.Agrees.reclaimed {v : View} (h : v.Agrees) (hp : v.Leased) {now : Time}
    {msg : Message} {g : View → View} (hg : ReclaimedBy engine now msg g) : (g v).Agrees := by
  unfold ReclaimedBy at hg
  split_ifs at hg
  · rw [hg]
    exact h.settled _ _
  · obtain ⟨firstFailedAt, id, rfl⟩ := hg
    exact h.buried hp _ _ _ _ _

/-- A change that leaves the letters alone, of a message that is not dead-lettered. -/
theorem View.Agrees.of_letters_eq {v v' : View} (h : v.Agrees)
    (hs : ∀ e, v.record = some e → e.msg.state ≠ .deadLettered) (hl : v'.letters = v.letters) :
    v'.Agrees := by
  apply View.Clear.agrees
  intro a d hd
  rw [hl] at hd
  exact h.clear hs a d hd

theorem not_deadLettered_of_claimable {v : View} {e : Record} {now : Time}
    (hr : v.record = some e) (hc : Memory.claimable e.msg now = true) :
    ∀ e', v.record = some e' → e'.msg.state ≠ .deadLettered := by
  intro e' hr' hd
  rw [Option.some.inj (hr'.symm.trans hr)] at hd
  obtain ⟨hs | hs, -⟩ := Memory.claimable_iff.mp hc <;> rw [hs] at hd <;> cases hd

/-- Letters may disappear, or change in other respects than their kind. -/
theorem View.Agrees.of_letters_kept {v v' : View} (h : v.Agrees) (hr : v'.record = v.record)
    (hl : ∀ a d', v'.letters a = some d' →
      ∃ d, v.letters a = some d ∧ d.errorKind = d'.errorKind) : v'.Agrees where
  dead := by
    intro a d' hd' hk
    obtain ⟨d, hd, heq⟩ := hl a d' hd'
    rw [hr]
    exact h.dead a d hd (heq ▸ hk)
  unique := by
    intro a b d' e' hd' he' hk hk'
    obtain ⟨d, hd, heq⟩ := hl a d' hd'
    obtain ⟨e, he, heq'⟩ := hl b e' he'
    exact h.unique a b d e hd he (heq ▸ hk) (heq' ▸ hk')

theorem letters_dispatched {consumer : ConsumerSpec} {req : ClaimRequest} {msg : Message}
    {g : View → View} (hg : DispatchedBy env consumer req msg g) (v : View) :
    (g v).letters = v.letters := by
  obtain ⟨a, ⟨now, rfl | ⟨-, later, rfl⟩⟩, rfl⟩ := hg
  · rfl
  · rw [View.letters_settled]
    rfl

theorem Change.agrees {w : World} {op : Op} {reply : op.Reply} {id : String} {v v' : View}
    (hc : Change engine env w op reply id v v') (hv : v = w.view id) (hop : InHand engine id w op)
    (h : v.Agrees) : v'.Agrees := by
  cases hc with
  | same => exact h
  | publish hs ha hg | replay hs ha hg =>
    rw [hg]
    apply View.Clear.agrees
    intro a d hl
    cases hl
  | @reject _ _ _ letter hk =>
    apply View.Clear.agrees
    intro a d hl
    by_cases ha : a = letter.id
    · have hd : letter = d := by simpa [View.filed, ha] using hl
      exact hd ▸ hk
    · simp [View.filed, View.empty, ha] at hl
  | pull hr hc hm hn hg =>
    exact h.of_letters_eq (not_deadLettered_of_claimable hr hc) (by rw [hg]; rfl)
  | dispatch hr hc hg =>
    exact h.of_letters_eq (not_deadLettered_of_claimable hr hc) (letters_dispatched hg v)
  | ack | requeue | handled => exact h.settled _ _
  | @nack _ _ _ _ _ _ e _ hr hg =>
    apply h.failed hg
    intro hret
    refine ⟨e, hr, hop rfl e ?_ (by simpa [retryable, isPermanent] using hret)⟩
    rw [hv] at hr
    exact hr
  | failed hd hg =>
    apply h.failed hg
    intro hret
    obtain ⟨e, hr, hp⟩ := Option.map_eq_some_iff.mp (hop _ hd rfl hret)
    exact ⟨e, by rw [hv]; exact hr, hp⟩
  | reclaim hr hm hp hg => exact h.reclaimed ⟨_, hr, hp⟩ hg
  | @replayed _ letterID =>
    refine h.of_letters_kept ?_ (fun a d' hd' => ?_)
    · rfl
    by_cases ha : a = letterID
    · simp only [View.replayed, ha, if_true] at hd'
      obtain ⟨d, hd, rfl⟩ := Option.map_eq_some_iff.mp hd'
      exact ⟨d, ha ▸ hd, rfl⟩
    · exact ⟨d', by simpa [View.replayed, ha] using hd', rfl⟩
  | purge hr ht =>
    have hnot : ∀ e', v.record = some e' → e'.msg.state ≠ .deadLettered := by
      intro e' hr' hd
      rw [Option.some.inj (hr'.symm.trans hr)] at hd
      rw [hd] at ht
      cases ht
    exact h.of_letters_eq hnot rfl
  | @discard i =>
    refine h.of_letters_kept ?_ (fun a d hd => ?_)
    · rfl
    by_cases ha : a = i
    · simp [View.discarded, ha] at hd
    · exact ⟨d, by simpa [View.discarded, ha] using hd, rfl⟩

/-- The letters that record a failure of a message, and the state of the message. -/
structure LettersAgree (w : World) (id : String) : Prop where
  dead : ∀ a d, w.store.deadLetters.lookup a = some d → d.messageID = id →
    d.errorKind ≠ errorKindValidation →
    ∃ e, w.store.messages.lookup id = some e ∧ e.msg.state = .deadLettered
  unique : ∀ a b d d', w.store.deadLetters.lookup a = some d →
    w.store.deadLetters.lookup b = some d' → d.messageID = id → d'.messageID = id →
    d.errorKind ≠ errorKindValidation → d'.errorKind ≠ errorKindValidation → a = b

theorem LettersAgree.of_view {w : World} {id : String} (h : (w.view id).Agrees) :
    LettersAgree w id := by
  have hview : ∀ a d, w.store.deadLetters.lookup a = some d → d.messageID = id →
      (w.view id).letters a = some d := by
    intro a d hl hd
    simp [World.view, viewOf, hl, hd]
  constructor
  · exact fun a d hl hd hk => h.dead a d (hview a d hl hd) hk
  · exact fun a b d d' hl hl' hd hd' hk hk' =>
      h.unique a b d d' (hview a d hl hd) (hview b d' hl' hd') hk hk'

/-- One operation at a time: the letters agree with the state of every message that the
engine gives up on in processing only. -/
theorem letters_agree (engine : Engine) (env : Env) (hinj : Function.Injective env.newID)
    (registry : Registry) (ops : List Op) (id : String)
    (hops : StepsMeet (exec engine env) (InHand engine id) (World.init registry) ops) :
    LettersAgree (running engine env registry ops) id := by
  apply LettersAgree.of_view
  apply running_rule hinj (InHand engine id) (fun w _ => (w.view id).Agrees) _ _ hops
  · apply View.Clear.agrees
    intro a d hl
    simp [World.view, viewOf, World.init, Memory.Store.new] at hl
  · intro w es op _ hop hchanges h
    exact (hchanges.2 id).agrees rfl hop h

/-- With one attempt allowed, the message is pulled and nacked. -/
def givenUpOnce : List Op :=
  [.publish order, .pull ⟨"orders", "a", 1, 10⟩, .nack "|" "" false 1]

theorem letters_agree_givenUpOnce :
    StepsMeet (exec (ordersEngine 1 le_rfl) (ordersEnv [])) (InHand (ordersEngine 1 le_rfl) "|")
        (World.init (ordersRegistry 1)) givenUpOnce ∧
      ((running (ordersEngine 1 le_rfl) (ordersEnv []) (ordersRegistry 1)
        givenUpOnce).store.deadLetters.lookup "||").map (fun d => (d.messageID, d.errorKind)) =
        some ("|", "handler") ∧
      LettersAgree (running (ordersEngine 1 le_rfl) (ordersEnv []) (ordersRegistry 1) givenUpOnce)
        "|" := by
  have hops : StepsMeet (exec (ordersEngine 1 le_rfl) (ordersEnv []))
      (InHand (ordersEngine 1 le_rfl) "|") (World.init (ordersRegistry 1)) givenUpOnce := by
    decide +kernel
  exact ⟨hops, by decide +kernel, letters_agree (ordersEngine 1 le_rfl) (ordersEnv [])
    (ordersEnv_injective []) (ordersRegistry 1) givenUpOnce "|" hops⟩

/-- The message is acknowledged before it is nacked. -/
def nackedAfterAck : World :=
  running (ordersEngine 1 oneAttempt) (ordersEnv []) (ordersRegistry 1)
    [.publish order, .pull ⟨"orders", "a", 1, 10⟩, .ack "|" 1, .nack "|" "" false 1]

theorem letters_agree_nackedAfterAck : ¬ LettersAgree nackedAfterAck "|" := by
  intro h
  have hletter : (nackedAfterAck.store.deadLetters.lookup "||").map
      (fun d => (d.messageID, d.errorKind)) = some ("|", "handler") := by
    decide +kernel
  obtain ⟨d, hl, hd⟩ := Option.map_eq_some_iff.mp hletter
  obtain ⟨hid, hkind⟩ := Prod.mk.inj hd
  have hstate : (nackedAfterAck.store.messages.lookup "|").map (fun e => e.msg.state) =
      some .acknowledged := by
    decide +kernel
  obtain ⟨e, hr, hdead⟩ := h.dead "||" d hl hid (by rw [hkind]; decide)
  rw [hr, Option.map_some, hdead] at hstate
  cases hstate

end RabbitmqLite.Engine
