import RabbitmqLite.Atomic.Contract
import RabbitmqLite.Engine.Discipline
import RabbitmqLite.Storage.Memory.Tables

/-! # How the operations conduct themselves

One contract for all operations of the engine: what each of them does next, in
terms of what it has done and been told before. Messages are composed from
readings of the clock and generated ids, they pass the validator or repeat a
dead letter, only known messages are given back, and every write that makes a
message available is announced.
-/

namespace RabbitmqLite.Engine
open Broker Collections Storage Atomic

/-! ## What an operation knows -/

/-- The ids an operation has generated. -/
def generatedBy : EngineEvent → List String
  | ⟨.newID, id⟩ => [id]
  | _ => []

def generated (past : List EngineEvent) : List String := past.flatMap generatedBy

/-- The messages a reply tells about, each under the id it was found by. -/
def toldBy : EngineEvent → List (String × Message)
  | ⟨.store (.message id), .ok msg⟩ => [(id, msg)]
  | ⟨.store (.claim _), .ok msgs⟩ => msgs.map (fun msg => (msg.id, msg))
  | ⟨.store (.expiredLeases _ _), .ok msgs⟩ => msgs.map (fun msg => (msg.id, msg))
  | ⟨.receive _, some delivery⟩ => [(delivery.message.id, delivery.message)]
  | _ => []

def told (past : List EngineEvent) : List (String × Message) := past.flatMap toldBy

/-- The clock was read with this result. -/
def ClockRead (past : List EngineEvent) (now : Time) : Prop := ⟨.clock, now⟩ ∈ past

/-- This dead letter was read. -/
def LetterRead (past : List EngineEvent) (letter : DeadLetter) : Prop :=
  ∃ id, ⟨.store (.deadLetter id), .ok letter⟩ ∈ past

/-! ## Writes and announcements -/

/-- A write that made messages available. -/
def isWrite : EngineEvent → Bool
  | ⟨.store (.append _), .ok _⟩ => true
  | ⟨.settle _ _ (.release _ _), .ok _⟩ => true
  | _ => false

def isNotify : EngineEvent → Bool
  | ⟨.notify _, _⟩ => true
  | _ => false

/-- The writes since the last announcement. -/
def unannounced (past : List EngineEvent) : List EngineEvent :=
  past.foldl (fun owed e => if isNotify e then [] else if isWrite e then owed ++ [e] else owed) []

/-- Waking up these queues announces the write. -/
def AnnouncedBy (past : List EngineEvent) (queues : List String) : EngineEvent → Prop
  | ⟨.store (.append msgs), _⟩ => ∀ msg ∈ msgs, msg.queue ∈ queues
  | ⟨.settle _ _ (.release id _), _⟩ => ∃ msg, (id, msg) ∈ told past ∧ msg.queue ∈ queues
  | _ => True

/-! ## The contract -/

/-- The validator accepts the payload, or there is nothing to validate. -/
def Accepts (engine : Engine) (schema : String) (payload : List UInt8) : Prop :=
  ∀ schemas, engine.schemas = some schemas → schema ≠ "" → schemas schema payload = none

/-- A message as an operation may append it. -/
structure Composed (engine : Engine) (past : List EngineEvent) (msg : Message) : Prop where
  state : msg.state = .queued
  attempts : msg.attempts = 0
  available : ClockRead past msg.availableAt
  own : Payload.copied msg.payload = msg.payload
  payload : Accepts engine msg.schema msg.payload.bytes ∨
    ∃ letter, LetterRead past letter ∧
      msg.schema = letter.schema ∧ msg.payload.bytes = letter.payload.bytes

/-- The messages an operation may append now. -/
def Prepared (engine : Engine) (past : List EngineEvent) (msgs : List Message) : Prop :=
  (msgs.map Message.id).Sublist (generated past) ∧ ∀ msg ∈ msgs, Composed engine past msg

/-- The validator does not accept the payload. -/
def Rejects (engine : Engine) (schema : String) (payload : List UInt8) : Prop :=
  ¬ Accepts engine schema payload

/-- A dead letter as an operation may save it: of a payload the validator rejects, or of a
message that failed. -/
def Reported (engine : Engine) (past : List EngineEvent) (letter : DeadLetter) : Prop :=
  letter.errorKind = errorKindValidation ∧ Rejects engine letter.schema letter.payload.bytes ∨
    letter.errorKind ≠ errorKindValidation ∧
      ∃ id msg, (id, msg) ∈ told past ∧
        letter.schema = msg.schema ∧ letter.payload.bytes = msg.payload.bytes

/-- What an operation may do next. -/
def Conduct (engine : Engine) (past : List EngineEvent) : Effect → Prop
  | .store (.append msgs) => Prepared engine past msgs
  | .store (.saveDeadLetter letter newID) =>
    letter.id = "" ∧ newID ∈ generated past ∧ Reported engine past letter
  | .store (.message _) | .store (.claim _) | .store (.expiredLeases _ _) | .store (.purge _)
  | .store (.deadLetter _) | .store (.markDeadLetterReplayed _ _ _)
  | .store (.deleteDeadLetter _) | .store (.history _) | .store (.appendHistory _) => True
  | .store _ => False
  | .settle _ _ (.release id now) => (∃ msg, (id, msg) ∈ told past) ∧ ClockRead past now
  | .settle _ _ (.acknowledge _ _) | .settle _ _ (.scheduleRetry _)
  | .settle _ _ (.markDeadLettered _ _ _) => True
  | .settle _ _ _ => False
  | .notify queues => ∀ e ∈ unannounced past, AnnouncedBy past queues e
  | .submit _ delivery => (delivery.message.id, delivery.message) ∈ told past
  | _ => True

/-- What a call of the store has to do with the past of the operation that makes it. -/
structure Serving (engine : Engine) (past : List EngineEvent) (c : Call) : Prop where
  tables : ¬ Memory.Declaring c
  opened : c ≠ .close
  append : ∀ msgs, c = .append msgs → Prepared engine past msgs
  letter : ∀ letter newID, c = .saveDeadLetter letter newID →
    letter.id = "" ∧ newID ∈ generated past ∧ Reported engine past letter
  release : ∀ id now, c = .release id now → (∃ msg, (id, msg) ∈ told past) ∧ ClockRead past now

theorem Conduct.serving {engine : Engine} {past : List EngineEvent} {e : Effect} {c : Call}
    (h : Conduct engine past e) (hc : e.call? = some c) : Serving engine past c := by
  cases e with
  | store d =>
    obtain rfl := Option.some.inj hc
    cases d with
    | append msgs =>
      refine ⟨id, by simp, fun msgs' hm => ?_, by simp, by simp⟩
      obtain rfl := Call.append.inj hm
      exact h
    | saveDeadLetter letter newID =>
      refine ⟨id, by simp, by simp, fun letter' newID' hl => ?_, by simp⟩
      obtain ⟨rfl, rfl⟩ := Call.saveDeadLetter.inj hl
      exact h
    | message | claim | expiredLeases | purge | deadLetter | markDeadLetterReplayed
    | deleteDeadLetter | history | appendHistory =>
      exact ⟨id, by simp, by simp, by simp, by simp⟩
    | _ => exact h.elim
  | settle party attempt d =>
    obtain rfl := Option.some.inj hc
    cases d with
    | release id now =>
      refine ⟨fun hd => hd, by simp, by simp, by simp, fun id' now' hr => ?_⟩
      obtain ⟨rfl, rfl⟩ := Call.release.inj hr
      exact h
    | acknowledge | scheduleRetry | markDeadLettered =>
      exact ⟨id, by simp, by simp, by simp, by simp⟩
    | _ => exact h.elim
  | _ => cases hc

/-! ## How the past grows -/

theorem unannounced_snoc (past : List EngineEvent) (e : EngineEvent) :
    unannounced (past ++ [e]) =
      if isNotify e then []
      else if isWrite e then unannounced past ++ [e]
      else unannounced past := by
  simp [unannounced]

theorem told_subset {past past' : List EngineEvent} (h : past <+: past') :
    told past ⊆ told past' := by
  obtain ⟨more, rfl⟩ := h
  simp [told]

theorem told_snoc (past : List EngineEvent) (e : EngineEvent) :
    told (past ++ [e]) = told past ++ toldBy e := by
  simp [told]

theorem generated_snoc (past : List EngineEvent) (e : EngineEvent) :
    generated (past ++ [e]) = generated past ++ generatedBy e := by
  simp [generated]

/-- The past has grown, and nothing that was written since is unannounced. -/
structure Quiet (past past' : List EngineEvent) : Prop where
  grown : past <+: past'
  owed : unannounced past' = unannounced past

theorem Quiet.refl (past : List EngineEvent) : Quiet past past := ⟨List.prefix_refl past, rfl⟩

theorem Quiet.trans {past past' past'' : List EngineEvent} (h : Quiet past past')
    (h' : Quiet past' past'') : Quiet past past'' :=
  ⟨h.grown.trans h'.grown, h'.owed.trans h.owed⟩

theorem Quiet.snoc {past : List EngineEvent} {e : EngineEvent} (hn : isNotify e = false)
    (hw : isWrite e = false) : Quiet past (past ++ [e]) :=
  ⟨List.prefix_append past [e], by simp [unannounced_snoc, hn, hw]⟩

theorem Quiet.mem {past past' : List EngineEvent} (h : Quiet past past') {e : EngineEvent}
    (he : e ∈ past) : e ∈ past' := h.grown.subset he

theorem Quiet.told {past past' : List EngineEvent} (h : Quiet past past') {x : String × Message}
    (hx : x ∈ told past) : x ∈ told past' := told_subset h.grown hx

theorem generated_sublist {past past' : List EngineEvent} (h : past <+: past') :
    (generated past).Sublist (generated past') := by
  obtain ⟨more, rfl⟩ := h
  simp [generated]

theorem Composed.grown {engine : Engine} {past past' : List EngineEvent} {msg : Message}
    (h : Composed engine past msg) (hg : past <+: past') : Composed engine past' msg where
  state := h.state
  attempts := h.attempts
  available := hg.subset h.available
  own := h.own
  payload := h.payload.imp_right
    (fun ⟨letter, ⟨id, hm⟩, hrest⟩ => ⟨letter, ⟨id, hg.subset hm⟩, hrest⟩)

/-! ## Generated ids -/

/-- The ids generated in a past are distinct and used up. -/
structure Generated (env : Env) (w : World) (past : List EngineEvent) : Prop where
  nodup : (generated past).Nodup
  used : ∀ id ∈ generated past, Used env w id

theorem Generated.nil (env : Env) (w : World) : Generated env w [] :=
  ⟨List.nodup_nil, by simp [generated]⟩

theorem Generated.mono {env : Env} {w w' : World} {past : List EngineEvent}
    (h : Generated env w past) (hle : w.ids ≤ w'.ids) : Generated env w' past :=
  ⟨h.nodup, fun id hid => (h.used id hid).mono hle⟩

theorem ids_le_perform (env : Env) (e : Effect) (w : World) : w.ids ≤ (perform env e w).2.ids := by
  rw [perform_ids]
  split_ifs
  · exact Nat.le_succ _
  · exact le_rfl

theorem Generated.step {env : Env} (hinj : Function.Injective env.newID) {w : World}
    {past : List EngineEvent} (h : Generated env w past) (e : Effect) :
    Generated env (perform env e w).2 (past ++ [⟨e, (perform env e w).1⟩]) := by
  by_cases he : e = .newID
  · subst he
    have hnew : generated (past ++ [⟨.newID, (perform env .newID w).1⟩]) =
        generated past ++ [env.newID w.ids] := generated_snoc past _
    constructor
    · rw [hnew]
      refine h.nodup.append (List.nodup_singleton _) (List.disjoint_singleton.mpr (fun hm => ?_))
      obtain ⟨i, hi, hid⟩ := h.used _ hm
      exact absurd (hinj hid) hi.ne
    · rw [hnew]
      intro id hid
      rcases List.mem_append.mp hid with hid | hid
      · exact (h.used id hid).mono (ids_le_perform env .newID w)
      · exact ⟨w.ids, Nat.lt_succ_self _, (List.mem_singleton.mp hid).symm⟩
  · have hnone : generatedBy ⟨e, (perform env e w).1⟩ = [] := by
      cases e <;> first | rfl | exact absurd rfl he
    have hsame : generated (past ++ [⟨e, (perform env e w).1⟩]) = generated past := by
      rw [generated_snoc, hnone, List.append_nil]
    have hmono := h.mono (ids_le_perform env e w)
    exact ⟨hsame ▸ hmono.nodup, hsame ▸ hmono.used⟩

/-! ## What is told -/

/-- A message that is told about is in the store, with this content, or it is a task. -/
theorem toldBy_perform {env : Env} {w : World} (hk : w.store.Keyed) {e : Effect} {id : String}
    {msg : Message} (h : (id, msg) ∈ toldBy ⟨e, (perform env e w).1⟩) :
    (∃ entry, w.store.messages.lookup id = some entry ∧ entry.msg.content = msg.content) ∨
      ∃ consumer, ∃ d ∈ w.tasks consumer, id = d.message.id ∧ msg = d.message := by
  cases e with
  | store c =>
    left
    cases c with
    | message i =>
      simp only [perform, World.callStore, Memory.exec, Memory.Store.message] at h
      cases hl : w.store.messages.lookup i with
      | none => simp [hl, toldBy] at h
      | some entry =>
        simp only [hl, toldBy, List.mem_singleton, Prod.mk.injEq] at h
        obtain ⟨rfl, rfl⟩ := h
        exact ⟨entry, hl, rfl⟩
    | claim req =>
      obtain ⟨order, settled, ⟨err, hc⟩ | ⟨picked, messages, -, -, hc⟩⟩ :=
        w.store.claim_cases req <;>
        simp only [perform, World.callStore, Memory.exec, hc, toldBy, List.not_mem_nil] at h
      obtain ⟨msg', hm, heq⟩ := List.mem_map.mp h
      obtain ⟨i, -, hout⟩ := List.mem_filterMap.mp hm
      obtain ⟨entry, hl, rfl⟩ := Option.map_eq_some_iff.mp hout
      obtain ⟨rfl, rfl⟩ := Prod.mk.inj heq
      have hi : (Memory.takenOver req entry).msg.id = i := hk i entry hl
      exact ⟨entry, by rwa [hi], rfl⟩
    | expiredLeases now limit =>
      obtain ⟨msg', hm, heq⟩ := List.mem_map.mp h
      obtain ⟨i, entry, hl, -, rfl⟩ :=
        Memory.mem_expired.mp ((Memory.limited_sublist limit _).subset hm)
      obtain ⟨rfl, rfl⟩ := Prod.mk.inj heq
      exact ⟨entry, by rwa [hk i entry hl], rfl⟩
    | _ => simp [toldBy] at h
  | receive consumer =>
    right
    simp only [perform] at h
    cases ht : w.tasks consumer with
    | nil => simp [ht, toldBy] at h
    | cons d rest =>
      simp only [ht, toldBy, List.mem_singleton, Prod.mk.injEq] at h
      exact ⟨consumer, d, by simp [ht], h.1, h.2⟩
  | _ => simp [toldBy] at h

/-! ## Single effects -/

variable {engine : Engine} {past : List EngineEvent}

/-- An effect that makes nothing available and announces nothing. -/
theorem perform_obeys (e : Effect) (hc : Conduct engine past e)
    (hn : ∀ r, isNotify ⟨e, r⟩ = false) (hw : ∀ r, isWrite ⟨e, r⟩ = false) :
    (Prog.perform e : Program e.Reply).Obeys (Conduct engine) past
      (fun r past' => Quiet past past' ∧ ⟨e, r⟩ ∈ past') :=
  Prog.Obeys.perform hc (fun r => ⟨Quiet.snoc (hn r) (hw r), by simp⟩)

theorem clock_obeys : clock.Obeys (Conduct engine) past
    (fun now past' => Quiet past past' ∧ ClockRead past' now) :=
  perform_obeys .clock trivial (fun _ => rfl) (fun _ => rfl)

theorem newID_obeys : newID.Obeys (Conduct engine) past
    (fun id past' => Quiet past past' ∧ generated past' = generated past ++ [id]) :=
  Prog.Obeys.perform trivial (fun id => ⟨Quiet.snoc rfl rfl, generated_snoc past ⟨.newID, id⟩⟩)

theorem recordHistory_obeys (event : HistoryEvent) :
    (recordHistory event).Obeys (Conduct engine) past (fun _ past' => Quiet past past') :=
  (perform_obeys (.store (.appendHistory event)) trivial (fun _ => rfl) (fun _ => rfl)).bind
    (fun _ _ h => h.1)

theorem recordEach_obeys (events : List HistoryEvent) :
    (recordEach events).Obeys (Conduct engine) past (fun _ past' => Quiet past past') := by
  induction events generalizing past with
  | nil => exact Quiet.refl past
  | cons event events ih =>
    exact (recordHistory_obeys event).bind (fun _ _ h => ih.mono (fun _ _ h' => h.trans h'))

/-- A notification that covers all writes since the last one. -/
theorem notify_obeys {queues : List String}
    (h : ∀ e ∈ unannounced past, AnnouncedBy past queues e) :
    (notify queues).Obeys (Conduct engine) past (fun _ past' => unannounced past' = []) :=
  Prog.Obeys.perform h (fun _ => by simp [unannounced_snoc, isNotify])

/-! ## Failures -/

theorem firstFailureAt_obeys (messageID : String) (fallback : Time) :
    (firstFailureAt messageID fallback).Obeys (Conduct engine) past
      (fun _ past' => Quiet past past') := by
  refine (perform_obeys (.store (.history messageID)) trivial (fun _ => rfl) (fun _ => rfl)).bind
    (fun reply past' h => ?_)
  cases reply with
  | error e => exact h.1
  | ok events =>
    dsimp only
    cases firstFailure events with
    | none => exact h.1
    | some event => exact h.1

theorem classify_ne_validation (cause : Cause) : classify cause ≠ errorKindValidation := by
  unfold classify
  split_ifs <;> decide

theorem deadLetter_obeys (party : Party) (consumer : String) {delivery : Delivery} (cause : Cause)
    (now : Time) {id : String} (h : (id, delivery.message) ∈ told past) :
    (deadLetter party consumer delivery cause now).Obeys (Conduct engine) past
      (fun _ past' => Quiet past past') := by
  refine (firstFailureAt_obeys _ _).bind (fun firstFailedAt past₁ h₁ => ?_)
  refine newID_obeys.bind (fun id past₂ ⟨h₂, hid⟩ => ?_)
  have hsave : Conduct engine past₂
      (.store (.saveDeadLetter (letterOf delivery cause firstFailedAt now) id)) :=
    ⟨rfl, by simp [hid], Or.inr ⟨classify_ne_validation cause, _, _, (h₁.trans h₂).told h,
      rfl, rfl⟩⟩
  refine (perform_obeys _ hsave (fun _ => rfl) (fun _ => rfl)).bind (fun reply past₃ ⟨h₃, _⟩ => ?_)
  cases reply with
  | error e => exact (h₁.trans h₂).trans h₃
  | ok u =>
    refine (perform_obeys (.settle party delivery.attempt
      (.markDeadLettered delivery.message.id cause.text now)) trivial (fun _ => rfl)
      (fun _ => rfl)).bind (fun reply past₄ ⟨h₄, _⟩ => ?_)
    cases reply with
    | error e => exact ((h₁.trans h₂).trans h₃).trans h₄
    | ok u =>
      exact (recordHistory_obeys _).mono
        (fun _ _ h₅ => (((h₁.trans h₂).trans h₃).trans h₄).trans h₅)

theorem nextAttemptAt_obeys (policy : Retry.Policy) (now : Time) (attempt : ℤ) :
    (nextAttemptAt policy now attempt).Obeys (Conduct engine) past
      (fun _ past' => Quiet past past') := by
  unfold nextAttemptAt
  split_ifs
  · exact Quiet.refl past
  · exact (perform_obeys .float64 trivial (fun _ => rfl) (fun _ => rfl)).bind (fun _ _ h => h.1)

theorem fail_obeys (party : Party) (consumer : String) {delivery : Delivery} (cause : Cause)
    {id : String} (h : (id, delivery.message) ∈ told past) :
    (engine.fail party consumer delivery cause).Obeys (Conduct engine) past
      (fun _ past' => Quiet past past') := by
  refine clock_obeys.bind (fun now past₁ ⟨h₁, _⟩ => ?_)
  dsimp only
  split_ifs
  · exact (deadLetter_obeys party consumer cause now (h₁.told h)).mono
      (fun _ _ h₂ => h₁.trans h₂)
  · refine (nextAttemptAt_obeys _ _ _).bind (fun availableAt past₂ h₂ => ?_)
    refine (perform_obeys (.settle party delivery.attempt (.scheduleRetry _)) trivial
      (fun _ => rfl) (fun _ => rfl)).bind (fun reply past₃ ⟨h₃, _⟩ => ?_)
    cases reply with
    | error e => exact (h₁.trans h₂).trans h₃
    | ok u =>
      exact (recordHistory_obeys _).mono (fun _ _ h₄ => ((h₁.trans h₂).trans h₃).trans h₄)

/-! ## Publishing -/

theorem parkRejected_obeys {msg : Message} (cause : String) (now : Time)
    (hr : Rejects engine msg.schema msg.payload.bytes) :
    (parkRejected msg cause now).Obeys (Conduct engine) past (fun _ past' => Quiet past past') := by
  refine newID_obeys.bind (fun id past₁ ⟨h₁, hid⟩ => ?_)
  refine (perform_obeys (.store (.saveDeadLetter _ id)) ?_ (fun _ => rfl) (fun _ => rfl)).bind
    (fun _ _ h₂ => h₁.trans h₂.1)
  exact ⟨rfl, by simp [hid], Or.inl ⟨rfl, hr⟩⟩

theorem rejected_fields (msg : Message) (now : Time) :
    (rejected msg now).schema = msg.schema ∧ (rejected msg now).payload = msg.payload := by
  unfold rejected
  rw [Message.transition_eq _ rfl]
  split_ifs <;> exact ⟨rfl, rfl⟩

theorem validate_obeys (msg : Message) (now : Time) :
    (engine.validate msg now).Obeys (Conduct engine) past
      (fun reply past' => Quiet past past' ∧
        (reply = .ok () → Accepts engine msg.schema msg.payload.bytes)) := by
  unfold validate
  cases hs : engine.schemas with
  | none => exact ⟨Quiet.refl past, fun _ schemas h => by simp [hs] at h⟩
  | some schemas =>
    dsimp only
    split_ifs with hempty
    · exact ⟨Quiet.refl past, fun _ _ _ hne => absurd hempty hne⟩
    · cases hv : schemas msg.schema msg.payload.bytes with
      | none =>
        refine ⟨Quiet.refl past, fun _ schemas' h _ => ?_⟩
        rw [hs] at h
        rw [← Option.some.inj h, hv]
      | some cause =>
        have hr : Rejects engine (rejected msg now).schema (rejected msg now).payload.bytes := by
          obtain ⟨hschema, hpayload⟩ := rejected_fields msg now
          intro ha
          have hnone := ha schemas hs (hschema ▸ hempty)
          rw [hschema, hpayload, hv] at hnone
          cases hnone
        exact (parkRejected_obeys cause now hr).bind (fun _ _ h => ⟨h, fun hr => by cases hr⟩)

/-- One more message, under an id that was generated since. -/
theorem Prepared.snoc {past past' : List EngineEvent} {msgs : List Message} {msg : Message}
    (h : Prepared engine past msgs) (hg : past <+: past')
    (hid : (generated past ++ [msg.id]).Sublist (generated past'))
    (hm : Composed engine past' msg) : Prepared engine past' (msgs ++ [msg]) := by
  refine ⟨?_, fun m hmem => ?_⟩
  · rw [List.map_append]
    exact (h.1.append (List.Sublist.refl _)).trans hid
  · rcases List.mem_append.mp hmem with hmem | hmem
    · exact (h.2 m hmem).grown hg
    · rw [List.mem_singleton.mp hmem]
      exact hm

theorem addressed_availableAt (id : String) (pub : Publication) (queue : Queue) (now : Time) :
    (addressed id pub queue now).availableAt = now := by
  unfold addressed
  dsimp only
  split_ifs <;> rfl

theorem publishLoop_obeys (pub : Publication) {now : Time} (queues : List Queue)
    {messages : List Message} (hn : ClockRead past now) (hp : Prepared engine past messages) :
    (engine.publishLoop pub now queues messages).Obeys (Conduct engine) past
      (fun reply past' => Quiet past past' ∧
        ∀ messages, reply = .ok messages → Prepared engine past' messages) := by
  induction queues generalizing past messages with
  | nil => exact ⟨Quiet.refl past, fun _ h => Except.ok.inj h ▸ hp⟩
  | cons queue queues ih =>
    refine newID_obeys.bind (fun id past₁ ⟨h₁, hid⟩ => ?_)
    obtain ⟨hmid, hmstate, hmattempts⟩ := addressed_fields id pub queue now
    refine (validate_obeys _ now).bind (fun reply past₂ ⟨h₂, haccepts⟩ => ?_)
    cases reply with
    | error e => exact ⟨h₁.trans h₂, fun _ h => by cases h⟩
    | ok u =>
      dsimp only
      rw [transition_of_created hmstate]
      have hprep : Prepared engine past₂
          (messages ++
            [{ addressed id pub queue now with state := .queued, updatedAt := now }]) := by
        apply hp.snoc (h₁.trans h₂).grown
        · rw [show Message.id _ = id from hmid, ← hid]
          exact generated_sublist h₂.grown
        · refine ⟨rfl, hmattempts, ?_, ?_, Or.inl (haccepts rfl)⟩
          · rw [show Message.availableAt _ = now from addressed_availableAt id pub queue now]
            exact h₂.mem (h₁.mem hn)
          · dsimp only
            rw [addressed_payload, Payload.copied_copied]
      exact (ih (h₂.mem (h₁.mem hn)) hprep).mono
        (fun _ _ h => ⟨(h₁.trans h₂).trans h.1, h.2⟩)

/-- An append that succeeds is the one write to announce. -/
theorem append_obeys {msgs : List Message} (h : Prepared engine past msgs)
    (ho : unannounced past = []) :
    (store (.append msgs)).Obeys (Conduct engine) past (fun reply past' => past <+: past' ∧
      (∀ e, reply = .error e → unannounced past' = []) ∧
      (reply = .ok () → unannounced past' = [⟨.store (.append msgs), .ok ()⟩])) := by
  refine Prog.Obeys.perform h (fun reply => ⟨List.prefix_append _ _, ?_, ?_⟩)
  · rintro e rfl
    simp [unannounced_snoc, isNotify, isWrite, ho]
  · rintro rfl
    simp [unannounced_snoc, isNotify, isWrite, ho]

theorem publish_obeys (pub : Publication) (ho : unannounced past = []) :
    (engine.publish pub).Obeys (Conduct engine) past (fun _ past' => unannounced past' = []) := by
  refine (perform_obeys (.route pub.exchange pub.routingKey) trivial (fun _ => rfl)
    (fun _ => rfl)).bind (fun reply past₁ ⟨h₁, _⟩ => ?_)
  cases reply with
  | error e => exact h₁.owed.trans ho
  | ok queues =>
    refine clock_obeys.bind (fun now past₂ ⟨h₂, hn⟩ => ?_)
    have hnil : Prepared engine past₂ [] := ⟨List.nil_sublist _, by simp⟩
    refine (publishLoop_obeys pub queues hn hnil).bind (fun reply past₃ ⟨h₃, hprep⟩ => ?_)
    have ho₃ : unannounced past₃ = [] := ((h₁.trans h₂).trans h₃).owed.trans ho
    cases reply with
    | error e => exact ho₃
    | ok messages =>
      refine (append_obeys (hprep messages rfl) ho₃).bind (fun reply past₄ ⟨_, herr, hok⟩ => ?_)
      cases reply with
      | error e => exact herr e rfl
      | ok u =>
        refine (recordEach_obeys _).bind (fun _ past₅ h₅ => ?_)
        refine (notify_obeys ?_).bind (fun _ past₆ h₆ => h₆)
        rw [h₅.owed, hok rfl]
        intro e he
        obtain rfl := List.mem_singleton.mp he
        exact fun msg hm => List.mem_map_of_mem hm

theorem replayDeadLetter_obeys (id : String) (ho : unannounced past = []) :
    (replayDeadLetter id).Obeys (Conduct engine) past (fun _ past' => unannounced past' = []) := by
  refine (perform_obeys (.store (.deadLetter id)) trivial (fun _ => rfl)
    (fun _ => rfl)).bind (fun reply past₁ ⟨h₁, hread⟩ => ?_)
  cases reply with
  | error e => exact h₁.owed.trans ho
  | ok record =>
    refine (perform_obeys (.queue record.queue) trivial (fun _ => rfl)
      (fun _ => rfl)).bind (fun reply past₂ ⟨h₂, _⟩ => ?_)
    cases reply with
    | error e => exact (h₁.trans h₂).owed.trans ho
    | ok queue =>
      refine clock_obeys.bind (fun now past₃ ⟨h₃, hn⟩ => ?_)
      refine newID_obeys.bind (fun newID past₄ ⟨h₄, hid⟩ => ?_)
      rw [transition_of_created rfl]
      have ho₄ : unannounced past₄ = [] := (((h₁.trans h₂).trans h₃).trans h₄).owed.trans ho
      have hprep : Prepared engine past₄
          [{ replayOf newID record queue now with state := .queued, updatedAt := now }] := by
        refine ⟨?_, fun msg hm => ?_⟩
        · rw [hid]
          exact List.sublist_append_right _ _
        · rw [List.mem_singleton.mp hm]
          exact ⟨rfl, rfl, h₄.mem hn, Payload.copied_copied record.payload,
            Or.inr ⟨record, ⟨id, ((h₂.trans h₃).trans h₄).mem hread⟩, rfl,
              Payload.bytes_copied record.payload⟩⟩
      refine (append_obeys hprep ho₄).bind (fun reply past₅ ⟨_, herr, hok⟩ => ?_)
      cases reply with
      | error e => exact herr e rfl
      | ok u =>
        refine (recordHistory_obeys _).bind (fun _ past₆ h₆ => ?_)
        refine (perform_obeys (.store (.markDeadLetterReplayed _ _ now)) trivial (fun _ => rfl)
          (fun _ => rfl)).bind (fun _ past₇ ⟨h₇, _⟩ => ?_)
        refine (notify_obeys ?_).bind (fun _ past₈ h₈ => h₈)
        rw [(h₆.trans h₇).owed, hok rfl]
        intro e he
        obtain rfl := List.mem_singleton.mp he
        intro msg hm
        rw [List.mem_singleton.mp hm]
        exact List.mem_singleton_self _

/-! ## Pulling and settling over HTTP -/

/-- What a call of the store tells about messages. -/
theorem told_of_mem {e : EngineEvent} {x : String × Message} (he : e ∈ past) (hx : x ∈ toldBy e) :
    x ∈ told past := List.mem_flatMap.mpr ⟨e, he, hx⟩

theorem pull_obeys (req : PullRequest) :
    (pull req).Obeys (Conduct engine) past (fun _ past' => Quiet past past') := by
  refine (perform_obeys (.queue req.queue) trivial (fun _ => rfl)
    (fun _ => rfl)).bind (fun reply past₁ ⟨h₁, _⟩ => ?_)
  cases reply with
  | error e => exact h₁
  | ok queue =>
    refine clock_obeys.bind (fun now past₂ ⟨h₂, _⟩ => ?_)
    refine (perform_obeys (.store (.claim _)) trivial (fun _ => rfl)
      (fun _ => rfl)).bind (fun reply past₃ ⟨h₃, _⟩ => ?_)
    cases reply with
    | error e => exact (h₁.trans h₂).trans h₃
    | ok claimed =>
      exact (recordEach_obeys _).bind (fun _ _ h₄ => ((h₁.trans h₂).trans h₃).trans h₄)

theorem ack_obeys (id : String) (held : ℤ) :
    (ack id held).Obeys (Conduct engine) past (fun _ past' => Quiet past past') := by
  refine (perform_obeys (.store (.message id)) trivial (fun _ => rfl)
    (fun _ => rfl)).bind (fun reply past₁ ⟨h₁, _⟩ => ?_)
  cases reply with
  | error e => exact h₁
  | ok msg =>
    refine clock_obeys.bind (fun now past₂ ⟨h₂, _⟩ => ?_)
    refine (perform_obeys (.settle (.consumer held) msg.attempts (.acknowledge id now)) trivial
      (fun _ => rfl) (fun _ => rfl)).bind (fun reply past₃ ⟨h₃, _⟩ => ?_)
    cases reply with
    | error e => exact (h₁.trans h₂).trans h₃
    | ok u => exact (recordHistory_obeys _).bind (fun _ _ h₄ => ((h₁.trans h₂).trans h₃).trans h₄)

/-- A release adds a write to announce if it succeeds. -/
theorem release_obeys (party : Party) (attempt : ℤ) {id : String} {msg : Message} {now : Time}
    (hm : (id, msg) ∈ told past) (hn : ClockRead past now) :
    (settle party attempt (.release id now)).Obeys (Conduct engine) past
      (fun reply past' => past <+: past' ∧
        (∀ e, reply = .error e → unannounced past' = unannounced past) ∧
        (reply = .ok () → unannounced past' =
          unannounced past ++ [⟨.settle party attempt (.release id now), .ok ()⟩])) := by
  refine Prog.Obeys.perform ⟨⟨msg, hm⟩, hn⟩ (fun reply => ⟨List.prefix_append _ _, ?_, ?_⟩)
  · rintro e rfl
    simp [unannounced_snoc, isNotify, isWrite]
  · rintro rfl
    simp [unannounced_snoc, isNotify, isWrite]

theorem nack_obeys (id reason : String) (requeue : Bool) (held : ℤ) (ho : unannounced past = []) :
    (engine.nack id reason requeue held).Obeys (Conduct engine) past
      (fun _ past' => unannounced past' = []) := by
  refine (perform_obeys (.store (.message id)) trivial (fun _ => rfl)
    (fun _ => rfl)).bind (fun reply past₁ ⟨h₁, hread⟩ => ?_)
  cases reply with
  | error e => exact h₁.owed.trans ho
  | ok msg =>
    have hknown : (id, msg) ∈ told past₁ := told_of_mem hread (List.mem_singleton_self _)
    cases requeue with
    | true =>
      refine clock_obeys.bind (fun now past₂ ⟨h₂, hn⟩ => ?_)
      refine (release_obeys _ _ (h₂.told hknown) hn).bind
        (fun reply past₃ ⟨hg, herr, hok⟩ => ?_)
      have ho₂ : unannounced past₂ = [] := (h₁.trans h₂).owed.trans ho
      cases reply with
      | error e => exact (herr e rfl).trans ho₂
      | ok u =>
        refine (recordHistory_obeys _).bind (fun _ past₄ h₄ => ?_)
        refine (notify_obeys ?_).bind (fun _ past₅ h₅ => h₅)
        rw [h₄.owed, hok rfl, ho₂]
        intro e he
        obtain rfl := List.mem_singleton.mp he
        exact ⟨msg, h₄.told (told_subset hg (h₂.told hknown)), List.mem_singleton_self _⟩
    | false =>
      refine (fail_obeys _ _ _ hknown).bind (fun _ past₂ h₂ => ?_)
      refine (notify_obeys ?_).bind (fun _ past₃ h₃ => h₃)
      rw [h₂.owed, h₁.owed, ho]
      simp

/-! ## Consumers and maintenance -/

theorem process_obeys (consumer : ConsumerSpec) {delivery : Delivery} (outcome : Option Cause)
    {id : String} (h : (id, delivery.message) ∈ told past) :
    (engine.process consumer delivery outcome).Obeys (Conduct engine) past
      (fun _ past' => Quiet past past') := by
  refine clock_obeys.bind (fun _ past₁ ⟨h₁, _⟩ => ?_)
  cases outcome with
  | some cause => exact (fail_obeys _ _ _ (h₁.told h)).mono (fun _ _ h₂ => h₁.trans h₂)
  | none =>
    refine clock_obeys.bind (fun now past₂ ⟨h₂, _⟩ => ?_)
    refine (perform_obeys (.settle (.consumer delivery.attempt) delivery.attempt
      (.acknowledge delivery.message.id now)) trivial (fun _ => rfl) (fun _ => rfl)).bind
      (fun reply past₃ ⟨h₃, _⟩ => ?_)
    cases reply with
    | error e => exact (h₁.trans h₂).trans h₃
    | ok u => exact (recordHistory_obeys _).mono (fun _ _ h₄ => ((h₁.trans h₂).trans h₃).trans h₄)

theorem work_obeys (consumer : ConsumerSpec) (outcome : Option Cause) :
    (engine.work consumer outcome).Obeys (Conduct engine) past
      (fun _ past' => Quiet past past') := by
  refine (perform_obeys (.receive consumer.name) trivial (fun _ => rfl) (fun _ => rfl)).bind
    (fun reply past₁ ⟨h₁, hread⟩ => ?_)
  cases reply with
  | none => exact h₁
  | some delivery =>
    exact (process_obeys consumer outcome
      (told_of_mem hread (List.mem_singleton_self _))).mono (fun _ _ h₂ => h₁.trans h₂)

theorem handOff_obeys (consumer : ConsumerSpec) {msg : Message} (h : (msg.id, msg) ∈ told past) :
    (handOff consumer msg).Obeys (Conduct engine) past (fun _ past' => past <+: past') := by
  refine clock_obeys.bind (fun now past₁ ⟨h₁, _⟩ => ?_)
  refine (recordHistory_obeys _).bind (fun _ past₂ h₂ => ?_)
  refine (perform_obeys (.submit consumer.name ⟨msg, msg.attempts, msg.queue⟩)
    ((h₁.trans h₂).told h) (fun _ => rfl) (fun _ => rfl)).bind (fun reply past₃ ⟨h₃, _⟩ => ?_)
  have h' := (h₁.trans h₂).trans h₃
  cases reply with
  | ok u => exact h'.grown
  | error e =>
    refine clock_obeys.bind (fun now past₄ ⟨h₄, hn⟩ => ?_)
    exact (release_obeys _ _ ((h'.trans h₄).told h) hn).bind
      (fun _ _ h₅ => (h'.trans h₄).grown.trans h₅.1)

theorem handOffAll_obeys (consumer : ConsumerSpec) {msgs : List Message}
    (h : ∀ msg ∈ msgs, (msg.id, msg) ∈ told past) :
    (handOffAll consumer msgs).Obeys (Conduct engine) past (fun _ _ => True) := by
  induction msgs generalizing past with
  | nil => trivial
  | cons msg msgs ih =>
    refine (handOff_obeys consumer (h msg List.mem_cons_self)).bind (fun _ past' hg => ih ?_)
    exact fun m hm => told_subset hg (h m (List.mem_cons_of_mem msg hm))

theorem claimBatch_obeys (consumer : ConsumerSpec) :
    (claimBatch consumer).Obeys (Conduct engine) past (fun _ _ => True) := by
  refine (perform_obeys (.queue consumer.queue) trivial (fun _ => rfl) (fun _ => rfl)).bind
    (fun reply past₁ _ => ?_)
  cases reply with
  | error e => trivial
  | ok queue =>
    refine clock_obeys.bind (fun now past₂ _ => ?_)
    refine (perform_obeys (.store (.claim _)) trivial (fun _ => rfl) (fun _ => rfl)).bind
      (fun reply past₃ ⟨_, hread⟩ => ?_)
    cases reply with
    | error e => trivial
    | ok messages =>
      refine (handOffAll_obeys consumer (fun msg hm => ?_)).bind (fun _ _ _ => trivial)
      exact told_of_mem hread (List.mem_map_of_mem (f := fun msg => (msg.id, msg)) hm)

theorem AnnouncedBy.grown {past past' : List EngineEvent} {queues : List String}
    {e : EngineEvent} (h : AnnouncedBy past queues e) (hg : past <+: past') (more : List String) :
    AnnouncedBy past' (queues ++ more) e := by
  unfold AnnouncedBy at h ⊢
  split at h
  · exact fun msg hm => List.mem_append_left more (h msg hm)
  · obtain ⟨msg, hm, hq⟩ := h
    exact ⟨msg, told_subset hg hm, List.mem_append_left more hq⟩
  · simp

/-- All writes since the last announcement are covered by these queues. -/
def Covered (past : List EngineEvent) (queues : List String) : Prop :=
  ∀ e ∈ unannounced past, AnnouncedBy past queues e

theorem Covered.quiet {past past' : List EngineEvent} {queues : List String}
    (h : Covered past queues) (hq : Quiet past past') : Covered past' queues := by
  intro e he
  rw [hq.owed] at he
  simpa using (h e he).grown hq.grown []

theorem requeueExpired_obeys {msg : Message} {now : Time} {requeued : List String}
    (hm : (msg.id, msg) ∈ told past) (hn : ClockRead past now) (hc : Covered past requeued) :
    (requeueExpired msg now).Obeys (Conduct engine) past (fun done past' => past <+: past' ∧
      Covered past' (if done then requeued ++ [msg.queue] else requeued)) := by
  refine (release_obeys .reclaim msg.attempts hm hn).bind (fun reply past₁ ⟨hg, herr, hok⟩ => ?_)
  cases reply with
  | error e => exact ⟨hg, hc.quiet ⟨hg, herr e rfl⟩⟩
  | ok u =>
    refine (recordHistory_obeys _).bind (fun _ past₂ h₂ => ⟨hg.trans h₂.grown, ?_⟩)
    refine Covered.quiet (fun e he => ?_) h₂
    rw [hok rfl] at he
    rcases List.mem_append.mp he with he | he
    · exact (hc e he).grown hg [msg.queue]
    · obtain rfl := List.mem_singleton.mp he
      exact ⟨msg, told_subset hg hm, by simp⟩

theorem reclaimLoop_obeys {now : Time} {msgs : List Message} {requeued : List String}
    (hm : ∀ msg ∈ msgs, (msg.id, msg) ∈ told past) (hn : ClockRead past now)
    (hc : Covered past requeued) :
    (engine.reclaimLoop now msgs requeued).Obeys (Conduct engine) past
      (fun requeued past' => Covered past' requeued) := by
  induction msgs generalizing past requeued with
  | nil => exact hc
  | cons msg msgs ih =>
    have hknown := hm msg List.mem_cons_self
    have hrest : ∀ past', past <+: past' → ∀ m ∈ msgs, (m.id, m) ∈ told past' :=
      fun past' hg m hmem => told_subset hg (hm m (List.mem_cons_of_mem msg hmem))
    unfold reclaimLoop
    split_ifs with hretry
    · refine (requeueExpired_obeys hknown hn hc).bind (fun done past₁ ⟨hg, hc₁⟩ => ?_)
      cases done with
      | true => exact ih (hrest past₁ hg) (hg.subset hn) hc₁
      | false => exact ih (hrest past₁ hg) (hg.subset hn) hc₁
    · refine (deadLetter_obeys .reclaim _ .leaseExpired now hknown).bind (fun _ past₁ h₁ => ?_)
      exact ih (hrest past₁ h₁.grown) (h₁.mem hn) (hc.quiet h₁)

theorem reclaim_obeys (ho : unannounced past = []) :
    engine.reclaim.Obeys (Conduct engine) past (fun _ past' => unannounced past' = []) := by
  refine clock_obeys.bind (fun now past₁ ⟨h₁, hn⟩ => ?_)
  refine (perform_obeys (.store (.expiredLeases now reclaimBatchSize)) trivial (fun _ => rfl)
    (fun _ => rfl)).bind (fun reply past₂ ⟨h₂, hread⟩ => ?_)
  have ho₂ : unannounced past₂ = [] := (h₁.trans h₂).owed.trans ho
  cases reply with
  | error e => exact ho₂
  | ok expired =>
    have hknown : ∀ msg ∈ expired, (msg.id, msg) ∈ told past₂ := fun msg hm =>
      told_of_mem hread (List.mem_map_of_mem (f := fun msg => (msg.id, msg)) hm)
    have hc : Covered past₂ [] := fun e he => by simp [ho₂] at he
    exact (reclaimLoop_obeys hknown (h₂.mem hn) hc).bind (fun requeued past₃ h₃ => notify_obeys h₃)

/-! ## All operations -/

/-- Every operation keeps to the contract. All but the dispatcher, which does not announce
what it gives back, have announced their writes in the end. -/
theorem program_obeys (op : Op) :
    (engine.program op).Obeys (Conduct engine) []
      (fun _ past => (∀ consumer, op ≠ .claimBatch consumer) → unannounced past = []) := by
  cases op with
  | publish pub => exact (publish_obeys pub rfl).mono (fun _ _ h _ => h)
  | pull req => exact (pull_obeys req).mono (fun _ _ h _ => h.owed)
  | ack id held => exact (ack_obeys id held).mono (fun _ _ h _ => h.owed)
  | nack id reason requeue held =>
    exact (nack_obeys id reason requeue held rfl).mono (fun _ _ h _ => h)
  | claimBatch consumer =>
    exact (claimBatch_obeys consumer).mono (fun _ _ _ h => absurd rfl (h consumer))
  | work consumer outcome => exact (work_obeys consumer outcome).mono (fun _ _ h _ => h.owed)
  | reclaim => exact (reclaim_obeys rfl).mono (fun _ _ h _ => h)
  | replayDeadLetter id => exact (replayDeadLetter_obeys id rfl).mono (fun _ _ h _ => h)
  | purge queue => exact Prog.Obeys.perform trivial (fun _ _ => rfl)
  | discardDeadLetter id => exact Prog.Obeys.perform trivial (fun _ _ => rfl)

end RabbitmqLite.Engine
