import RabbitmqLite.Engine.Conduct
import RabbitmqLite.Engine.NoLoss

/-! # Queues hold accepted payloads

A payload the validator rejects is parked as a dead letter of kind validation.
Replaying such a letter does not ask the validator again. As long as none is
replayed, every stored message has a payload its schema accepts, whatever the
order of the steps.
-/

namespace RabbitmqLite.Engine
open Broker Collections Storage Atomic
open Memory (exec_recordStep exec_letterStep exec_keyed)

/-- If a dead letter is read here, it is not one that was parked by the validator. -/
def Unparked (w : World) : Effect → Prop
  | .store (.deadLetter id) =>
    match w.store.deadLetters.lookup id with
    | none => True
    | some letter => letter.errorKind ≠ errorKindValidation
  | _ => True

instance (w : World) (e : Effect) : Decidable (Unparked w e) := by
  unfold Unparked
  split
  · split <;> infer_instance
  · infer_instance

/-- The invariant: a parked letter has a payload the validator rejects, everything else has
one it accepts. -/
structure Screened (engine : Engine) (w : World) : Prop where
  keyed : w.store.Keyed
  messages : ∀ id entry, w.store.messages.lookup id = some entry →
    Accepts engine entry.msg.schema entry.msg.payload.bytes
  letters : ∀ id letter, w.store.deadLetters.lookup id = some letter →
    letter.errorKind = errorKindValidation ∧ Rejects engine letter.schema letter.payload.bytes ∨
      letter.errorKind ≠ errorKindValidation ∧ Accepts engine letter.schema letter.payload.bytes
  tasks : ∀ consumer, ∀ d ∈ w.tasks consumer,
    Accepts engine d.message.schema d.message.payload.bytes

/-- What an operation has been told about has accepted payloads. -/
structure Vouched (engine : Engine) (past : List EngineEvent) : Prop where
  told : ∀ id msg, (id, msg) ∈ told past → Accepts engine msg.schema msg.payload.bytes
  letters : ∀ letter, LetterRead past letter → Accepts engine letter.schema letter.payload.bytes

variable {engine : Engine} {env : Env} {w : World} {past : List EngineEvent} {e : Effect}

theorem Screened.messages_step (h : Screened engine w) (hv : Vouched engine past)
    (he : Conduct engine past e) :
    ∀ id entry, (perform env e w).2.store.messages.lookup id = some entry →
      Accepts engine entry.msg.schema entry.msg.payload.bytes := by
  rw [perform_store]
  cases hc : e.call? with
  | none => exact h.messages
  | some c =>
    intro id entry hl
    have hs := exec_recordStep h.keyed c id
    rw [hl] at hs
    cases hold : w.store.messages.lookup id with
    | some e' =>
      rw [hold] at hs
      have hcontent := hs.content_eq
      have haccepts := h.messages id e' hold
      rwa [← show _ = e'.msg.schema from congrArg Content.schema hcontent,
        ← show _ = e'.msg.payload.bytes from
          congrArg (fun c => Payload.bytes c.payload) hcontent] at haccepts
    | none =>
      rw [hold] at hs
      obtain ⟨msgs, msg, rfl, -, hm, -, rfl⟩ := hs.of_none
      rcases (((he.serving hc).append msgs rfl).2 msg hm).payload with
        haccepts | ⟨letter, hread, hschema, hpayload⟩
      · rwa [← Payload.bytes_copied] at haccepts
      · have haccepts := hv.letters letter hread
        rwa [← hschema, ← hpayload, ← Payload.bytes_copied] at haccepts

theorem Screened.letters_step (h : Screened engine w) (hv : Vouched engine past)
    (he : Conduct engine past e) :
    ∀ id letter, (perform env e w).2.store.deadLetters.lookup id = some letter →
      letter.errorKind = errorKindValidation ∧ Rejects engine letter.schema letter.payload.bytes ∨
        letter.errorKind ≠ errorKindValidation ∧
          Accepts engine letter.schema letter.payload.bytes := by
  rw [perform_store]
  cases hc : e.call? with
  | none => exact h.letters
  | some c =>
    intro id letter hl
    have hs := exec_letterStep c w.store id
    rw [hl] at hs
    generalize (Memory.exec c w.store).1 = reply at hs
    cases hold : w.store.deadLetters.lookup id with
    | some d =>
      rw [hold] at hs
      have hd := h.letters id d hold
      cases hs with
      | same => exact hd
      | replayed => exact hd
    | none =>
      rw [hold] at hs
      cases hs with
      | @save entry newID =>
        obtain ⟨hid, -, hreported⟩ := (he.serving hc).letter entry newID rfl
        have hfiled : Memory.filed entry newID = { entry with id := newID } := if_pos hid
        rw [hfiled]
        refine hreported.imp_right (fun ⟨hkind, i, msg, hm, hschema, hpayload⟩ => ⟨hkind, ?_⟩)
        have haccepts := hv.told i msg hm
        rwa [← hschema, ← hpayload] at haccepts

/-- A task of a pool was there before, or it was just accepted. -/
theorem mem_tasks_perform {consumer : String} {d : Delivery}
    (h : d ∈ (perform env e w).2.tasks consumer) :
    d ∈ w.tasks consumer ∨ e = .submit consumer d := by
  cases e with
  | submit name delivery =>
    simp only [perform] at h
    split at h
    · exact Or.inl h
    · dsimp only at h
      by_cases hn : consumer = name
      · subst hn
        rw [Function.update_self] at h
        rcases List.mem_append.mp h with h | h
        · exact Or.inl h
        · exact Or.inr (by rw [List.mem_singleton.mp h])
      · rw [Function.update_of_ne hn] at h
        exact Or.inl h
  | receive name =>
    simp only [perform] at h
    split at h
    · exact Or.inl h
    · rename_i delivery rest ht
      dsimp only at h
      by_cases hn : consumer = name
      · subst hn
        rw [Function.update_self] at h
        exact Or.inl (ht ▸ List.mem_cons_of_mem delivery h)
      · rw [Function.update_of_ne hn] at h
        exact Or.inl h
  | _ => exact Or.inl h

theorem Screened.tasks_step (h : Screened engine w) (hv : Vouched engine past)
    (he : Conduct engine past e) :
    ∀ consumer, ∀ d ∈ (perform env e w).2.tasks consumer,
      Accepts engine d.message.schema d.message.payload.bytes := by
  intro consumer d hd
  rcases mem_tasks_perform hd with hd | rfl
  · exact h.tasks consumer d hd
  · exact hv.told _ _ he

theorem Screened.step (h : Screened engine w) (hv : Vouched engine past)
    (he : Conduct engine past e) : Screened engine (perform env e w).2 where
  keyed := by
    rw [perform_store]
    cases e.call? with
    | none => exact h.keyed
    | some c => exact exec_keyed h.keyed c
  messages := h.messages_step hv he
  letters := h.letters_step hv he
  tasks := h.tasks_step hv he

theorem Vouched.step (hv : Vouched engine past) (h : Screened engine w) (hu : Unparked w e) :
    Vouched engine (past ++ [⟨e, (perform env e w).1⟩]) where
  told := by
    intro id msg hm
    rw [told_snoc] at hm
    rcases List.mem_append.mp hm with hm | hm
    · exact hv.told id msg hm
    · rcases toldBy_perform h.keyed hm with ⟨entry, hl, hcontent⟩ | ⟨consumer, d, hd, -, rfl⟩
      · have haccepts := h.messages id entry hl
        rwa [show entry.msg.schema = msg.schema from congrArg Content.schema hcontent,
          show entry.msg.payload.bytes = msg.payload.bytes from
            congrArg (fun c => Payload.bytes c.payload) hcontent] at haccepts
      · exact h.tasks consumer d hd
  letters := by
    rintro letter ⟨id, hm⟩
    rcases List.mem_append.mp hm with hm | hm
    · exact hv.letters letter ⟨id, hm⟩
    · obtain ⟨rfl, hr⟩ := Event.mk.inj (List.mem_singleton.mp hm)
      have hread : (perform env (.store (.deadLetter id)) w).1 = .ok letter := (eq_of_heq hr).symm
      simp only [perform, World.callStore, Memory.exec, Memory.Store.deadLetter] at hread
      cases hl : w.store.deadLetters.lookup id with
      | none => simp [hl] at hread
      | some d =>
        simp only [hl, Except.ok.injEq] at hread
        subst hread
        simp only [Unparked, hl] at hu
        rcases h.letters id d hl with ⟨hkind, -⟩ | ⟨-, haccepts⟩
        · exact absurd hkind hu
        · exact haccepts

theorem init_screened (engine : Engine) (registry : Registry) :
    Screened engine (World.init registry) where
  keyed := by simp [Memory.Store.Keyed, World.init, Memory.Store.new]
  messages := by simp [World.init, Memory.Store.new]
  letters := by simp [World.init, Memory.Store.new]
  tasks := by simp [World.init]

theorem system_screened (engine : Engine) (env : Env) (registry : Registry)
    (schedule : List (Action Op))
    (hparked : Config.AllMeet (perform env) (thread engine) Unparked
      (Config.init (World.init registry)) schedule) :
    Screened engine (system engine env registry schedule).state := by
  have hprogram : ∀ op, True → (thread engine op).Obeys (Conduct engine) [] (fun _ _ => True) :=
    fun op _ => (program_obeys op).void.mono (fun _ _ _ => trivial)
  refine Config.contract_rule hprogram ?_ ?_ schedule _
    (Config.init_contracted _ (fun _ past => Vouched engine past)) (fun _ _ => trivial) hparked
    (init_screened engine registry)
  · exact fun _ => ⟨by simp [told], by simp [LetterRead]⟩
  · exact fun w past e hw hv he hu => ⟨hw.step hv he, hv.step hw hu, fun _ ho => ho⟩

/-- Whatever the order in which the operations make their steps: if no letter that was parked
by the validator is replayed, then every stored message has a payload its schema accepts, and
no stored message repeats a parked letter. -/
theorem payloads_accepted (engine : Engine) (schemas : String → List UInt8 → Option String)
    (hschemas : engine.schemas = some schemas) (env : Env) (registry : Registry)
    (schedule : List (Action Op))
    (hparked : Config.AllMeet (perform env) (thread engine) Unparked
      (Config.init (World.init registry)) schedule) :
    ∀ id entry, (system engine env registry schedule).state.store.messages.lookup id = some entry →
      (entry.msg.schema ≠ "" → schemas entry.msg.schema entry.msg.payload.bytes = none) ∧
      ∀ letterID letter,
        (system engine env registry schedule).state.store.deadLetters.lookup letterID =
            some letter →
          letter.errorKind = errorKindValidation →
            (letter.schema, letter.payload.bytes) ≠
              (entry.msg.schema, entry.msg.payload.bytes) := by
  intro id entry hl
  have h := system_screened engine env registry schedule hparked
  have haccepts := h.messages id entry hl
  refine ⟨fun hne => haccepts schemas hschemas hne, fun letterID letter hletter hkind heq => ?_⟩
  obtain ⟨hschema, hpayload⟩ := Prod.mk.inj heq
  rcases h.letters letterID letter hletter with ⟨-, hrejects⟩ | ⟨hne, -⟩
  · rw [hschema, hpayload] at hrejects
    exact hrejects haccepts
  · exact hne hkind

/-- A validator that rejects one payload. -/
def orderSchema (schema : String) (payload : List UInt8) : Option String :=
  if schema = "order" ∧ payload = [1] then some "total is missing" else none

def checkedEngine : Engine := { ordersEngine 1 oneAttempt with schemas := some orderSchema }

def checkedRegistry : Registry :=
  { ordersRegistry 1 with
    queues := Finmap.singleton "orders" ⟨⟨"orders", true, 1, 30, "order"⟩, 0⟩ }

def badOrder : Publication := { order with payload := some [1] }

/-- One order is accepted and one rejected; the first one fails, and its letter is replayed. -/
def failedOrderReplayed : List (Action Op) :=
  Action.begin (.publish order) 0 6 ++ Action.begin (.publish badOrder) 1 5 ++
    Action.begin (.pull ⟨"orders", "a", 1, 0⟩) 2 4 ++ Action.begin (.nack "|" "" false 1) 3 8 ++
    Action.begin (.replayDeadLetter "||||") 4 8

theorem payloads_accepted_failedOrderReplayed :
    ((system checkedEngine (ordersEnv []) checkedRegistry
        failedOrderReplayed).state.store.messages.lookup "|||||").map (fun e => e.msg.state) =
          some .queued ∧
      ∀ id entry, (system checkedEngine (ordersEnv []) checkedRegistry
          failedOrderReplayed).state.store.messages.lookup id = some entry →
        (entry.msg.schema ≠ "" → orderSchema entry.msg.schema entry.msg.payload.bytes = none) ∧
        ∀ letterID letter, (system checkedEngine (ordersEnv []) checkedRegistry
            failedOrderReplayed).state.store.deadLetters.lookup letterID = some letter →
          letter.errorKind = errorKindValidation →
            (letter.schema, letter.payload.bytes) ≠ (entry.msg.schema, entry.msg.payload.bytes) :=
  ⟨by decide +kernel, payloads_accepted checkedEngine orderSchema rfl (ordersEnv [])
    checkedRegistry failedOrderReplayed (by decide +kernel)⟩

/-- The letter of the rejected order is replayed instead. -/
def parkedOrderReplayed : List (Action Op) :=
  Action.begin (.publish badOrder) 0 5 ++ Action.begin (.replayDeadLetter "||") 1 8

/-- The rejected payload is in the queue, under a schema that rejects it. -/
theorem payloads_accepted_parkedOrderReplayed :
    ((system checkedEngine (ordersEnv []) checkedRegistry
        parkedOrderReplayed).state.store.messages.lookup "|||").map
          (fun e => (e.msg.state, e.msg.schema, orderSchema e.msg.schema e.msg.payload.bytes)) =
      some (.queued, "order", some "total is missing") := by
  decide +kernel

end RabbitmqLite.Engine
