import RabbitmqLite.Engine.Safety

/-! # No accepted message is lost

However the steps of the operations interleave: a message that was appended
stays in the store with its content, it counts as acknowledged only if a call
acknowledged it, and it is dead-lettered only with a letter of the same content.
-/

namespace RabbitmqLite.Engine
open Broker Collections Storage Atomic
open Memory (Record RecordStep exec_recordStep)

/-- The engine on an empty store, after a schedule of steps of its operations. -/
def system (engine : Engine) (env : Env) (registry : Registry) (schedule : List (Action Op)) :
    Config World Effect Effect.Reply :=
  (Config.init (World.init registry)).after (perform env) (thread engine) schedule

/-- The call that appended these messages succeeded. -/
def Appended (events : List EngineEvent) (msgs : List Message) : Prop :=
  ⟨.store (.append msgs), .ok ()⟩ ∈ events

/-- Some call acknowledged this message with success. -/
def AcknowledgedBy (events : List EngineEvent) (id : String) : Prop :=
  ∃ party attempt now, ⟨.settle party attempt (.acknowledge id now), .ok ()⟩ ∈ events

/-- What the store still knows about a message that was appended. -/
structure Accounted (x : Config World Effect Effect.Reply) (msg : Message) (entry : Record) :
    Prop where
  stored : x.state.store.messages.lookup msg.id = some entry
  content : entry.msg.content = msg.content
  state : entry.msg.state ∈ [.queued, .processing, .retrying, .acknowledged, .deadLettered]
  acknowledged : entry.msg.state = .acknowledged → AcknowledgedBy x.events msg.id
  deadLettered : entry.msg.state = .deadLettered → ∃ id letter,
    x.state.store.deadLetters.lookup id = some letter ∧ letter.content = msg.content

/-- The part of the accounts that refers to past calls. -/
structure Traced (w : World) (events : List EngineEvent) : Prop where
  appended : ∀ msgs, Appended events msgs → ∀ msg ∈ msgs, Stored w msg
  acknowledged : ∀ id e, w.store.messages.lookup id = some e → e.msg.state = .acknowledged →
    AcknowledgedBy events id

variable {engine : Engine} {env : Env} {ends : ℤ → Prop}

/-- A message becomes acknowledged by the call for it only. -/
theorem RecordStep.of_acknowledged {c : Call} {reply : c.Reply} {id : String}
    {r : Option Record} {e : Record} (h : RecordStep c reply id r (some e))
    (hack : e.msg.state = .acknowledged)
    (happ : ∀ msgs, c = .append msgs → ∀ msg ∈ msgs, msg.state = .queued) :
    r = some e ∨
      ∃ now, c = .acknowledge id now ∧ reply ≍ (Except.ok () : Except Storage.Error Unit) := by
  cases h with
  | same => exact Or.inl rfl
  | append hm => simp [Memory.unleased, happ _ rfl _ hm] at hack
  | acknowledge => exact Or.inr ⟨_, rfl, HEq.rfl⟩
  | claim | scheduleRetry | release | markDeadLettered =>
    simp [Memory.takenOver, Memory.unleased, Memory.retried, Memory.released,
      Memory.deadLettered] at hack

/-- Messages are in the store right after they were appended. -/
theorem stored_of_append {w : World} {msgs : List Message} (hn : (msgs.map Message.id).Nodup)
    (hown : ∀ msg ∈ msgs, Payload.copied msg.payload = msg.payload)
    (hr : (perform env (.store (.append msgs)) w).1 = .ok ()) :
    ∀ msg ∈ msgs, Stored (perform env (.store (.append msgs)) w).2 msg := by
  intro msg hm
  rcases w.store.append_cases msgs with ⟨e, h⟩ | ⟨-, h⟩ <;>
    simp only [perform, World.callStore, Memory.exec, h] at hr ⊢
  · cases hr
  · refine ⟨_, Memory.storeAll_of_nodup hn hm, ?_⟩
    rw [Memory.unleased, Message.clone_eq_self (hown msg hm)]

theorem AcknowledgedBy.snoc {events : List EngineEvent} {id : String}
    (h : AcknowledgedBy events id) (event : EngineEvent) :
    AcknowledgedBy (events ++ [event]) id := by
  obtain ⟨party, attempt, now, hm⟩ := h
  exact ⟨party, attempt, now, List.mem_append_left [event] hm⟩

/-- An effect keeps the accounts if it keeps what is stored, what it appends is queued and
under ids of its own, and if only a settlement acknowledges. -/
theorem Traced.effect {w : World} {events : List EngineEvent} {e : Effect} (h : Traced w events)
    (hk : w.store.Keyed) (hkept : ∀ msg, Stored w msg → Stored (perform env e w).2 msg)
    (happend : ∀ msgs, e = .store (.append msgs) → (msgs.map Message.id).Nodup ∧
      ∀ msg ∈ msgs, Payload.copied msg.payload = msg.payload)
    (hqueued : ∀ c, e.call? = some c → ∀ msgs, c = .append msgs → ∀ msg ∈ msgs, msg.state = .queued)
    (hplain : ∀ id now, e ≠ .store (.acknowledge id now)) :
    Traced (perform env e w).2 (events ++ [⟨e, (perform env e w).1⟩]) where
  appended := by
    intro msgs ha msg hm
    rcases List.mem_append.mp ha with hold | hnew
    · exact hkept msg (h.appended msgs hold msg hm)
    · obtain ⟨rfl, hr⟩ := Event.mk.inj (List.mem_singleton.mp hnew)
      obtain ⟨hn, hown⟩ := happend msgs rfl
      exact stored_of_append hn hown (eq_of_heq hr).symm msg hm
  acknowledged := by
    intro id r hr hack
    rcases perform_cases hk e id with hsame | ⟨c, rfl, hs⟩ | ⟨party, attempt, c, rfl, hs⟩
    · exact (h.acknowledged id r (hsame ▸ hr) hack).snoc _
    · rw [hr] at hs
      rcases RecordStep.of_acknowledged hs hack (hqueued c rfl) with hold | ⟨now, rfl, -⟩
      · exact (h.acknowledged id r hold hack).snoc _
      · exact absurd rfl (hplain id now)
    · rw [hr] at hs
      rcases RecordStep.of_acknowledged hs hack (hqueued c rfl) with hold | ⟨now, rfl, hok⟩
      · exact (h.acknowledged id r hold hack).snoc _
      · have hreply : (perform env (.settle party attempt (.acknowledge id now)) w).1 = .ok () :=
          eq_of_heq hok
        refine ⟨party, attempt, now, ?_⟩
        rw [hreply]
        exact List.mem_append_right events List.mem_cons_self

theorem traced_step {w : World} {events : List EngineEvent} {e : Effect} (hw : Sound w)
    (he : Allowed engine env ends w e) (h : Traced w events) :
    Traced (perform env e w).2 (events ++ [⟨e, (perform env e w).1⟩]) := by
  refine h.effect hw.keyed (fun msg hm => hm.later (allowed_keeps w e hw he).2) ?_ ?_ ?_
  · rintro msgs rfl
    exact ⟨he.1, fun msg hm => (he.2 msg hm).2.2.1⟩
  · intro c hcall msgs hc msg hm
    cases e with
    | store | settle =>
      obtain rfl := Option.some.inj hcall
      exact (he.harmless.append msgs hc msg hm).1
    | _ => cases hcall
  · rintro id now rfl
    exact he.elim

theorem init_traced (registry : Registry) : Traced (World.init registry) [] where
  appended := fun _ h => absurd h List.not_mem_nil
  acknowledged := by simp [World.init, Memory.Store.new]

/-- The operations that take nothing out of the store. -/
def Op.Retains (op : Op) : Prop := op.Fits (fun _ => True)

/-- Whatever the order in which the operations make their steps, every message whose
append succeeded is accounted for. -/
theorem no_message_lost (engine : Engine) (env : Env) (hinj : Function.Injective env.newID)
    (registry : Registry) (schedule : List (Action Op))
    (hops : ∀ op, .start op ∈ schedule → op.Retains) (msgs : List Message)
    (happ : Appended (system engine env registry schedule).events msgs) :
    ∀ msg ∈ msgs, ∃ entry, Accounted (system engine env registry schedule) msg entry := by
  intro msg hm
  obtain ⟨hdisc, htraced⟩ := Config.after_rule
    (fun op hop w _ => thread_safe (fun _ _ => trivial) hinj hop w)
    (fun w es e hw he _ h => traced_step hw he h) schedule (Config.init (World.init registry))
    (Config.init_disciplined (discipline engine env (fun _ => True)) (init_sound registry)) hops
    (Config.allMeet_true schedule _) (init_traced registry)
  have hsound : Sound (system engine env registry schedule).state := hdisc.inv
  obtain ⟨entry, hl, hc⟩ := htraced.appended msgs happ msg hm
  exact ⟨entry,
    { stored := hl
      content := hc
      state := hsound.states msg.id entry hl
      acknowledged := htraced.acknowledged msg.id entry hl
      deadLettered := fun hdead => hc ▸ hsound.buried msg.id entry hl hdead }⟩

/-! ## A small deployment

One queue behind a direct exchange, a policy without backoff, and given readings
of the clock. -/

def ordersRegistry (maxAttempts : ℤ) : Registry where
  exchanges := Finmap.singleton "shop" ⟨⟨"shop", .direct, true⟩, 0⟩
  bindings := Finmap.singleton "shop" [⟨⟨"shop", "orders", "orders"⟩, 0⟩]
  queues := Finmap.singleton "orders" ⟨⟨"orders", true, maxAttempts, 30, ""⟩, 0⟩

theorem ordersRegistry_lookup {maxAttempts : ℤ} {name : String} {q : Queue}
    (h : (ordersRegistry maxAttempts).queues.lookup name = some q) :
    name = "orders" ∧ q = ⟨⟨"orders", true, maxAttempts, 30, ""⟩, 0⟩ := by
  obtain rfl : name = "orders" :=
    (Finmap.mem_singleton _ _ _).mp (Finmap.mem_of_lookup_eq_some h)
  rw [ordersRegistry, Finmap.lookup_singleton_eq] at h
  exact ⟨rfl, (Option.some.inj h).symm⟩

def ordersEngine (maxAttempts : ℤ) (h : 1 ≤ maxAttempts) : Engine where
  policy := ⟨maxAttempts, 1, 1, 1, 0⟩
  schemas := none
  valid := by norm_num [Retry.Policy.validate, not_lt.mpr h]

theorem oneAttempt : (1 : ℤ) ≤ 1 := le_rfl

theorem twoAttempts : (1 : ℤ) ≤ 2 := by decide

theorem threeAttempts : (1 : ℤ) ≤ 3 := by decide

/-- The ids are rows of strokes; every pool accepts every task. -/
def ordersEnv (readings : List Time) : Env where
  clock := fun n => readings.getD n 1000
  newID := fun n => String.ofList (List.replicate (n + 1) '|')
  float64 := fun _ => 0
  submit := fun _ => none

/-- The clock advances by ten with every reading. -/
def steadyEnv : Env := { ordersEnv [] with clock := fun n => 10 * n }

theorem steadyEnv_monotone : Monotone steadyEnv.clock := by
  intro i j h
  have hij : (i : ℤ) ≤ j := by exact_mod_cast h
  exact mul_le_mul_of_nonneg_left hij (by decide)

theorem ordersEnv_injective (readings : List Time) :
    Function.Injective (ordersEnv readings).newID := by
  intro a b h
  have hl := congrArg (fun s => s.toList.length) h
  simpa [ordersEnv] using hl

def order : Publication := ⟨"shop", "orders", some [0], ∅, ""⟩

/-- The steps of a publication, a pull, and a nack that an ack overtakes after the dead
letter was saved. -/
def overtakenNack : List (Action Op) :=
  Action.begin (.publish order) 0 6 ++ Action.begin (.pull ⟨"orders", "a", 1, 0⟩) 1 4 ++
    Action.begin (.nack "|" "" false 1) 2 5 ++ Action.begin (.ack "|" 1) 3 4 ++ Action.steps 2 3

def overtaken : Config World Effect Effect.Reply :=
  system (ordersEngine 1 oneAttempt) (ordersEnv []) (ordersRegistry 1) overtakenNack

def overtakenMessage : Message :=
  { Message.new "|" order "orders" 1000 with state := .queued, maxAttempts := 1 }

theorem no_message_lost_overtakenNack :
    Appended overtaken.events [overtakenMessage] ∧
      (overtaken.state.store.messages.lookup "|").map (fun e => e.msg.state) = some .acknowledged ∧
      ∃ entry, Accounted overtaken overtakenMessage entry := by
  have happ : Appended overtaken.events [overtakenMessage] := by
    unfold Appended
    decide +kernel
  refine ⟨happ, by decide +kernel, ?_⟩
  have hops : ∀ op, .start op ∈ overtakenNack → op.Retains := by
    simp [overtakenNack, Action.begin, Action.steps, Op.Retains, Op.Fits]
  exact no_message_lost (ordersEngine 1 le_rfl) (ordersEnv []) (ordersEnv_injective [])
    (ordersRegistry 1) overtakenNack hops [overtakenMessage] happ overtakenMessage
    (List.mem_singleton_self overtakenMessage)

end RabbitmqLite.Engine
