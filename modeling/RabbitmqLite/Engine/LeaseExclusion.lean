import RabbitmqLite.Engine.NoLoss

/-! # A live lease excludes the others

If every settlement is made by a party that holds the attempt the store has
counted, a message stays with the consumer it was handed to, until that
consumer settles it or its lease runs out. The store does not check this: it
accepts a settlement that belongs to an earlier attempt.
-/

namespace RabbitmqLite.Engine
open Broker Collections Storage Atomic
open Memory (Record RecordStep Handled exec_recordStep)

/-- The attempt a party settles for: the one it was handed, or the one that was listed. -/
def Party.holds (party : Party) (attempt : ℤ) : ℤ :=
  match party with
  | .consumer held => held
  | .reclaim => attempt

/-- The message a call would settle. -/
def settled : Call → Option String
  | .acknowledge id _ => some id
  | .scheduleRetry req => some req.id
  | .release id _ => some id
  | .markDeadLettered id _ _ => some id
  | _ => none

/-- The party holds the attempt under which the message is in processing. -/
def Fenced (w : World) : Effect → Prop
  | .settle party attempt c =>
    match (settled c).bind w.store.messages.lookup with
    | none => True
    | some entry => entry.msg.state = .processing → entry.msg.attempts = party.holds attempt
  | _ => True

instance (w : World) : (e : Effect) → Decidable (Fenced w e)
  | .settle party attempt c => by
    dsimp only [Fenced]
    generalize (settled c).bind w.store.messages.lookup = stored
    exact match stored with
      | none => .isTrue trivial
      | some entry => inferInstanceAs
        (Decidable (entry.msg.state = .processing → entry.msg.attempts = party.holds attempt))
  | .store _ | .clock | .newID | .float64 | .route _ _ | .queue _ | .notify _ | .submit _ _
  | .receive _ => .isTrue trivial

/-- The event is a claim that handed the message out. -/
def HandsOut : EngineEvent → String → Prop
  | ⟨.store (.claim _), .ok claimed⟩, id => id ∈ claimed.map Message.id
  | _, _ => False

/-- The event settled the message on behalf of the consumer of this attempt. -/
def SettledFor (event : EngineEvent) (attempt : ℤ) (id : String) : Prop :=
  ∃ a c reply, event = ⟨.settle (.consumer attempt) a c, reply⟩ ∧ Handled c reply id

/-- Whenever a claim handed a message out, the lease has not been seen to end and its
consumer has not settled the message, then its record is as it was handed out and no
other claim has returned it. -/
def LeaseExclusive (env : Env) (w : World) (events : List EngineEvent) : Prop :=
  ∀ before req claimed later,
    events = before ++ ⟨.store (.claim req), .ok claimed⟩ :: later → ∀ msg ∈ claimed,
    (∀ now, Read env w now → now < req.now + req.lease) →
    (∀ event ∈ later, ¬ SettledFor event msg.attempts msg.id) →
    w.store.messages.lookup msg.id = some ⟨msg, req.now + req.lease, req.consumer⟩ ∧
      msg.state = .processing ∧ ∀ event ∈ later, ¬ HandsOut event msg.id

variable {engine : Engine} {env : Env} {ends : ℤ → Prop}

/-- A fenced settlement of a message in processing, before its lease was seen to end, is
made by the consumer of the attempt. -/
theorem settledFor_of_fenced {w : World} {party : Party} {attempt : ℤ} {c : Call}
    (ha : MaySettle engine env ends w party attempt c) (hf : Fenced w (.settle party attempt c))
    {id : String} {entry : Record} (hl : w.store.messages.lookup id = some entry)
    (hp : entry.msg.state = .processing) (hlive : ∀ now, Read env w now → now < entry.lease)
    {reply : c.Reply} (hh : Handled c reply id) :
    SettledFor ⟨.settle party attempt c, reply⟩ entry.msg.attempts id := by
  have hid : settled c = some id := by
    cases c with
    | acknowledge | release | markDeadLettered | scheduleRetry =>
      cases reply with
      | error e => exact hh.elim
      | ok u => exact congrArg some hh
    | _ => exact ha.elim
  have hattempt : entry.msg.attempts = party.holds attempt := by
    simp only [Fenced, hid, Option.bind_some, hl] at hf
    exact hf hp
  cases party with
  | consumer held => exact ⟨attempt, c, reply, by rw [hattempt]; rfl, hh⟩
  | reclaim =>
    -- The reclaimer has seen the end of the lease it listed.
    have hover : Overdue env w id attempt := by
      cases c with
      | acknowledge => exact absurd rfl ha
      | scheduleRetry => exact absurd rfl ha.1
      | release i now =>
        obtain rfl := Option.some.inj hid
        exact (ha rfl).2
      | markDeadLettered i reason now =>
        obtain rfl := Option.some.inj hid
        exact ha.2.2 rfl
      | _ => exact ha.elim
    obtain ⟨e, he, hcase⟩ := hover
    obtain rfl : e = entry := Option.some.inj (he.symm.trans hl)
    rcases hcase with hlt | ⟨-, hread⟩
    · exact absurd hattempt (ne_of_gt hlt)
    · obtain ⟨now, hnow, hle⟩ := hread hp
      exact absurd (hlive now hnow) (not_lt.mpr hle)

/-- A call leaves a message in processing alone, settles it or removes it. -/
theorem RecordStep.of_processing {c : Call} {reply : c.Reply} {id : String} {e : Record}
    {r : Option Record} (h : RecordStep c reply id (some e) r) (hp : e.msg.state = .processing) :
    r = some e ∧ ¬ Handled c reply id ∨ settled c = some id ∧ Handled c reply id ∨ Removes c := by
  cases h with
  | same hh => exact Or.inl ⟨rfl, hh⟩
  | claim hc =>
    obtain ⟨hs | hs, -⟩ := Memory.claimable_iff.mp hc <;> simp [hp] at hs
  | acknowledge | scheduleRetry | release | markDeadLettered =>
    exact Or.inr (Or.inl ⟨rfl, rfl⟩)
  | purge | deleteQueue => exact Or.inr (Or.inr trivial)

theorem handled_of_handsOut {c : Call} {reply : c.Reply} {id : String}
    (h : HandsOut ⟨.store c, reply⟩ id) : Handled c reply id := by
  cases c with
  | claim req =>
    cases reply with
    | error e => exact h.elim
    | ok claimed => exact h
  | _ => exact h.elim

/-- One step of anybody while the message is held. -/
theorem held_step {w : World} {e : Effect} (hw : Sound w) (ha : Allowed engine env ends w e)
    (hf : Fenced w e) {id : String} {entry : Record}
    (hl : w.store.messages.lookup id = some entry) (hp : entry.msg.state = .processing)
    (hlive : ∀ now, Read env w now → now < entry.lease)
    (hopen : ¬ SettledFor ⟨e, (perform env e w).1⟩ entry.msg.attempts id) :
    (perform env e w).2.store.messages.lookup id = some entry ∧
      ¬ HandsOut ⟨e, (perform env e w).1⟩ id := by
  cases e with
  | store c =>
    have hs := exec_recordStep hw.keyed c id
    rw [hl] at hs
    rcases RecordStep.of_processing hs hp with ⟨hsame, hnot⟩ | ⟨hset, -⟩ | hrem
    · exact ⟨hsame, fun hh => hnot (handled_of_handsOut hh)⟩
    · cases c with
      | acknowledge | scheduleRetry | release | markDeadLettered => exact ha.elim
      | _ => simp [settled] at hset
    · exact absurd hrem ha.harmless.keeps
  | settle party attempt c =>
    have hs := exec_recordStep hw.keyed c id
    rw [hl] at hs
    rcases RecordStep.of_processing hs hp with ⟨hsame, -⟩ | ⟨-, hh⟩ | hrem
    · exact ⟨hsame, not_false⟩
    · exact absurd (settledFor_of_fenced ha hf hl hp hlive hh) hopen
    · exact absurd hrem ha.harmless.keeps
  | submit consumer delivery =>
    rw [perform_store_eq (by simp) (by simp)]
    exact ⟨hl, not_false⟩
  | receive consumer =>
    rw [perform_store_eq (by simp) (by simp)]
    exact ⟨hl, not_false⟩
  | clock | newID | float64 | route | queue | notify => exact ⟨hl, not_false⟩

theorem exclusive_step {w : World} {events : List EngineEvent} {e : Effect} (hw : Sound w)
    (ha : Allowed engine env ends w e) (hf : Fenced w e) (h : LeaseExclusive env w events) :
    LeaseExclusive env (perform env e w).2 (events ++ [⟨e, (perform env e w).1⟩]) := by
  intro before req claimed later heq msg hm hlive hopen
  rcases List.eq_nil_or_concat later with rfl | ⟨later, event, rfl⟩
  · -- This step is the claim itself.
    obtain ⟨-, hlast⟩ := List.append_inj' heq rfl
    obtain ⟨rfl, hr⟩ := Event.mk.inj (List.singleton_inj.mp hlast)
    obtain ⟨hl, hp⟩ := lookup_of_claim hw.keyed (eq_of_heq hr) msg hm
    exact ⟨hl, hp, by simp⟩
  · have heq' : events ++ [⟨e, (perform env e w).1⟩] =
        (before ++ ⟨.store (.claim req), .ok claimed⟩ :: later) ++ [event] := by
      simpa using heq
    obtain ⟨hold, hlast⟩ := List.append_inj' heq' rfl
    obtain rfl := List.singleton_inj.mp hlast
    have hlater := (allowed_keeps w e hw ha).2
    obtain ⟨hl, hp, hnone⟩ := h before req claimed later hold msg hm
      (fun now hn => hlive now (hn.later hlater)) (fun ev hev => hopen ev (by simp [hev]))
    obtain ⟨hl', hnew⟩ := held_step hw ha hf hl hp (fun now hn => hlive now (hn.later hlater))
      (hopen _ (by simp))
    refine ⟨hl', hp, fun ev hev => ?_⟩
    rw [List.concat_eq_append] at hev
    rcases List.mem_append.mp hev with hev | hev
    · exact hnone ev hev
    · rw [List.mem_singleton.mp hev]
      exact hnew

/-- Along every schedule of fenced settlements, a live lease excludes everybody else. -/
theorem lease_exclusive (engine : Engine) (env : Env) (hinj : Function.Injective env.newID)
    (registry : Registry) (schedule : List (Action Op))
    (hops : ∀ op, .start op ∈ schedule → op.Retains)
    (hfenced : Config.AllMeet (perform env) (thread engine) Fenced
      (Config.init (World.init registry)) schedule) :
    LeaseExclusive env (system engine env registry schedule).state
      (system engine env registry schedule).events := by
  have hinit : LeaseExclusive env (World.init registry) [] := by
    intro before req claimed later h
    simp at h
  exact (Config.after_rule (fun op hop w _ => thread_safe (fun _ _ => trivial) hinj hop w)
    (fun w es e hw he hc h => exclusive_step hw he hc h) schedule
    (Config.init (World.init registry))
    (Config.init_disciplined (discipline engine env (fun _ => True)) (init_sound registry)) hops
    hfenced hinit).2

/-- Attempt 1 is pulled and its lease runs out, the message is reclaimed, and attempt 2 is
pulled with a lease until 1101. -/
def secondPull : List (Action Op) :=
  Action.begin (.publish order) 0 6 ++ Action.begin (.pull ⟨"orders", "a", 1, 10⟩) 1 4 ++
    Action.begin .reclaim 2 5 ++ Action.begin (.pull ⟨"orders", "b", 1, 1000⟩) 3 4

/-- The readings of the clock of `secondPull` and what follows it. -/
def secondPullEnv : Env := ordersEnv [0, 1, 100, 101, 102, 110]

/-- While attempt 2 is out another consumer pulls, and gets nothing. -/
def thirdPull : List (Action Op) :=
  secondPull ++ Action.begin (.pull ⟨"orders", "c", 1, 1000⟩) 4 4

def afterThirdPull : Config World Effect Effect.Reply :=
  system (ordersEngine 3 threeAttempts) secondPullEnv (ordersRegistry 3) thirdPull

theorem lease_exclusive_secondPull :
    Config.AllMeet (perform secondPullEnv) (thread (ordersEngine 3 threeAttempts)) Fenced
        (Config.init (World.init (ordersRegistry 3))) thirdPull ∧
      LeaseExclusive secondPullEnv afterThirdPull.state afterThirdPull.events ∧
      (afterThirdPull.state.store.messages.lookup "|").map
        (fun e => (e.msg.state, e.msg.attempts)) = some (.processing, 2) := by
  have hfenced : Config.AllMeet (perform secondPullEnv) (thread (ordersEngine 3 threeAttempts))
      Fenced (Config.init (World.init (ordersRegistry 3))) thirdPull := by decide +kernel
  have hops : ∀ op, .start op ∈ thirdPull → op.Retains := by
    simp [thirdPull, secondPull, Action.begin, Action.steps, Op.Retains, Op.Fits]
  exact ⟨hfenced, lease_exclusive (ordersEngine 3 threeAttempts) secondPullEnv
    (ordersEnv_injective _) (ordersRegistry 3) _ hops hfenced, by decide +kernel⟩

/-- The consumer of attempt 1 nacks while attempt 2 is out, and attempt 3 is pulled. -/
def staleNack : Config World Effect Effect.Reply :=
  system (ordersEngine 3 threeAttempts) secondPullEnv (ordersRegistry 3)
    (secondPull ++ Action.begin (.nack "|" "" false 1) 4 5 ++
      Action.begin (.pull ⟨"orders", "c", 1, 1000⟩) 5 4)

/-- Attempt 2 as it was handed out. -/
def secondAttempt : Message :=
  { Message.new "|" order "orders" 0 with
    state := .processing
    attempts := 2
    maxAttempts := 3
    updatedAt := 101
    availableAt := 100 }

def Effect.consumerAttempt : Effect → Option ℤ
  | .settle (.consumer held) _ _ => some held
  | _ => none

theorem lease_exclusive_staleNack :
    ¬ LeaseExclusive secondPullEnv staleNack.state staleNack.events := by
  intro h
  have hlive : ∀ now, Read secondPullEnv staleNack.state now → now < (101 : ℤ) + 1000 := by
    rintro now ⟨i, hi, rfl⟩
    have hticks : staleNack.state.ticks = 6 := by decide +kernel
    rw [hticks] at hi
    revert i
    decide
  have hopen : ∀ event ∈ staleNack.events.drop 18, ¬ SettledFor event 2 "|" := by
    have hnone : ∀ event ∈ staleNack.events.drop 18, event.call.consumerAttempt ≠ some 2 := by
      decide +kernel
    rintro event hm ⟨a, c, reply, rfl, -⟩
    exact hnone _ hm rfl
  obtain ⟨hl, -, -⟩ := h (staleNack.events.take 17) ⟨"orders", "b", 1, 1000, 101⟩ [secondAttempt]
    (staleNack.events.drop 18) (by decide +kernel) secondAttempt (List.mem_singleton_self _)
    hlive hopen
  have hthird : (staleNack.state.store.messages.lookup "|").map (fun e => e.msg.attempts) =
      some 3 := by
    decide +kernel
  rw [show secondAttempt.id = "|" from rfl] at hl
  rw [hl] at hthird
  exact absurd hthird (by decide)

end RabbitmqLite.Engine
