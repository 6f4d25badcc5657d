import RabbitmqLite.Engine.HandOff
import RabbitmqLite.Engine.LeaseExclusion

/-! # Messages are handed off exactly once

The messages in the hands of a consumer are leased, and no message is in two
hands. As long as nobody else takes them out of processing, giving one back
succeeds. So every message a claim returns ends in one call of `process` or in
one release, also if the consumer is cancelled or stopped on the way.
-/

namespace RabbitmqLite.Engine
open Broker Collections Storage Atomic
open Memory (Record RecordStep exec_recordStep exec_keyed)

/-! ## What is done after the handler -/

/-- A settlement that was tried, whether it succeeded or not. -/
def isSettle : EngineEvent → Bool
  | ⟨.settle _ _ _, _⟩ => true
  | _ => false

/-- The calls that end the work on a message. -/
def Concludes (id : String) : Call → Prop
  | .acknowledge i _ => i = id
  | .scheduleRetry req => req.id = id
  | .markDeadLettered i _ _ => i = id
  | _ => False

/-- A worker settles its message once; besides, it reads and writes the history and saves dead
letters. -/
def Completes (id : String) (past : List EngineEvent) : Effect → Prop
  | .settle _ _ c => Concludes id c ∧ past.any isSettle = false
  | .store (.history _) | .store (.appendHistory _) | .store (.saveDeadLetter _ _) | .clock
  | .newID | .float64 => True
  | _ => False

theorem Concludes.settled {id : String} {c : Call} (h : Concludes id c) :
    settled c = some id ∧ ¬ Removes c := by
  cases c with
  | acknowledge | scheduleRetry | markDeadLettered => exact ⟨congrArg some h, not_false⟩
  | _ => exact h.elim

section Completion
variable {id : String} {past : List EngineEvent}

theorem any_isSettle_snoc (hpast : past.any isSettle = false) {e : EngineEvent}
    (he : isSettle e = false) : (past ++ [e]).any isSettle = false := by
  simp [hpast, he]

/-- An effect before the settlement. -/
theorem perform_completes (hpast : past.any isSettle = false) (e : Effect)
    (he : Completes id past e) (hs : ∀ r, isSettle ⟨e, r⟩ = false) :
    (Prog.perform e : Program e.Reply).Obeys (Completes id) past
      (fun _ past' => past'.any isSettle = false) :=
  Prog.Obeys.perform he (fun r => any_isSettle_snoc hpast (hs r))

theorem clock_completes (hpast : past.any isSettle = false) :
    clock.Obeys (Completes id) past (fun _ past' => past'.any isSettle = false) :=
  perform_completes hpast .clock trivial (fun _ => rfl)

theorem recordHistory_completes (event : HistoryEvent) :
    (recordHistory event).Obeys (Completes id) past (fun _ _ => True) :=
  ⟨trivial, fun _ => trivial⟩

/-- The settlement and what is written about it. -/
theorem settle_completes (hpast : past.any isSettle = false) (party : Party) (attempt : ℤ)
    {c : Call} (hc : Concludes id c) {next : c.Reply → Program Unit}
    (hnext : ∀ r past', (next r).Obeys (Completes id) past' (fun _ _ => True)) :
    (settle party attempt c >>= next).Obeys (Completes id) past (fun _ _ => True) :=
  ⟨⟨hc, hpast⟩, fun r => hnext r _⟩

theorem acknowledge_completes (hpast : past.any isSettle = false) (spec : ConsumerSpec)
    (delivery : Delivery) :
    (acknowledge spec delivery).Obeys (Completes delivery.message.id) past (fun _ _ => True) := by
  refine (clock_completes hpast).bind (fun now past' hpast' => ?_)
  refine settle_completes hpast' _ _ (by exact rfl) (fun reply past'' => ?_)
  cases reply with
  | error e => trivial
  | ok u => exact recordHistory_completes _

theorem firstFailureAt_completes (hpast : past.any isSettle = false) (messageID : String)
    (fallback : Time) :
    (firstFailureAt messageID fallback).Obeys (Completes id) past
      (fun _ past' => past'.any isSettle = false) := by
  refine (perform_completes hpast (.store (.history messageID)) trivial (fun _ => rfl)).bind
    (fun reply past' hpast' => ?_)
  cases reply with
  | error e => exact hpast'
  | ok events =>
    dsimp only
    split <;> exact hpast'

theorem deadLetter_completes (hpast : past.any isSettle = false) (party : Party)
    (consumer : String) (delivery : Delivery) (cause : Cause) (now : Time) :
    (deadLetter party consumer delivery cause now).Obeys (Completes delivery.message.id) past
      (fun _ _ => True) := by
  refine (firstFailureAt_completes hpast _ _).bind (fun firstFailedAt past₁ h₁ => ?_)
  refine (perform_completes h₁ .newID trivial (fun _ => rfl)).bind (fun id past₂ h₂ => ?_)
  refine (perform_completes h₂ (.store (.saveDeadLetter _ _)) trivial (fun _ => rfl)).bind
    (fun saved past₃ h₃ => ?_)
  cases saved with
  | error e => trivial
  | ok u =>
    refine settle_completes h₃ _ _ (by exact rfl) (fun reply past₄ => ?_)
    cases reply with
    | error e => trivial
    | ok u => exact recordHistory_completes _

theorem nextAttemptAt_completes (hpast : past.any isSettle = false) (policy : Retry.Policy)
    (now : Time) (attempt : ℤ) :
    (nextAttemptAt policy now attempt).Obeys (Completes id) past
      (fun _ past' => past'.any isSettle = false) := by
  unfold nextAttemptAt
  split_ifs
  · exact hpast
  · exact (perform_completes hpast .float64 trivial (fun _ => rfl)).bind (fun _ _ h => h)

theorem fail_completes (engine : Engine) (hpast : past.any isSettle = false) (party : Party)
    (consumer : String) (delivery : Delivery) (cause : Cause) :
    (fail engine party consumer delivery cause).Obeys (Completes delivery.message.id) past
      (fun _ _ => True) := by
  refine (clock_completes hpast).bind (fun now past₁ h₁ => ?_)
  dsimp only
  split_ifs
  · exact deadLetter_completes h₁ party consumer delivery cause now
  · refine (nextAttemptAt_completes h₁ _ _ _).bind (fun availableAt past₂ h₂ => ?_)
    refine settle_completes h₂ _ _ (by exact rfl) (fun reply past₃ => ?_)
    cases reply with
    | error e => trivial
    | ok u => exact recordHistory_completes _

theorem complete_completes (engine : Engine) (spec : ConsumerSpec) (delivery : Delivery)
    (outcome : Option Cause) :
    (complete engine spec delivery outcome).Obeys (Completes delivery.message.id) []
      (fun _ _ => True) := by
  cases outcome with
  | none => exact acknowledge_completes rfl spec delivery
  | some cause => exact fail_completes engine rfl _ _ delivery cause

end Completion

/-! ## Leases -/

/-- The message is in the hands of some consumer. -/
def Leases (w : World) (id : String) : Prop := stateIn w.store id = some .processing

instance (w : World) (id : String) : Decidable (Leases w id) :=
  inferInstanceAs (Decidable (_ = _))

theorem leases_iff {w : World} {id : String} :
    Leases w id ↔ ∃ e, w.store.messages.lookup id = some e ∧ e.msg.state = .processing :=
  Option.map_eq_some_iff

/-- The effect does not settle the message and takes none out of the store. -/
def Spares (id : String) (e : Effect) : Prop :=
  ∀ c, e.call? = some c → settled c ≠ some id ∧ ¬ Removes c

/-- A message in processing stays there. -/
theorem Leases.perform {env : Env} {w w' : World} (hk : w.store.Keyed) {e : Effect}
    {reply : e.Reply} (hp : (memoryHost env).perform e w = (reply, w')) {id : String}
    (h : Leases w id) (he : Spares id e) : Leases w' id := by
  obtain ⟨entry, hl, hprocessing⟩ := leases_iff.mp h
  refine leases_iff.mpr ⟨entry, ?_, hprocessing⟩
  rw [← (memoryHost_perform hp).2, perform_store]
  cases hc : e.call? with
  | none => exact hl
  | some c =>
    obtain ⟨hother, hkept⟩ := he c hc
    have hstep := exec_recordStep hk c id
    rw [hl] at hstep
    rcases RecordStep.of_processing hstep hprocessing with ⟨hsame, -⟩ | ⟨hid, -⟩ | hrem
    · exact hsame
    · exact absurd hid hother
    · exact absurd hrem hkept

theorem Leases.of_store {w w' : World} (hs : w'.store = w.store) {id : String} (h : Leases w id) :
    Leases w' id := by
  rw [Leases, hs]
  exact h

/-- A claim hands out messages that nobody holds. -/
theorem leases_claim {env : Env} {w w' : World} (hk : w.store.Keyed) {req : ClaimRequest}
    {msgs : List Message} (hp : (memoryHost env).perform (.store (.claim req)) w = (.ok msgs, w'))
    {id : String} (hm : id ∈ msgs.map Message.id) : ¬ Leases w id ∧ Leases w' id := by
  obtain ⟨hr, rfl⟩ := Prod.mk.inj hp
  constructor
  · intro h
    obtain ⟨entry, hl, hprocessing⟩ := leases_iff.mp h
    have hstep := exec_recordStep hk (.claim req) id
    rw [hl] at hstep
    rcases RecordStep.of_processing hstep hprocessing with ⟨-, hnot⟩ | ⟨hid, -⟩ | hrem
    · rw [show (Memory.exec (.claim req) w.store).1 = .ok msgs from hr] at hnot
      exact hnot hm
    · cases hid
    · exact hrem.elim
  · obtain ⟨msg, hmsg, rfl⟩ := List.mem_map.mp hm
    obtain ⟨hl, hprocessing⟩ := lookup_of_claim hk hr msg hmsg
    exact leases_iff.mpr ⟨_, hl, hprocessing⟩

/-- The lease is what a release asks for. -/
theorem giveBack_of_leases {env : Env} {w w' : World} {t : Ticket} (h : Leases w t.1.id)
    (now : Time) (e : Storage.Error) :
    (memoryHost env).perform (t.giveBack now) w ≠ (.error e, w') := by
  intro hp
  obtain ⟨entry, hl, hprocessing⟩ := leases_iff.mp h
  have hr : (w.store.release t.1.id now).1 = .error e := (Prod.mk.inj hp).1
  rw [Memory.Store.release_eq, Memory.Store.onLeased_of_processing hl hprocessing] at hr
  cases hr

/-! ## The messages in the hands of a consumer -/

def Ticket.names (id : String) (t : Ticket) : Bool := t.1.id = id

/-- The worker has a ticket whose message it has not tried to settle. -/
def Worker.unsettled : Worker → List Ticket
  | .received t | .counted t | .begun t | .handling t => [t]
  | .completing t thread => if thread.past.any isSettle then [] else [t]
  | _ => []

namespace Consumer

/-- The tickets whose messages are leased to the consumer. -/
def unsettled (c : Consumer) : List Ticket :=
  c.loop.batch ++ (c.pool.tasks ++ c.workers.flatMap Worker.unsettled)

/-- How often a message is in the hands of the consumer. -/
def holds (c : Consumer) (id : String) : ℕ := c.unsettled.countP (Ticket.names id)

structure Holding (c : Consumer) (w : World) : Prop where
  once : ∀ id, c.holds id ≤ 1
  leased : ∀ id, 0 < c.holds id → Leases w id
  completing : ∀ t thread, .completing t thread ∈ c.workers →
    thread.Keeps (Completes t.1.id) (fun _ => True)

theorem holds_eq (c : Consumer) (id : String) :
    c.holds id = c.loop.batch.countP (Ticket.names id) +
      c.pool.tasks.countP (Ticket.names id) +
        (c.workers.flatMap Worker.unsettled).countP (Ticket.names id) := by
  simp only [holds, unsettled, List.countP_append]
  omega

variable {c c' : Consumer} {w w' : World}

theorem Holding.of_leases (h : c.Holding w) (hl : ∀ id, 0 < c.holds id → Leases w' id) :
    c.Holding w' := ⟨h.once, hl, h.completing⟩

/-- Nothing is taken, and what is held stays in processing. -/
theorem Holding.mono (h : c.Holding w) (hh : ∀ id, c'.holds id ≤ c.holds id)
    (hc : ∀ t thread, .completing t thread ∈ c'.workers →
      thread.Keeps (Completes t.1.id) (fun _ => True))
    (hl : ∀ id, 0 < c'.holds id → Leases w id → Leases w' id) : c'.Holding w' where
  once := fun id => (hh id).trans (h.once id)
  leased := fun id hpos => hl id hpos (h.leased id (hpos.trans_le (hh id)))
  completing := hc

/-! ## Steps -/

theorem countP_zipIdx (msgs : List Message) (n : ℕ) (id : String) :
    List.countP (Ticket.names id) (msgs.zipIdx n) = (msgs.map Message.id).count id := by
  have hfst : (msgs.zipIdx n).map Prod.fst = msgs := List.zipIdx_map_fst n msgs
  rw [List.count, List.countP_map]
  conv_rhs => rw [← hfst, List.countP_map]
  rfl

/-- A batch comes in. -/
theorem Holding.take {env : Env} (h : c.Holding w) (hk : w.store.Keyed) {req : ClaimRequest}
    {msgs : List Message} (n : ℕ)
    (hp : (memoryHost env).perform (.store (.claim req)) w = (.ok msgs, w'))
    (hc : ∀ t thread, .completing t thread ∈ c'.workers →
      thread.Keeps (Completes t.1.id) (fun _ => True))
    (hh : ∀ id, c'.holds id = c.holds id + List.countP (Ticket.names id) (msgs.zipIdx n)) :
    c'.Holding w' := by
  have hone := List.nodup_iff_count_le_one.mp
    (Memory.Store.claim_nodup hk (Prod.mk.inj hp).1)
  have hcases : ∀ id, c'.holds id ≤ 1 ∧ (0 < c'.holds id → Leases w' id) := by
    intro id
    rw [hh id, countP_zipIdx]
    by_cases hm : id ∈ msgs.map Message.id
    · obtain ⟨hfree, htaken⟩ := leases_claim hk hp hm
      have hz : c.holds id = 0 := by
        by_contra hne
        exact hfree (h.leased id (Nat.pos_of_ne_zero hne))
      rw [hz, zero_add]
      exact ⟨hone id, fun _ => htaken⟩
    · rw [List.count_eq_zero_of_not_mem hm, add_zero]
      refine ⟨h.once id, fun hpos => (h.leased id hpos).perform hk hp ?_⟩
      rintro call ⟨⟩
      exact ⟨by simp [settled], not_false⟩
  exact ⟨fun id => (hcases id).1, fun id => (hcases id).2, hc⟩

/-- A message is given back or settled: nobody holds it any more, and the others are left
alone. -/
theorem Holding.drop {env : Env} (h : c.Holding w) (hk : w.store.Keyed) (t : Ticket) {e : Effect}
    {reply : e.Reply} (hp : (memoryHost env).perform e w = (reply, w'))
    (hc : ∀ t thread, .completing t thread ∈ c'.workers →
      thread.Keeps (Completes t.1.id) (fun _ => True))
    (hh : ∀ id, c'.holds id + [t].countP (Ticket.names id) = c.holds id)
    (he : ∀ id, id ≠ t.1.id → Spares id e) : c'.Holding w' := by
  refine h.mono (fun id => Nat.le.intro (hh id)) hc (fun id hpos hl => ?_)
  refine hl.perform hk hp (he id ?_)
  rintro rfl
  have hle := h.once t.1.id
  have hid := hh t.1.id
  have hown : Ticket.names t.1.id t = true := by simp [Ticket.names]
  rw [List.countP_singleton, if_pos hown] at hid
  omega

theorem Holding.loopStep {env : Env} (h : c.Holding w) (hk : w.store.Keyed)
    (hs : LoopStep (memoryHost env) c w c' w') : c'.Holding w' := by
  have hc : ∀ t thread, .completing t thread ∈ c'.workers →
      thread.Keeps (Completes t.1.id) (fun _ => True) := by
    rw [(LoopStep.alongside hs).workers]
    exact h.completing
  cases hs with
  | claimed hat hp =>
    refine h.take hk c.claimed.length hp hc (fun id => ?_)
    have hb : c.loop.batch = [] := by rw [hat]; rfl
    simp only [holds_eq, hb, batch_took, List.countP_nil]
    omega
  | @sent t rest hat =>
    refine h.mono (fun id => ?_) hc (fun _ _ hid => hid)
    have hb : c.loop.batch = t :: rest := by rw [hat]; rfl
    simp only [holds_eq, hb, batch_proceed, List.countP_append, List.countP_cons, List.countP_nil]
    omega
  | @lost t rest now e w' hat hp | @gaveBack t rest now e w' hat hp =>
    refine h.drop hk t hp hc (fun id => ?_) (fun id hne => ?_)
    · have hb : c.loop.batch = t :: rest := by rw [hat]; rfl
      simp only [holds_eq, hb, batch_proceed, List.countP_cons, List.countP_nil]
      omega
    · rintro call ⟨⟩
      exact ⟨by simpa [settled] using hne.symm, not_false⟩
  | recorded hat hp | unknown hat hp | found hat hp | timed hat hp | stamped hat hp
  | undone hat hp | unclaimed hat hp =>
    refine h.mono (fun id => ?_) hc (fun id _ hid => hid.perform hk hp ?_)
    · simp only [holds, unsettled, hat, Loop.batch]
      exact le_rfl
    · rintro call ⟨⟩
      try exact ⟨by simp [settled], not_false⟩
  | opened hat =>
    refine h.mono (fun id => ?_) hc (fun id _ hid => hid.of_store (openSignal_store _ w))
    simp only [holds, unsettled, hat, Loop.batch]
    exact le_rfl
  | woken hat hw =>
    refine h.mono (fun id => ?_) hc (fun id _ hid => hid.of_store (takeSignal_store hw))
    simp only [holds, unsettled, hat, Loop.batch]
    exact le_rfl
  | left hat | entered hat | gaveUp hat | rested hat | accepted hat | withdrawn hat
  | rejected hat | counted hat | panicked hat | uncounted hat | ended hat | ticked hat =>
    refine h.mono (fun id => ?_) hc (fun _ _ hid => hid)
    simp only [holds, unsettled, hat, Loop.batch, List.countP_append, List.countP_nil]
    omega

theorem holds_set {i : ℕ} {old worker : Worker} (hi : c.workers[i]? = some old)
    (hr : Replaced i worker c c') (id : String) :
    c'.holds id + c.pool.tasks.countP (Ticket.names id) +
        old.unsettled.countP (Ticket.names id) =
      c.holds id + c'.pool.tasks.countP (Ticket.names id) +
        worker.unsettled.countP (Ticket.names id) := by
  have hset := countP_flatMap_set Worker.unsettled (Ticket.names id) hi worker
  rw [holds_eq, holds_eq, hr.loop, hr.workers]
  omega

theorem Holding.completing_set (h : c.Holding w) {i : ℕ} {worker : Worker}
    (hr : Replaced i worker c c')
    (hw : ∀ t thread, worker = .completing t thread →
      thread.Keeps (Completes t.1.id) (fun _ => True)) :
    ∀ t thread, .completing t thread ∈ c'.workers →
      thread.Keeps (Completes t.1.id) (fun _ => True) := by
  have hc : c.Completing (fun t => Completes t.1.id) := h.completing
  exact hc.set hw hr.workers

/-- A worker passes a ticket on, or drops it. -/
theorem Holding.replace (h : c.Holding w) {i : ℕ} {old worker : Worker}
    (hr : Replaced i worker c c') (hi : c.workers[i]? = some old)
    (hw : ∀ t thread, worker = .completing t thread →
      thread.Keeps (Completes t.1.id) (fun _ => True))
    (hcount : ∀ p, c'.pool.tasks.countP p + worker.unsettled.countP p ≤
      c.pool.tasks.countP p + old.unsettled.countP p)
    (hl : ∀ id, Leases w id → Leases w' id) : c'.Holding w' := by
  refine h.mono (fun id => ?_) (h.completing_set hr hw) (fun id _ => hl id)
  have hset := holds_set hi hr id
  have hle := hcount (Ticket.names id)
  omega

/-- One step of a worker after the handler: it settles its message, or it leaves all messages
alone. -/
theorem Holding.complete {env : Env} (h : c.Holding w) (hk : w.store.Keyed) {i : ℕ} {t : Ticket}
    {thread thread' : EngineThread} (hi : c.workers[i]? = some (.completing t thread))
    (hf : thread.finished = false) (hp : thread.step (memoryHost env).perform w = (thread', w')) :
    (c.setWorker i (.completing t thread')).Holding w' := by
  have hr : Replaced i (.completing t thread') c (c.setWorker i (.completing t thread')) :=
    ⟨rfl, rfl, rfl, rfl, rfl, rfl, rfl, rfl⟩
  rcases (h.completing t thread (List.mem_of_getElem? hi)).step_cases (memoryHost env).perform w
    with ⟨hdone, -⟩ | ⟨e, -, hallowed, hpast, hworld, hkeeps⟩
  · rw [hf] at hdone
    cases hdone
  · rw [hp] at hpast hworld hkeeps
    dsimp only at hpast hworld hkeeps
    have hperform : (memoryHost env).perform e w =
      (((memoryHost env).perform e w).1, w') := Prod.ext rfl hworld.symm
    have hc := h.completing_set hr (by
      rintro _ _ ⟨⟩
      exact hkeeps)
    have hset := holds_set hi hr
    by_cases hs : isSettle ⟨e, ((memoryHost env).perform e w).1⟩ = true
    · cases e with
      | settle party attempt call =>
        obtain ⟨hconcludes, hfirst⟩ := hallowed
        refine h.drop hk t hperform hc (fun id => ?_) (fun id hne => ?_)
        · have hcount := hset id
          simp only [Worker.unsettled, hpast, hfirst, List.any_append, List.any_cons, hs,
            Bool.true_or, Bool.or_true, if_true, Bool.false_eq_true, if_false, List.countP_nil]
            at hcount
          simp only [setWorker] at hcount ⊢
          omega
        · rintro _ ⟨⟩
          obtain ⟨hid, hkept⟩ := hconcludes.settled
          exact ⟨fun h' => hne (Option.some.inj (h'.symm.trans hid)), hkept⟩
      | _ => cases hs
    · refine h.mono (fun id => ?_) hc (fun id _ hl => hl.perform hk hperform (fun call hcall => ?_))
      · have hcount := hset id
        simp only [Worker.unsettled, hpast, List.any_append, List.any_cons, List.any_nil, hs,
          Bool.or_false] at hcount
        simp only [setWorker] at hcount ⊢
        omega
      · cases e with
        | store d =>
          obtain rfl := Option.some.inj hcall
          cases d with
          | history | appendHistory | saveDeadLetter => exact ⟨by simp [settled], not_false⟩
          | _ => exact hallowed.elim
        | settle => exact absurd rfl hs
        | _ => cases hcall

theorem Holding.workerStep {env : Env} {engine : Engine} (h : c.Holding w) (hk : w.store.Keyed)
    {i : ℕ} (hs : WorkerStep (memoryHost env) engine c w i c' w') : c'.Holding w' := by
  cases hs with
  | @received t rest hi ht =>
    refine h.replace ⟨rfl, rfl, rfl, rfl, rfl, rfl, rfl, rfl⟩ hi (by simp) (fun p => ?_)
      (fun _ hl => hl)
    simp only [ht, setWorker, Worker.unsettled, List.countP_cons, List.countP_nil]
    omega
  | exited hi | counted hi | begun hi =>
    exact h.replace ⟨rfl, rfl, rfl, rfl, rfl, rfl, rfl, rfl⟩ hi (by simp) (fun p => le_rfl)
      (fun _ hl => hl)
  | invoked hi hp =>
    refine h.replace ⟨rfl, rfl, rfl, rfl, rfl, rfl, rfl, rfl⟩ hi (by simp) (fun p => le_rfl)
      (fun id hl => hl.perform hk hp (by simp [Spares, Effect.call?]))
  | @handled t hi outcome =>
    refine h.replace ⟨rfl, rfl, rfl, rfl, rfl, rfl, rfl, rfl⟩ hi ?_ (fun p => le_rfl)
      (fun _ hl => hl)
    rintro _ _ ⟨⟩
    exact complete_completes engine c.spec t.delivery outcome
  | stepped hi hf hp => exact h.complete hk hi hf hp
  | finished hi hf =>
    exact h.replace ⟨rfl, rfl, rfl, rfl, rfl, rfl, rfl, rfl⟩ hi (by simp)
      (fun p => Nat.add_le_add_left (Nat.zero_le _) _) (fun _ hl => hl)

theorem Holding.stopStep (h : c.Holding w) (hs : StopStep c c') : c'.Holding w := by
  cases hs <;> exact ⟨h.once, h.leased, h.completing⟩

theorem new_holding (spec : ConsumerSpec) (w : World) : (Consumer.new spec).Holding w := by
  have hidle :
      (List.replicate spec.concurrency.toNat Worker.idle).flatMap Worker.unsettled = [] := by
    simp [Worker.unsettled]
  have hzero : ∀ id, (Consumer.new spec).holds id = 0 := by
    simp [holds, unsettled, Consumer.new, Loop.batch, hidle]
  refine ⟨fun id => (hzero id).le.trans zero_le_one, fun id hpos => ?_, fun t thread hm => ?_⟩
  · rw [hzero id] at hpos
    cases hpos
  · cases (List.mem_replicate.mp hm).2

/-! ## Runs -/

/-- The invariant of the hand-off. -/
structure Safe (c : Consumer) (w : World) : Prop where
  orderly : c.Orderly
  holding : c.Holding w

theorem Safe.moveStep {env : Env} {engine : Engine} (h : c.Safe w) (hk : w.store.Keyed)
    (hs : MoveStep (memoryHost env) engine c w c' w') : c'.Safe w' := by
  obtain ⟨ho, hh⟩ := h
  cases hs with
  | none => exact ⟨ho, hh⟩
  | unsubscribed | cancelled =>
    exact ⟨⟨ho.staffed, ho.manned, ho.room, ho.batch, ho.queued, ho.inFlight, ho.exact,
      ho.ending.same rfl rfl rfl rfl, ho.unpanicked⟩, ⟨hh.once, hh.leased, hh.completing⟩⟩
  | stop hs => exact ⟨ho.stopStep hs, hh.stopStep hs⟩
  | worker hs => exact ⟨ho.workerStep hs, hh.workerStep hk hs⟩
  | loop hs =>
    refine ⟨ho.loopStep hs ?_ ?_, hh.loopStep hk hs⟩
    · intro lease now msgs w' hat hp
      exact Memory.Store.claim_length (Prod.mk.inj hp).1
    · intro t rest now e w' hat
      refine giveBack_of_leases (hh.leased t.1.id ?_) now e
      have hb : c.loop.batch = t :: rest := by rw [hat]; rfl
      rw [holds_eq, hb, List.countP_cons, if_pos (by simp [Ticket.names])]
      omega

end Consumer

/-- The i-th consumer acts itself, or the messages in its hands stay in processing: no lease
of them expires and nobody else settles them. -/
def Undisturbed (env : Env) (engine : Engine) (i : ℕ) (r : Runtime World) : Act → Prop
  | .move j m => j = i ∨ ∀ c ∈ r.consumers[i]?, ∀ t ∈ c.unsettled,
      Leases (r.act (memoryHost env) engine (.move j m)).world t.1.id
  | a => ∀ c ∈ r.consumers[i]?, ∀ t ∈ c.unsettled,
      Leases (r.act (memoryHost env) engine a).world t.1.id

instance (env : Env) (engine : Engine) (i : ℕ) (r : Runtime World) (a : Act) :
    Decidable (Undisturbed env engine i r a) := by
  cases a <;> unfold Undisturbed <;> infer_instance

theorem Runtime.act_keyed (env : Env) (engine : Engine) {r : Runtime World}
    (hk : r.world.store.Keyed) (a : Act) :
    (r.act (memoryHost env) engine a).world.store.Keyed := by
  rcases (r.act_hostStep (memoryHost env) engine a).store_cases with h | ⟨c, h⟩ <;> rw [h]
  · exact hk
  · exact exec_keyed hk c

/-- One action of the runtime. -/
theorem safe_act {env : Env} {engine : Engine} {i : ℕ} {r : Runtime World} {a : Act}
    (hu : Undisturbed env engine i r a) (hk : r.world.store.Keyed)
    (h : ∀ c, r.consumers[i]? = some c → c.Safe r.world) :
    ∀ c, (r.act (memoryHost env) engine a).consumers[i]? = some c →
      c.Safe (r.act (memoryHost env) engine a).world := by
  intro c' hc'
  rcases r.act_consumer (memoryHost env) engine a hc' with
    ⟨hc, hother⟩ | ⟨c, m, rfl, hc, hs⟩ | ⟨spec, queue, -, -, rfl⟩
  · obtain ⟨ho, hh⟩ := h c' hc
    refine ⟨ho, hh.of_leases (fun id hpos => ?_)⟩
    obtain ⟨t, ht, hid⟩ := List.countP_pos_iff.mp hpos
    have hl : ∀ c ∈ r.consumers[i]?, ∀ t ∈ c.unsettled,
        Leases (r.act (memoryHost env) engine a).world t.1.id := by
      cases a with
      | move j m => exact hu.resolve_left (fun hj => hother m (hj ▸ rfl))
      | _ => exact hu
    rw [← of_decide_eq_true hid]
    exact hl c' hc t ht
  · exact (h c hc).moveStep hk hs
  · obtain ⟨hconcurrency, hprefetch⟩ := withDefaults_pos spec queue.visibilityTimeout
    exact ⟨Consumer.new_orderly hconcurrency hprefetch, Consumer.new_holding _ _⟩

/-- Every message a claim has returned to a consumer ends in exactly one call of `process` or
in exactly one release, whatever the loop, the workers, the context and `Stop` do, in any
order. -/
theorem handOff_exactly_once (engine : Engine) (env : Env) (w : World) (hk : w.store.Keyed)
    (i : ℕ) (acts : List Act)
    (hu : StepsMeet (Runtime.exec (memoryHost env) engine) (Undisturbed env engine i)
      (Runtime.init w) acts) (c : Consumer)
    (hc : (Runtime.ran (memoryHost env) engine w acts).consumers[i]? = some c) : c.HandsOff := by
  have hinv := Runtime.ran_rule (memoryHost env) engine
    (I := fun r => r.world.store.Keyed ∧ ∀ c, r.consumers[i]? = some c → c.Safe r.world)
    (fun r a hu ⟨hk, h⟩ => ⟨Runtime.act_keyed env engine hk a, safe_act hu hk h⟩)
    ⟨hk, fun c hc => by cases hc⟩ hu
  exact (hinv.2 c hc).orderly.handsOff

/-- An order is published by the i-th thread. -/
def ordered (i : ℕ) : List Act := .start (.publish order) :: List.replicate 6 (.step i)

/-- Two orders are claimed; the consumer is cancelled when one of them is in the channel, gives
the other back and is stopped. -/
def cancelledRun : List Act := List.flatten [
  [.subscribe ⟨"billing", "orders", 1, 2, 0⟩], ordered 0, ordered 1,
  List.replicate 14 (.move 0 (.dispatch .send)), [.move 0 .cancel],
  List.replicate 5 (.move 0 (.dispatch .done)), List.replicate 4 (.move 0 .stop),
  List.replicate 10 (.move 0 (.work 0 none)), [.move 0 .stop]]

theorem handOff_exactly_once_cancelledRun :
    ∃ c, (Runtime.ran (memoryHost steadyEnv) (ordersEngine 3 (by decide))
        (World.init (ordersRegistry 3)) cancelledRun).consumers[0]? = some c ∧
      c.stopping = .returned ∧ c.started.length = 1 ∧ c.released.length = 1 ∧ c.HandsOff := by
  have hends : (Runtime.ran (memoryHost steadyEnv) (ordersEngine 3 (by decide))
      (World.init (ordersRegistry 3)) cancelledRun).consumers[0]?.map
        (fun c => (c.stopping, c.started.length, c.released.length)) = some (.returned, 1, 1) := by
    decide +kernel
  obtain ⟨c, hc, hfields⟩ := Option.map_eq_some_iff.mp hends
  simp only [Prod.mk.injEq] at hfields
  exact ⟨c, hc, hfields.1, hfields.2.1, hfields.2.2,
    handOff_exactly_once _ _ _ Memory.new_keyed 0 cancelledRun (by decide +kernel) c hc⟩

end RabbitmqLite.Engine
