import RabbitmqLite.Engine.Bookings
import RabbitmqLite.Engine.Mirror

/-! # Attempts and deliveries

The attempts of a message count its claims. A dispatch loop whose context has
ended gives messages back that were never delivered, and a restart forgets the
ones that are on their way: both leave the attempt counted. Nothing else
separates attempts from deliveries.
-/

namespace RabbitmqLite.Engine
open Broker Collections Storage Atomic
open Memory (Record RecordStep)

/-! ## Engines that are restarted -/

/-- The effect marks this message as dead-lettered. -/
def Effect.buries (id : String) (e : Effect) : Bool :=
  match e.call? with
  | some (.markDeadLettered i _ _) => i = id
  | _ => false

/-- The message is in a state from which it can be dead-lettered. -/
def World.doomable (w : World) (id : String) : Bool :=
  (w.store.messages.lookup id).any (fun e => Memory.Doomable e.msg.state)

/-- The effect a worker is about to perform, once its handler has returned. -/
def Worker.next? : Worker → Option Effect
  | .completing _ thread => thread.next?
  | _ => none

/-- The effect that an operation or a worker performs in a step. -/
def Runtime.pending (r : Runtime World) : Act → Option Effect
  | .step i => (r.threads[i]?).bind Thread.next?
  | .move i (.work k _) => ((r.consumers[i]?).bind (fun c => c.workers[k]?)).bind Worker.next?
  | _ => none

/-- What may happen to an engine: an action of its runtime, or a restart at any point. -/
inductive Deed where
  | act (a : Act)
  | restart
  deriving DecidableEq

/-- The runtime of an engine, and the ones before it, as the restarts found them. -/
structure Service where
  ended : List (Runtime World)
  now : Runtime World

namespace Service

def init (w : World) : Service := ⟨[], Runtime.init w⟩

/-- A restart keeps the store, and nothing of the consumers and the operations. -/
def exec (env : Env) (engine : Engine) : Deed → Service → Unit × Service
  | .act a, s => ((), { s with now := s.now.act (memoryHost env) engine a })
  | .restart, s => ((), ⟨s.ended ++ [s.now], Runtime.init s.now.world.restart⟩)

def record (s : Service) (id : String) : Option Record := s.now.world.store.messages.lookup id

def delivered (s : Service) (id : String) : ℕ :=
  (s.ended.map (fun r => r.delivered id)).sum + s.now.delivered id

/-- The attempts of a stored message are its deliveries and the claims that are on their way;
where nothing is on its way, they are its deliveries. -/
def Counted (id : String) (s : Service) : Prop :=
  ∀ e, s.record id = some e → e.msg.attempts = (s.delivered id + s.now.underway id : ℕ)

/-- A dead-lettered message whose attempts are exhausted was delivered as often as the policy
allows. -/
def Exhausted (policy : Retry.Policy) (id : String) (s : Service) : Prop :=
  ∀ e, s.record id = some e → e.msg.state = .deadLettered →
    policy.shouldRetry e.msg.attempts = false → policy.maxAttempts ≤ (s.delivered id : ℤ)

/-- No dispatch loop withdraws the message because its context has ended, and no restart finds
it on its way, unless it is not stored any more. -/
def SeenThrough (id : String) (s : Service) : Deed → Prop
  | .act (.move i (.dispatch .done)) => ∀ c ∈ s.now.consumers[i]?, c.cancelled = true →
      ∀ t ∈ c.loop.offered, t.1.id = id → (s.record id).isSome = false
  | .act _ => True
  | .restart => (s.record id).isSome = true → s.now.underway id = 0

instance (id : String) (s : Service) (d : Deed) : Decidable (SeenThrough id s d) := by
  unfold SeenThrough
  split <;> infer_instance

/-- A message that is about to be dead-lettered, and may be, has no claim on its way. -/
def InTime (id : String) (s : Service) : Deed → Prop
  | .act a => (s.now.pending a).any (Effect.buries id) = true →
      s.now.world.doomable id = true → s.now.underway id = 0
  | .restart => True

instance (id : String) (s : Service) : (d : Deed) → Decidable (InTime id s d)
  | .act _ => inferInstanceAs (Decidable (_ → _ → _))
  | .restart => inferInstanceAs (Decidable True)

/-- All claims that count: the deliveries, and what is on its way now. -/
def total (s : Service) (id : String) : ℕ :=
  (s.ended.map (fun r => r.delivered id)).sum + s.now.claimed id

theorem delivered_add_underway (s : Service) (id : String) :
    s.delivered id + s.now.underway id = s.total id := by
  rw [delivered, total, add_assoc, s.now.delivered_add_underway]

theorem counted_iff {id : String} {s : Service} :
    Counted id s ↔ ∀ e, s.record id = some e → e.msg.attempts = (s.total id : ℤ) := by
  unfold Counted
  rw [delivered_add_underway]

/-- The message has never been there. -/
structure Unseen (id : String) (s : Service) : Prop where
  absent : s.record id = none
  unclaimed : s.total id = 0

end Service

/-! ## One step -/

namespace Service
variable {env : Env} {engine : Engine} {s s' : Service} {id : String}

/-- A step books a number of claims, as attempts and among the claims that count. -/
structure Booked (id : String) (s s' : Service) (n : ℕ) : Prop where
  tally : Tally n (s.record id) (s'.record id)
  total : s'.total id = s.total id + n

/-- The message is appended, for the first and last time. -/
structure Appended (env : Env) (id : String) (s s' : Service) : Prop where
  unseen : Unseen id s
  unclaimed : s'.total id = 0
  fresh : ∀ e, s'.record id = some e → e.msg.attempts = 0 ∧ e.msg.state = .queued
  gone : ¬ s'.now.Expects env id

theorem Booked.counted {n : ℕ} (h : Booked id s s' n) (hc : Counted id s) : Counted id s' := by
  rw [counted_iff] at hc ⊢
  intro e' he'
  obtain ⟨e, he, ha⟩ := h.tally.attempts e' he'
  rw [ha, hc e he, h.total, Nat.cast_add]

theorem Booked.unseen {n : ℕ} (h : Booked id s s' n) (hu : Unseen id s) : Unseen id s' := by
  have hn : n = 0 := h.tally.absent hu.absent
  refine ⟨Option.eq_none_iff_forall_ne_some.mpr (fun e' he' => ?_), ?_⟩
  · obtain ⟨e, he, -⟩ := h.tally.attempts e' he'
    rw [hu.absent] at he
    cases he
  · rw [h.total, hu.unclaimed, hn]

theorem Appended.counted (h : Appended env id s s') : Counted id s' := by
  rw [counted_iff, h.unclaimed]
  exact fun e he => (h.fresh e he).1

/-- What holds of every service. -/
structure Regular (env : Env) (engine : Engine) (s : Service) : Prop where
  keyed : s.now.world.store.Keyed
  ending : ∀ c ∈ s.now.consumers, c.Ending
  completing : ∀ c ∈ s.now.consumers, c.Completing (fun t => Completes t.1.id)
  authored : s.now.Authored env engine
  unseen : ∀ id, s.now.Expects env id → Unseen id s

/-- A claim of the message is lost on its way. -/
def Loses (id : String) (s : Service) : Deed → Prop
  | .act (.move i (.dispatch .done)) => ∃ c t, s.now.consumers[i]? = some c ∧
      c.cancelled = true ∧ c.loop.offered = some t ∧ t.1.id = id
  | .act _ => False
  | .restart => s.now.underway id ≠ 0

theorem seenThrough_iff {d : Deed} :
    SeenThrough id s d ↔ (Loses id s d → (s.record id).isSome = false) := by
  unfold SeenThrough
  split
  · simp only [Loses]
    constructor
    · rintro h ⟨c, t, hc, hcancelled, ht, hid⟩
      exact h c hc hcancelled t ht hid
    · exact fun h c hc hcancelled t ht hid => h ⟨c, t, hc, hcancelled, ht, hid⟩
  · unfold Loses
    split <;> simp_all
  · simp only [Loses]
    rw [← not_imp_not]
    simp

/-- An action of the runtime, as far as the service is concerned. -/
def onNow (s : Service) (r : Runtime World) : Service := { s with now := r }

theorem Booked.same {r : Runtime World} (hw : r.world.store = s.now.world.store)
    (hc : r.claimed id = s.now.claimed id) : Booked id s (s.onNow r) 0 where
  tally := .of_eq (by simp only [record, onNow, hw])
  total := by simp only [Service.total, onNow, hc, add_zero]

theorem claimed_set_thread {r : Runtime World} {i : ℕ} {t : EngineThread}
    (hi : r.threads[i]? = some t) (w : World) (t' : EngineThread) (id : String) :
    ({ r with world := w, threads := r.threads.set i t' } : Runtime World).claimed id +
      claims t.past id = r.claimed id + claims t'.past id := by
  have hset := sum_map_set (fun t : EngineThread => claims t.past id) hi t'
  simp only [Runtime.claimed]
  omega

theorem claimed_set_consumer {r : Runtime World} {i : ℕ} {c : Consumer}
    (hi : r.consumers[i]? = some c) (w : World) (c' : Consumer) (id : String) :
    ({ r with world := w, consumers := r.consumers.set i c' } : Runtime World).claimed id +
      c.carried id = r.claimed id + c'.carried id := by
  have hset := sum_map_set (fun c : Consumer => c.carried id) hi c'
  simp only [Runtime.claimed]
  omega

/-- A thread performs an effect that does not append the message. -/
theorem Booked.advance (hr : Regular env engine s) {i : ℕ} {t t' : EngineThread} {e : Effect}
    (ha : s.now.Advances env i t e t') (hc : Conduct engine t.past e)
    (happ : ∀ msgs, e = .store (.append msgs) → id ∉ msgs.map Message.id) :
    ∃ n, Booked id s (s.onNow (s.now.advanced env i e t')) n := by
  refine ⟨_, tally_perform env hr.keyed id hc.settlesWithoutClaim (fun msgs hcall => ?_), ?_⟩
  · cases e with
    | store c =>
      obtain rfl := Option.some.inj hcall
      exact happ msgs rfl
    | settle party attempt c =>
      obtain rfl := Option.some.inj hcall
      exact hc.elim
    | _ => cases hcall
  · have hset := claimed_set_thread ha.thread (perform env e s.now.world).2 t' id
    rw [ha.past, claims_snoc] at hset
    simp only [Service.total, onNow, Runtime.advanced]
    omega

/-- A thread appends the message. -/
theorem Appended.advance (hr : Regular env engine s) {i : ℕ} {t t' : EngineThread}
    {msgs : List Message} (ha : s.now.Advances env i t (.store (.append msgs)) t')
    (hc : Prepared engine t.past msgs) (hnone : appends t.past = [])
    (hid : id ∈ msgs.map Message.id) :
    Appended env id s (s.onNow (s.now.advanced env i (.store (.append msgs)) t')) := by
  have hgen : id ∈ generated t.past := hc.1.subset hid
  have hmem : t ∈ s.now.threads := List.mem_of_getElem? ha.thread
  have hunseen := hr.unseen id (Or.inr ⟨t, hmem, hnone, hgen⟩)
  refine ⟨hunseen, ?_, fun e he => ?_, Runtime.not_expects_of_append hr.authored ha hgen⟩
  · have hset := claimed_set_thread ha.thread (perform env (.store (.append msgs)) s.now.world).2
      t' id
    have htotal := hunseen.unclaimed
    rw [ha.past, claims_snoc] at hset
    simp only [total, onNow, Runtime.advanced] at htotal ⊢
    simp only [claimedBy, claimedIn, List.map_nil, List.count_nil] at hset
    omega
  · have hstep := Memory.append_recordStep s.now.world.store msgs id
    rw [show s.now.world.store.messages.lookup id = none from hunseen.absent] at hstep
    rw [show (s.now.world.store.append msgs).2.messages.lookup id = some e from he] at hstep
    obtain ⟨_, msg, ⟨⟩, -, hm, -, rfl⟩ := RecordStep.of_none hstep
    exact ⟨(hc.2 msg hm).attempts, (hc.2 msg hm).state⟩

/-- A step of an operation. -/
theorem step_books (hr : Regular env engine s) (i : ℕ) (id : String) :
    (∃ n, Booked id s (exec env engine (.act (.step i)) s).2 n) ∨
      Appended env id s (exec env engine (.act (.step i)) s).2 := by
  cases hi : s.now.threads[i]? with
  | none =>
    refine Or.inl ⟨0, ?_⟩
    simp only [exec, Runtime.act, hi]
    exact .same rfl rfl
  | some t =>
    simp only [exec, Runtime.act, hi]
    rcases (hr.authored.contract t (List.mem_of_getElem? hi)).step_cases (memoryHost env).perform
      s.now.world with ⟨-, hsame⟩ | ⟨e, -, ⟨hconduct, honce⟩, hpast, hworld, -⟩
    · refine Or.inl ⟨0, ?_⟩
      rw [hsame]
      exact .same rfl (Nat.add_right_cancel (claimed_set_thread hi s.now.world t id))
    · have ha : s.now.Advances env i t e (t.step (memoryHost env).perform s.now.world).1 :=
        ⟨hi, hpast⟩
      rw [hworld]
      by_cases happ : ∃ msgs, e = .store (.append msgs) ∧ id ∈ msgs.map Message.id
      · obtain ⟨msgs, rfl, hid⟩ := happ
        exact Or.inr (Appended.advance hr ha hconduct (honce msgs rfl) hid)
      · exact Or.inl (Booked.advance hr ha hconduct (fun msgs he hid => happ ⟨msgs, he, hid⟩))

theorem new_carried (spec : ConsumerSpec) (id : String) : (Consumer.new spec).carried id = 0 := by
  have hidle : (List.replicate spec.concurrency.toNat Worker.idle).flatMap Worker.bound = [] := by
    simp [Worker.bound]
  simp [Consumer.carried, Consumer.bound, Consumer.new, Loop.bound, hidle]

theorem start_books (s : Service) (op : Op) (id : String) :
    Booked id s (exec env engine (.act (.start op)) s).2 0 := by
  simp only [exec, Runtime.act]
  split_ifs
  · refine .same rfl ?_
    have hnone : claims [] id = 0 := rfl
    simp [Runtime.claimed, Thread.start, hnone]
  · exact .same rfl rfl

theorem subscribe_books (s : Service) (spec : ConsumerSpec) (id : String) :
    Booked id s (exec env engine (.act (.subscribe spec)) s).2 0 := by
  simp only [exec, Runtime.act, Runtime.subscribe]
  split <;> rename_i hp
  · obtain ⟨-, rfl⟩ := memoryHost_perform hp
    exact .same rfl rfl
  · obtain ⟨-, rfl⟩ := memoryHost_perform hp
    split_ifs
    · exact .same rfl rfl
    · refine .same rfl ?_
      simp [Runtime.claimed, new_carried]

/-- A move of a consumer, where nothing is lost. -/
theorem move_books (hr : Regular env engine s) (i : ℕ) (m : Consumer.Move) (id : String)
    (hl : ¬ Loses id s (.act (.move i m))) :
    ∃ n, Booked id s (exec env engine (.act (.move i m)) s).2 n := by
  cases hi : s.now.consumers[i]? with
  | none =>
    refine ⟨0, ?_⟩
    simp only [exec, Runtime.act, hi]
    exact .same rfl rfl
  | some c =>
    have hc : c ∈ s.now.consumers := List.mem_of_getElem? hi
    have hstep := Consumer.move_cases (memoryHost env) engine m c s.now.world
    have hset := claimed_set_consumer hi (c.move (memoryHost env) engine m s.now.world).2
      (c.move (memoryHost env) engine m s.now.world).1 id
    simp only [exec, Runtime.act, hi]
    rcases Consumer.MoveStep.books (hr.ending c hc) (hr.completing c hc) hr.keyed id hstep with
      ⟨n, ht, hn⟩ | ⟨t, rest, hat, hloop, hw, hcount⟩
    · refine ⟨n, ht, ?_⟩
      simp only [Service.total]
      omega
    · obtain ⟨rfl, hcancelled⟩ := Consumer.move_uncount hat hloop
      have hother : Ticket.names id t = false := by
        by_contra hid
        refine hl ⟨c, t, hi, hcancelled, by rw [hat]; rfl, ?_⟩
        simpa [Ticket.names] using hid
      rw [List.countP_singleton, hother] at hcount
      refine ⟨0, .of_eq (by simp only [record, hw]), ?_⟩
      simp only [Service.total]
      simp only [Bool.false_eq_true, if_false] at hcount
      omega

/-- A restart loses what was under way. -/
theorem restart_total (env : Env) (engine : Engine) (s : Service) (id : String) :
    (exec env engine .restart s).2.total id + s.now.underway id = s.total id := by
  have hsum := s.now.delivered_add_underway id
  simp only [exec, total, List.map_append, List.sum_append, List.map_cons, List.map_nil,
    List.sum_cons, List.sum_nil, Runtime.init, Runtime.claimed]
  simp only [Runtime.claimed] at hsum
  omega

/-- Where nothing is lost, all claims are booked. -/
theorem books_of_not_loses (hr : Regular env engine s) {d : Deed} (hl : ¬ Loses id s d) :
    (∃ n, Booked id s (exec env engine d s).2 n) ∨ Appended env id s (exec env engine d s).2 := by
  cases d with
  | restart =>
    refine Or.inl ⟨0, .of_eq rfl, ?_⟩
    have hnone : s.now.underway id = 0 := not_not.mp hl
    have hsum := restart_total env engine s id
    omega
  | act a =>
    cases a with
    | start op => exact Or.inl ⟨0, start_books s op id⟩
    | step i => exact step_books hr i id
    | subscribe spec => exact Or.inl ⟨0, subscribe_books s spec id⟩
    | move i m => exact Or.inl (move_books hr i m id hl)

/-- What is lost is still counted as an attempt. -/
theorem loses_less (env : Env) (engine : Engine) {d : Deed} (hl : Loses id s d) :
    (exec env engine d s).2.record id = s.record id ∧
      (exec env engine d s).2.total id < s.total id := by
  cases d with
  | restart =>
    refine ⟨rfl, ?_⟩
    have hsome : 0 < s.now.underway id := Nat.pos_of_ne_zero hl
    have hsum := restart_total env engine s id
    omega
  | act a =>
    unfold Loses at hl
    split at hl
    · rename_i i ha
      obtain ⟨⟩ := ha
      obtain ⟨c, t, hi, hcancelled, hoffered, rfl⟩ := hl
      obtain ⟨rest, hat⟩ := Loop.offered_eq_some.mp hoffered
      have hmove := c.dispatch_withdraws (memoryHost env) s.now.world hat hcancelled
      have hset := claimed_set_consumer hi s.now.world { c with loop := .uncount t rest } t.1.id
      have hown : Ticket.names t.1.id t = true := by simp [Ticket.names]
      have hcarried : ({ c with loop := .uncount t rest } : Consumer).carried t.1.id + 1 =
          c.carried t.1.id := by
        simp only [Consumer.carried_eq, hat, Loop.bound, List.countP_cons, hown, if_true]
        omega
      simp only [exec, Runtime.act, hi, Consumer.move, hmove]
      refine ⟨rfl, ?_⟩
      simp only [total]
      omega
    · exact hl.elim
    · rename_i ha
      cases ha

/-! ## Runs -/

theorem Unseen.step (hr : Regular env engine s) {d : Deed} (hu : Unseen id s)
    (hex : (exec env engine d s).2.now.Expects env id) : Unseen id (exec env engine d s).2 := by
  by_cases hl : Loses id s d
  · obtain ⟨hrecord, hless⟩ := loses_less env engine hl
    rw [hu.unclaimed] at hless
    cases hless
  · rcases books_of_not_loses hr hl with ⟨n, hb⟩ | ha
    · exact hb.unseen hu
    · exact absurd hex ha.gone

theorem authored_step (hinj : Function.Injective env.newID) (hr : Regular env engine s) (d : Deed) :
    (exec env engine d s).2.now.Authored env engine ∧
      ((exec env engine d s).2.now.Expects env id → s.now.Expects env id) := by
  cases d with
  | restart =>
    refine ⟨Runtime.Authored.init env engine _, ?_⟩
    rintro (hn | ⟨t, ht, -⟩)
    · exact Or.inl hn
    · cases ht
  | act a =>
    have hids := (s.now.act_hostStep (memoryHost env) engine a).ids_le
    cases a with
    | start op =>
      simp only [exec, Runtime.act]
      split_ifs with hop
      · exact ⟨hr.authored.start hop, Runtime.Expects.start⟩
      · exact ⟨hr.authored, fun h => h⟩
    | step i =>
      simp only [exec, Runtime.act]
      cases hi : s.now.threads[i]? with
      | none => exact ⟨hr.authored, fun h => h⟩
      | some t =>
        dsimp only
        rcases (hr.authored.contract t (List.mem_of_getElem? hi)).step_cases
          (memoryHost env).perform s.now.world with ⟨-, hsame⟩ | ⟨e, -, -, hpast, hworld, hkeeps⟩
        · obtain ⟨hlt, rfl⟩ := List.getElem?_eq_some_iff.mp hi
          rw [hsame, List.set_getElem_self hlt]
          exact ⟨hr.authored, fun h => h⟩
        · have ha : s.now.Advances env i t e (t.step (memoryHost env).perform s.now.world).1 :=
            ⟨hi, hpast⟩
          rw [hworld]
          exact ⟨hr.authored.advance hinj ha hkeeps, fun h => h.advance hinj ha⟩
    | subscribe spec =>
      have ht := Runtime.act_threads env engine s.now (a := .subscribe spec) (by simp) (by simp)
      exact ⟨hr.authored.of_threads ht hids, fun h => h.of_threads ht hids⟩
    | move i m =>
      have ht := Runtime.act_threads env engine s.now (a := .move i m) (by simp) (by simp)
      exact ⟨hr.authored.of_threads ht hids, fun h => h.of_threads ht hids⟩

theorem consumers_step (hr : Regular env engine s) (d : Deed) :
    ∀ c ∈ (exec env engine d s).2.now.consumers,
      c.Ending ∧ c.Completing (fun t => Completes t.1.id) := by
  cases d with
  | restart => exact fun c hc => absurd hc List.not_mem_nil
  | act a =>
    intro c' hc'
    obtain ⟨i, hi⟩ := List.mem_iff_getElem?.mp hc'
    rcases s.now.act_consumer (memoryHost env) engine a hi with
      ⟨hc, -⟩ | ⟨c, m, rfl, hc, hs⟩ | ⟨spec, queue, -, -, rfl⟩
    · have hmem := List.mem_of_getElem? hc
      exact ⟨hr.ending c' hmem, hr.completing c' hmem⟩
    · have hmem := List.mem_of_getElem? hc
      exact ⟨(hr.ending c hmem).moveStep hs, (hr.completing c hmem).moveStep
        (fun spec t outcome => complete_completes engine spec t.delivery outcome) hs⟩
    · obtain ⟨hconcurrency, hprefetch⟩ := withDefaults_pos spec queue.visibilityTimeout
      exact ⟨(Consumer.new_orderly hconcurrency hprefetch).ending, Consumer.new_completing _⟩

theorem Regular.step (hinj : Function.Injective env.newID) (hr : Regular env engine s) (d : Deed) :
    Regular env engine (exec env engine d s).2 where
  keyed := by
    cases d with
    | restart => exact hr.keyed
    | act a => exact Runtime.act_keyed env engine hr.keyed a
  ending := fun c hc => (consumers_step hr d c hc).1
  completing := fun c hc => (consumers_step hr d c hc).2
  authored := (@authored_step env engine s "" hinj hr d).1
  unseen := fun id hex => (hr.unseen id ((authored_step hinj hr d).2 hex)).step hr hex

/-- A step keeps attempts and deliveries together exactly if nothing that is stored is lost. -/
theorem counted_step (hr : Regular env engine s) {d : Deed} (hc : Counted id s) :
    Counted id (exec env engine d s).2 ↔ SeenThrough id s d := by
  rw [seenThrough_iff]
  by_cases hl : Loses id s d
  · obtain ⟨hrecord, hless⟩ := loses_less env engine hl
    simp only [hl, true_imp_iff]
    rw [counted_iff] at hc ⊢
    rw [hrecord]
    cases hr : s.record id with
    | none => simp
    | some e =>
      have hattempts := hc e hr
      simp only [Option.some.injEq, forall_eq', hattempts, Option.isSome_some, Bool.true_eq_false,
        iff_false]
      omega
  · refine ⟨fun _ h => absurd h hl, fun _ => ?_⟩
    rcases books_of_not_loses hr hl with ⟨n, hb⟩ | ha
    · exact hb.counted hc
    · exact ha.counted

/-- A new service on an empty store, after some deeds. -/
def ran (env : Env) (engine : Engine) (registry : Registry) (deeds : List Deed) : Service :=
  after (exec env engine) (init (World.init registry)) deeds

theorem init_regular (env : Env) (engine : Engine) (registry : Registry) :
    Regular env engine (init (World.init registry)) where
  keyed := Memory.new_keyed
  ending := fun _ hc => absurd hc List.not_mem_nil
  completing := fun _ hc => absurd hc List.not_mem_nil
  authored := Runtime.Authored.init env engine _
  unseen := fun _ _ => ⟨rfl, rfl⟩

theorem delivered_le_step (env : Env) (engine : Engine) (s : Service) (d : Deed) (id : String) :
    s.delivered id ≤ (exec env engine d s).2.delivered id := by
  cases d with
  | act a => exact Nat.add_le_add_left (Runtime.delivered_le_act env engine s.now a id) _
  | restart =>
    simp only [exec, delivered, List.map_append, List.sum_append, List.map_cons, List.map_nil,
      List.sum_cons, List.sum_nil]
    omega

/-! ## Dead-lettering -/

/-- The message is not dead-lettered in this step. -/
def Spares (id : String) (w w' : World) : Prop :=
  ∀ e e', w.store.messages.lookup id = some e → w'.store.messages.lookup id = some e' →
    e'.msg.state = .deadLettered → e.msg.state = .deadLettered

theorem Spares.of_eq {w w' : World} (h : w'.store = w.store) : Spares id w w' := by
  intro e e' he he' hdead
  rw [h, he] at he'
  exact Option.some.inj he' ▸ hdead

theorem Spares.refl (w : World) : Spares id w w := .of_eq rfl

theorem RecordStep.spares {c : Call} {reply : c.Reply} {e e' : Record}
    (h : RecordStep c reply id (some e) (some e')) (hdead : e'.msg.state = .deadLettered) :
    e.msg.state = .deadLettered ∨
      (∃ reason now, c = .markDeadLettered id reason now) ∧ Memory.Doomable e.msg.state := by
  cases h with
  | same => exact Or.inl hdead
  | markDeadLettered hd => exact Or.inr ⟨⟨_, _, rfl⟩, hd⟩
  | _ => cases hdead

/-- Only the call that marks the message can dead-letter it. -/
theorem perform_spares (env : Env) {w : World} (hk : w.store.Keyed) (e : Effect) (id : String) :
    Spares id w (perform env e w).2 ∨
      e.buries id = true ∧
        w.doomable id = true := by
  have hstore := perform_store env e w
  unfold Effect.buries
  cases hcall : e.call? with
  | none =>
    rw [hcall] at hstore
    exact Or.inl (.of_eq hstore)
  | some c =>
    replace hstore : (perform env e w).2.store = (Memory.exec c w.store).2 := by
      rw [hstore, hcall]
    by_contra hnot
    rw [not_or] at hnot
    refine hnot.1 (fun r r' hr hr' hdead => ?_)
    have hstep := Memory.exec_recordStep hk c id
    rw [hr, ← hstore, hr'] at hstep
    rcases RecordStep.spares hstep hdead with hold | ⟨⟨reason, now, rfl⟩, hdoomable⟩
    · exact hold
    · exact absurd ⟨by simp, by simpa [World.doomable, hr] using hdoomable⟩ hnot.2

theorem spares_of_perform {w w' : World} (hk : w.store.Keyed) {e : Effect} {reply : e.Reply}
    (hp : (memoryHost env).perform e w = (reply, w')) (he : e.buries id = false) :
    Spares id w w' := by
  obtain ⟨-, rfl⟩ := memoryHost_perform hp
  refine (perform_spares env hk e id).resolve_right (fun h => ?_)
  rw [he] at h
  cases h.1

theorem LoopStep.spares {c c' : Consumer} {w w' : World} (hk : w.store.Keyed)
    (hs : LoopStep (memoryHost env) c w c' w') : Spares id w w' := by
  cases hs with
  | unknown _ hp | found _ hp | timed _ hp | unclaimed _ hp | claimed _ hp | stamped _ hp
  | recorded _ hp | undone _ hp | lost _ hp | gaveBack _ hp => exact spares_of_perform hk hp rfl
  | opened => exact .of_eq (openSignal_store _ _)
  | woken _ hw => exact .of_eq (takeSignal_store hw)
  | _ => exact .refl w

/-- A step of a thread dead-letters the message only if this is its next effect. -/
theorem thread_spares {w : World} (hk : w.store.Keyed) (t : EngineThread) :
    Spares id w (t.step (memoryHost env).perform w).2 ∨
      t.next?.any (Effect.buries id) = true ∧
        w.doomable id = true := by
  rcases t with ⟨past, u | ⟨e, next⟩⟩
  · exact Or.inl (.refl w)
  · exact perform_spares env hk e id

theorem WorkerStep.spares {c c' : Consumer} {w w' : World} (hk : w.store.Keyed) {k : ℕ}
    (hs : WorkerStep (memoryHost env) engine c w k c' w') :
    Spares id w w' ∨
      ((c.workers[k]?).bind Worker.next?).any (Effect.buries id) = true ∧
        w.doomable id = true := by
  cases hs with
  | invoked _ hp => exact Or.inl (spares_of_perform hk hp rfl)
  | @stepped _ thread _ _ hi _ hp =>
    have hthread := @thread_spares env id w hk thread
    rw [hp] at hthread
    rw [hi]
    exact hthread
  | _ => exact Or.inl (.refl w)

/-- A step dead-letters the message only if this is the effect it performs, of a message that may
be dead-lettered. -/
theorem exec_spares (hk : s.now.world.store.Keyed) (d : Deed) :
    Spares id s.now.world (exec env engine d s).2.now.world ∨
      ∃ a, d = .act a ∧ (s.now.pending a).any (Effect.buries id) = true ∧
        s.now.world.doomable id = true := by
  cases d with
  | restart => exact Or.inl (.of_eq rfl)
  | act a =>
    cases a with
    | start op =>
      left
      simp only [exec, Runtime.act]
      split_ifs <;> exact .refl _
    | subscribe spec =>
      left
      simp only [exec, Runtime.act, Runtime.subscribe]
      split <;> rename_i hp
      · exact spares_of_perform hk hp rfl
      · split_ifs <;> exact spares_of_perform hk hp rfl
    | step i =>
      simp only [exec, Runtime.act, Runtime.pending]
      cases hi : s.now.threads[i]? with
      | none => exact Or.inl (.refl _)
      | some t =>
        refine (thread_spares hk t).imp (fun h => h) (fun h => ⟨_, rfl, ?_⟩)
        dsimp only
        rw [hi]
        exact h
    | move i m =>
      simp only [exec, Runtime.act]
      cases hi : s.now.consumers[i]? with
      | none => exact Or.inl (.refl _)
      | some c =>
        cases m with
        | unsubscribe | cancel | stop => exact Or.inl (.refl _)
        | dispatch branch =>
          left
          rcases c.dispatch_cases (memoryHost env) s.now.world branch with hsame | hs
          · simp only [Consumer.move, hsame]
            exact .refl _
          · exact LoopStep.spares hk hs
        | work k outcome =>
          rcases c.work_cases (memoryHost env) engine s.now.world k outcome with hsame | hs
          · left
            simp only [Consumer.move, hsame]
            exact .refl _
          · refine (WorkerStep.spares hk hs).imp (fun h => h) (fun h => ⟨_, rfl, ?_⟩)
            simp only [Runtime.pending, hi]
            exact h

/-- A message is given up as exhausted after as many deliveries as the policy allows. -/
theorem Exhausted.step {policy : Retry.Policy} (hr : Regular env engine s) {d : Deed}
    (ht : InTime id s d) (hc : Counted id s) (h : Exhausted policy id s) :
    Exhausted policy id (exec env engine d s).2 := by
  intro e' he' hdead hretry
  have hle : (s.delivered id : ℤ) ≤ (exec env engine d s).2.delivered id :=
    Int.ofNat_le.mpr (delivered_le_step env engine s d id)
  by_cases hl : Loses id s d
  · rw [(loses_less env engine hl).1] at he'
    exact (h e' he' hdead hretry).trans hle
  · rcases books_of_not_loses hr hl with ⟨n, hb⟩ | ha
    · obtain ⟨e, he, hattempts⟩ := hb.tally.attempts e' he'
      rw [hb.tally.dead e' he' hdead, Nat.cast_zero, add_zero] at hattempts
      rw [hattempts] at hretry
      rcases @exec_spares env engine s id hr.keyed d with hspares | ⟨a, rfl, hburies, hdoomable⟩
      · exact (h e he (hspares e e' he he' hdead) hretry).trans hle
      · have hnone : s.now.underway id = 0 := ht hburies hdoomable
        have hcount := hc e he
        rw [hnone, add_zero] at hcount
        rw [hcount] at hretry
        exact (le_of_not_gt (of_decide_eq_false hretry)).trans hle
    · rw [(ha.fresh e' he').2] at hdead
      cases hdead

/-- The attempts of a message are its deliveries, in all states of a run, exactly if no dispatch
loop withdraws it and no restart finds it on its way. If it is moreover never dead-lettered
while it is on its way, it is given up as exhausted after as many deliveries as the policy
allows. -/
theorem attempts_count_deliveries (engine : Engine) (env : Env)
    (hinj : Function.Injective env.newID) (registry : Registry) (id : String)
    (deeds : List Deed) :
    ((∀ done, done <+: deeds → Counted id (ran env engine registry done)) ↔
      StepsMeet (exec env engine) (SeenThrough id) (init (World.init registry)) deeds) ∧
    (StepsMeet (exec env engine) (fun s d => SeenThrough id s d ∧ InTime id s d)
        (init (World.init registry)) deeds →
      ∀ done, done <+: deeds → Exhausted engine.policy id (ran env engine registry done)) := by
  have hcounted : Counted id (init (World.init registry)) := fun e he => by cases he
  constructor
  · exact forall_prefix_iff_stepsMeet (exec env engine) (I := Regular env engine)
      (P := Counted id) (fun s d hr => hr.step hinj d) (fun s d hr hc => counted_step hr hc)
      (init_regular env engine registry) hcounted deeds
  · intro hmeets done hdone
    have hinv := @run_rule _ _ _ (exec env engine) _
      (fun s _ => Regular env engine s ∧ Counted id s ∧ Exhausted engine.policy id s)
      (fun s _ d hd ⟨hr, hc, he⟩ => ⟨hr.step hinj d, (counted_step hr hc).mpr hd.1,
        he.step hr hd.2 hc⟩) done _ [] (hmeets.of_prefix _ hdone)
      ⟨init_regular env engine registry, hcounted, fun e he => by cases he⟩
    exact hinv.2.2

/-- One order; its handler fails, and it has had its only attempt. -/
def failedRun : List Deed := (List.flatten [
  [.subscribe ⟨"billing", "orders", 1, 1, 0⟩], ordered 0,
  List.replicate 10 (.move 0 (.dispatch .send)),
  List.replicate 14 (.move 0 (.work 0 (some (.failure "" false))))]).map .act

theorem attempts_count_deliveries_failedRun :
    Function.Injective steadyEnv.newID ∧
      Counted "|" (ran steadyEnv (ordersEngine 1 le_rfl) (ordersRegistry 1) failedRun) ∧
      stateIn (ran steadyEnv (ordersEngine 1 le_rfl) (ordersRegistry 1) failedRun).now.world.store
        "|" = some .deadLettered ∧
      Exhausted (ordersEngine 1 le_rfl).policy "|"
        (ran steadyEnv (ordersEngine 1 le_rfl) (ordersRegistry 1) failedRun) := by
  have hinj : Function.Injective steadyEnv.newID := ordersEnv_injective []
  have hmeets : StepsMeet (exec steadyEnv (ordersEngine 1 le_rfl))
      (fun s d => SeenThrough "|" s d ∧ InTime "|" s d)
      (init (World.init (ordersRegistry 1))) failedRun := by decide +kernel
  obtain ⟨hcounted, hexhausted⟩ := attempts_count_deliveries (ordersEngine 1 le_rfl) steadyEnv hinj
    (ordersRegistry 1) "|" failedRun
  exact ⟨hinj, hcounted.mpr (hmeets.mono _ (fun _ _ h => h.1)) _ (List.prefix_refl _),
    by decide +kernel, hexhausted hmeets _ (List.prefix_refl _)⟩

/-- An order is claimed, and the consumer is cancelled before it is sent to the pool. Then it is
pulled and refused once, which is one delivery of the two that the policy allows. -/
def withdrawnRun : List Deed := (List.flatten [
  [.subscribe ⟨"billing", "orders", 1, 1, 0⟩], ordered 0,
  List.replicate 9 (.move 0 (.dispatch .send)), [.move 0 .cancel],
  List.replicate 4 (.move 0 (.dispatch .done)),
  .start (.pull ⟨"orders", "client", 1, 0⟩) :: List.replicate 4 (.step 1),
  .start (.nack "|" "" false 2) :: List.replicate 8 (.step 2)]).map .act

def withdrawnService : Service :=
  ran steadyEnv (ordersEngine 2 (by decide)) (ordersRegistry 2) withdrawnRun

/-- The order is dead-lettered with two attempts and one delivery. -/
theorem attempts_withdrawnRun :
    (∃ e, withdrawnService.record "|" = some e ∧ e.msg.state = .deadLettered ∧
      e.msg.attempts = 2) ∧
    withdrawnService.delivered "|" = 1 ∧ withdrawnService.now.underway "|" = 0 ∧
    ¬ Counted "|" withdrawnService ∧
    ¬ Exhausted (ordersEngine 2 (by decide)).policy "|" withdrawnService := by
  have hends : (withdrawnService.record "|").map (fun e => (e.msg.state, e.msg.attempts)) =
      some (.deadLettered, 2) := by decide +kernel
  have hdelivered : withdrawnService.delivered "|" = 1 := by decide +kernel
  have hunderway : withdrawnService.now.underway "|" = 0 := by decide +kernel
  obtain ⟨e, he, hfields⟩ := Option.map_eq_some_iff.mp hends
  obtain ⟨hstate, hattempts⟩ := Prod.mk.inj hfields
  refine ⟨⟨e, he, hstate, hattempts⟩, hdelivered, hunderway, fun hc => ?_, fun hx => ?_⟩
  · have hcount := hc e he
    rw [hattempts, hdelivered, hunderway] at hcount
    cases hcount
  · have hmax := hx e he hstate (by rw [hattempts]; rfl)
    rw [hdelivered] at hmax
    exact absurd hmax (by decide)

end Service
end RabbitmqLite.Engine
