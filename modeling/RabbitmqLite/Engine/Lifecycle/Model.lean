import RabbitmqLite.Engine.World
import RabbitmqLite.Worker.Shutdown

/-! # The life of an engine

`Start`, `Subscribe`, `Unsubscribe`, `Consumer.Stop` and `Shutdown` may be called
from any number of goroutines, while each consumer has a dispatch loop and a pool
of workers and each start a maintenance loop. One step is a section under the
engine's lock, one access to a wait group, a channel, a context or a `sync.Once`,
or one step of a consumer's pool; the steps may come in any order.

The messages do not appear here: a dispatch loop claims some number of them and
submits one task for each. Handlers return, and do not stop their own consumer.

The wait group of the engine is that of the `sync` package. A `Wait` that finds
the counter above zero sleeps until the counter comes down to zero, and then
panics if it has been raised again before the `Wait` has returned. A panic ends
the process.
-/

namespace RabbitmqLite.Engine.Lifecycle
open Atomic Collections

/-! ## Goroutines -/

/-- Where the function inside the `sync.Once` of a consumer stands. -/
inductive Stopping where
  | cancel
  | await
  | callPool
  | inPool
  deriving DecidableEq

inductive Once where
  | fresh
  | running (stopping : Stopping)
  | finished
  deriving DecidableEq

/-- The context of the consumer was cancelled by its own `stop`. -/
def Once.cancelled : Once → Bool
  | .fresh | .running .cancel => false
  | .running .await | .running .callPool | .running .inPool | .finished => true

/-- Where a dispatch loop stands. It closes `done` before it leaves the wait group. -/
inductive Loop where
  | checking
  | claiming
  | waiting
  | handing (left : ℕ)
  | submitting (i left : ℕ)
  | leaving
  | ended
  deriving DecidableEq

/-- `done` is closed. -/
def Loop.done : Loop → Bool
  | .leaving | .ended => true
  | .checking | .claiming | .waiting | .handing _ | .submitting _ _ => false

structure Consumer where
  spec : ConsumerSpec
  root : ℕ
  loop : Loop
  pool : Worker.Pool
  once : Once
  deriving DecidableEq

/-- A context that `Start` made, and the maintenance loop it started. -/
structure Root where
  cancelled : Bool
  maintaining : Bool
  deriving DecidableEq

inductive Kind where
  | shutdown
  | unsubscribe
  | stop
  deriving DecidableEq

/-- Where a call of `Shutdown`, `Unsubscribe` or `Stop` stands, for a `Shutdown` the goroutine
that drains. -/
inductive Phase where
  | cancel (root : Option ℕ)
  | enter
  | inside
  | waitGroup
  | parked (epoch : ℕ)
  | returned
  deriving DecidableEq

/-- The call is at or inside `Wait`. -/
def Phase.waits : Phase → Bool
  | .waitGroup | .parked _ => true
  | .cancel _ | .enter | .inside | .returned => false

/-- `Shutdown` has cancelled the context and goes to its `select`. -/
def Phase.cancelled : Phase → Bool
  | .cancel _ => false
  | .enter | .inside | .waitGroup | .parked _ | .returned => true

inductive Outcome where
  | drained
  | timedOut
  deriving DecidableEq

/-- A call, with the consumers it took and those it has still to stop. -/
structure Caller where
  kind : Kind
  taken : List ℕ
  todo : List ℕ
  phase : Phase
  outcome : Option Outcome
  deriving DecidableEq

/-- `wg` is the counter of the wait group, and `epoch` says how often it has come down to zero. -/
structure Host where
  roots : List Root
  rootCtx : Option ℕ
  consumers : List (String × ℕ)
  all : List Consumer
  callers : List Caller
  wg : ℕ
  epoch : ℕ
  crashed : Bool
  deriving DecidableEq

inductive Error where
  | handlerRequired
  | broker (cause : Broker.Error)
  | notRunning
  | consumerExists
  | consumerNotFound
  deriving DecidableEq

namespace Consumer

def subscribed (spec : ConsumerSpec) (root : ℕ) : Consumer where
  spec := spec
  root := root
  loop := .checking
  pool := Worker.Pool.started ⟨spec.concurrency, spec.prefetch⟩
  once := .fresh

/-- The submission has returned. -/
def answered (pool : Worker.Pool) (i : ℕ) : Bool :=
  match (pool.submissions[i]?).map Worker.Submission.stage with
  | some (.returned _) => true
  | _ => false

/-- A step of the dispatch loop up to the closing of `done`. `claimed` is the number of messages
a claim returned, none if it failed. -/
def dispatch (x : Consumer) (cancelled : Bool) (claimed : Option ℕ) (choice : Worker.Choice) :
    Consumer :=
  match x.loop with
  | .checking => { x with loop := if cancelled then .leaving else .claiming }
  | .claiming =>
    match claimed with
    | none => { x with loop := if cancelled then .leaving else .waiting }
    | some 0 => { x with loop := .waiting }
    | some n => if (n : ℤ) ≤ x.spec.prefetch then { x with loop := .handing n } else x
  | .waiting => { x with loop := .checking }
  | .handing 0 => { x with loop := .checking }
  | .handing (left + 1) =>
    { x with
      loop := .submitting x.pool.submissions.length left
      pool := x.pool.act (.submit .submit) }
  | .submitting i left =>
    let pool := (if cancelled then x.pool.act (.cancel i) else x.pool).act (.submission i choice)
    { x with loop := if answered pool i then .handing left else .submitting i left, pool }
  | .leaving | .ended => x

/-- A step of the function inside the `sync.Once`, before it returns. -/
def stop (x : Consumer) : Consumer :=
  match x.once with
  | .running .cancel => { x with once := .running .await }
  | .running .await => if x.loop.done then { x with once := .running .callPool } else x
  | .running .callPool => { x with once := .running .inPool, pool := x.pool.act .stop }
  | .running .inPool => { x with pool := x.pool.act (.stopper 0) }
  | .fresh | .finished => x

end Consumer

/-! ## The engine -/

namespace Host

def new : Host := ⟨[], none, [], [], [], 0, 0, false⟩

/-- The context of the consumer is done. -/
def cancelled (s : Host) (x : Consumer) : Bool :=
  x.once.cancelled || (s.roots[x.root]?).any Root.cancelled

def setConsumer (s : Host) (c : ℕ) (x : Consumer) : Host := { s with all := s.all.set c x }

def setCaller (s : Host) (t : ℕ) (y : Caller) : Host := { s with callers := s.callers.set t y }

/-- `if cancel != nil { cancel() }`. -/
def cancelCtx (s : Host) (root : Option ℕ) : Host :=
  { s with
    roots :=
      match root with
      | none => s.roots
      | some i => s.roots.modify i (fun r => { r with cancelled := true }) }

/-- `wg.Done()`. What sleeps in a `Wait` is woken when the counter is zero. -/
def done (s : Host) : Host :=
  { s with wg := s.wg - 1, epoch := if s.wg = 1 then s.epoch + 1 else s.epoch }

@[simp] theorem done_all (s : Host) : s.done.all = s.all := rfl

@[simp] theorem done_roots (s : Host) : s.done.roots = s.roots := rfl

@[simp] theorem done_wg (s : Host) : s.done.wg = s.wg - 1 := rfl

def start (s : Host) : Host :=
  match s.rootCtx with
  | some _ => s
  | none =>
    { s with
      roots := s.roots ++ [⟨false, true⟩]
      rootCtx := some s.roots.length
      wg := s.wg + 1 }

/-- `queue` is what the registry knows of the queue of the consumer. -/
def subscribe (s : Host) (handled : Bool) (queue : Except Broker.Error Broker.Queue)
    (spec : ConsumerSpec) : Except Error ℕ × Host :=
  match handled, queue with
  | false, _ => (.error .handlerRequired, s)
  | true, .error e => (.error (.broker e), s)
  | true, .ok queue =>
    match s.rootCtx with
    | none => (.error .notRunning, s)
    | some root =>
      if spec.name ∈ s.consumers.map Prod.fst then (.error .consumerExists, s)
      else
        (.ok s.all.length,
          { s with
            all := s.all ++ [Consumer.subscribed (spec.withDefaults queue.visibilityTimeout) root]
            consumers := (spec.name, s.all.length) :: s.consumers
            wg := s.wg + 1 })

def unsubscribe (s : Host) (name : String) : Except Error ℕ × Host :=
  match s.consumers.lookup name with
  | none => (.error .consumerNotFound, s)
  | some c =>
    (.ok s.callers.length,
      { s with
        consumers := s.consumers.filter (fun p => p.1 ≠ name)
        callers := s.callers ++ [⟨.unsubscribe, [c], [c], .enter, none⟩] })

/-- `Consumer.Stop`, called by whoever holds the consumer. -/
def stopConsumer (s : Host) (c : ℕ) : Host :=
  match s.all[c]? with
  | none => s
  | some _ => { s with callers := s.callers ++ [⟨.stop, [c], [c], .enter, none⟩] }

/-- The section of `Shutdown` under the lock; `order` is the order in which the map of the
consumers is walked. -/
def shutdown (s : Host) (order : List ℕ) : Host :=
  if order.Perm (s.consumers.map Prod.snd) then
    { s with
      consumers := []
      rootCtx := none
      callers := s.callers ++ [⟨.shutdown, order, order, .cancel s.rootCtx, none⟩] }
  else s

/-- A step of a call that has entered or is about to enter the `Stop` of its next consumer. -/
def stopNext (s : Host) (t : ℕ) (y : Caller) (c : ℕ) (rest : List ℕ) : Host :=
  match s.all[c]? with
  | none => s
  | some x =>
    match y.phase, x.once with
    | .enter, .fresh =>
      (s.setConsumer c { x with once := .running .cancel }).setCaller t { y with phase := .inside }
    | .enter, .finished => s.setCaller t { y with todo := rest }
    | .inside, .running _ =>
      if x.once = .running .inPool ∧ x.pool.stops[0]? = some .returned then
        (s.setConsumer c { x with once := .finished }).setCaller t
          { y with todo := rest, phase := .enter }
      else s.setConsumer c x.stop
    | _, _ => s

/-- A step of `wg.Wait()`. -/
def waitStep (s : Host) (t : ℕ) (y : Caller) : Host :=
  match y.phase with
  | .waitGroup =>
    s.setCaller t { y with phase := if s.wg = 0 then .returned else .parked s.epoch }
  | .parked epoch =>
    if epoch = s.epoch then s
    else if s.wg = 0 then s.setCaller t { y with phase := .returned }
    else { s with crashed := true }
  | _ => s

def advance (s : Host) (t : ℕ) : Host :=
  match s.callers[t]? with
  | none => s
  | some y =>
    match y.phase, y.todo with
    | .cancel root, _ => (s.cancelCtx root).setCaller t { y with phase := .enter }
    | .enter, [] =>
      s.setCaller t { y with phase := if y.kind = .shutdown then .waitGroup else .returned }
    | .enter, c :: rest => s.stopNext t y c rest
    | .inside, c :: rest => s.stopNext t y c rest
    | .waitGroup, _ | .parked _, _ => s.waitStep t y
    | _, _ => s

/-- The `select` at the end of `Shutdown`: `drained` is closed or the context is done. -/
def answer (s : Host) (t : ℕ) (outcome : Outcome) : Host :=
  match s.callers[t]? with
  | none => s
  | some y =>
    if y.kind = .shutdown ∧ y.outcome = none ∧ y.phase.cancelled ∧
        (outcome = .drained → y.phase = .returned) then
      s.setCaller t { y with outcome := some outcome }
    else s

def dispatch (s : Host) (c : ℕ) (claimed : Option ℕ) (choice : Worker.Choice) : Host :=
  match s.all[c]? with
  | none => s
  | some x =>
    if x.loop = .leaving then (s.setConsumer c { x with loop := .ended }).done
    else s.setConsumer c (x.dispatch (s.cancelled x) claimed choice)

def work (s : Host) (c k : ℕ) : Host :=
  match s.all[c]? with
  | none => s
  | some x => s.setConsumer c { x with pool := x.pool.act (.work k) }

/-- The maintenance loop ends when its context is done. -/
def maintain (s : Host) (i : ℕ) : Host :=
  match s.roots[i]? with
  | none => s
  | some r =>
    if r.cancelled ∧ r.maintaining then
      { s with roots := s.roots.set i { r with maintaining := false } }.done
    else s

end Host

inductive Label where
  | start
  | cancelParent (i : ℕ)
  | subscribe (handled : Bool) (queue : Except Broker.Error Broker.Queue) (spec : ConsumerSpec)
  | unsubscribe (name : String)
  | stopConsumer (c : ℕ)
  | shutdown (order : List ℕ)
  | advance (t : ℕ)
  | answer (t : ℕ) (outcome : Outcome)
  | dispatch (c : ℕ) (claimed : Option ℕ) (choice : Worker.Choice)
  | work (c k : ℕ)
  | maintain (i : ℕ)

def Host.step (s : Host) : Label → Host
  | .start => s.start
  | .cancelParent i => s.cancelCtx (some i)
  | .subscribe handled queue spec => (s.subscribe handled queue spec).2
  | .unsubscribe name => (s.unsubscribe name).2
  | .stopConsumer c => s.stopConsumer c
  | .shutdown order => s.shutdown order
  | .advance t => s.advance t
  | .answer t outcome => s.answer t outcome
  | .dispatch c claimed choice => s.dispatch c claimed choice
  | .work c k => s.work c k
  | .maintain i => s.maintain i

/-- Nothing happens after a panic. -/
def Host.act (s : Host) (a : Label) : Host := if s.crashed then s else s.step a

def Host.exec (a : Label) (s : Host) : Unit × Host := ((), s.act a)

/-- A new engine after some steps. -/
def ran (labels : List Label) : Host := after Host.exec Host.new labels

/-! ## What a step can do -/

namespace Host

/-- The steps, each with what it finds. -/
inductive Moves (s : Host) : Label → Host → Prop
  | rest (a : Label) : Moves s a s
  | start (hroot : s.rootCtx = none) :
      Moves s .start
        { s with
          roots := s.roots ++ [⟨false, true⟩], rootCtx := some s.roots.length, wg := s.wg + 1 }
  | cancelParent (i : ℕ) : Moves s (.cancelParent i) (s.cancelCtx (some i))
  | subscribe {queue : Broker.Queue} {spec : ConsumerSpec} {root : ℕ}
      (hroot : s.rootCtx = some root) (hnew : spec.name ∉ s.consumers.map Prod.fst) :
      Moves s (.subscribe true (.ok queue) spec)
        { s with
          all := s.all ++ [Consumer.subscribed (spec.withDefaults queue.visibilityTimeout) root]
          consumers := (spec.name, s.all.length) :: s.consumers
          wg := s.wg + 1 }
  | unsubscribe {name : String} {c : ℕ} (hc : s.consumers.lookup name = some c) :
      Moves s (.unsubscribe name)
        { s with
          consumers := s.consumers.filter (fun p => p.1 ≠ name)
          callers := s.callers ++ [⟨.unsubscribe, [c], [c], .enter, none⟩] }
  | stopConsumer {c : ℕ} {x : Consumer} (hx : s.all[c]? = some x) :
      Moves s (.stopConsumer c)
        { s with callers := s.callers ++ [⟨.stop, [c], [c], .enter, none⟩] }
  | shutdown {order : List ℕ} (hperm : order.Perm (s.consumers.map Prod.snd)) :
      Moves s (.shutdown order)
        { s with
          consumers := []
          rootCtx := none
          callers := s.callers ++ [⟨.shutdown, order, order, .cancel s.rootCtx, none⟩] }
  | cancel {t : ℕ} {y : Caller} {root : Option ℕ} (hy : s.callers[t]? = some y)
      (hphase : y.phase = .cancel root) :
      Moves s (.advance t) ((s.cancelCtx root).setCaller t { y with phase := .enter })
  | dismiss {t : ℕ} {y : Caller} (hy : s.callers[t]? = some y) (hphase : y.phase = .enter)
      (htodo : y.todo = []) :
      Moves s (.advance t)
        (s.setCaller t { y with phase := if y.kind = .shutdown then .waitGroup else .returned })
  | enter {t c : ℕ} {y : Caller} {rest : List ℕ} {x : Consumer} (hy : s.callers[t]? = some y)
      (hphase : y.phase = .enter) (htodo : y.todo = c :: rest) (hx : s.all[c]? = some x)
      (honce : x.once = .fresh) :
      Moves s (.advance t)
        ((s.setConsumer c { x with once := .running .cancel }).setCaller t
          { y with phase := .inside })
  | skip {t c : ℕ} {y : Caller} {rest : List ℕ} {x : Consumer} (hy : s.callers[t]? = some y)
      (hphase : y.phase = .enter) (htodo : y.todo = c :: rest) (hx : s.all[c]? = some x)
      (honce : x.once = .finished) :
      Moves s (.advance t) (s.setCaller t { y with todo := rest })
  | stop {t c : ℕ} {y : Caller} {rest : List ℕ} {x : Consumer} {stopping : Stopping}
      (hy : s.callers[t]? = some y) (hphase : y.phase = .inside) (htodo : y.todo = c :: rest)
      (hx : s.all[c]? = some x) (honce : x.once = .running stopping) :
      Moves s (.advance t) (s.setConsumer c x.stop)
  | finish {t c : ℕ} {y : Caller} {rest : List ℕ} {x : Consumer} (hy : s.callers[t]? = some y)
      (hphase : y.phase = .inside) (htodo : y.todo = c :: rest) (hx : s.all[c]? = some x)
      (honce : x.once = .running .inPool) (hstops : x.pool.stops[0]? = some .returned) :
      Moves s (.advance t)
        ((s.setConsumer c { x with once := .finished }).setCaller t
          { y with todo := rest, phase := .enter })
  | wait {t : ℕ} {y : Caller} (hy : s.callers[t]? = some y) (hphase : y.phase.waits = true)
      (hwg : s.wg = 0) : Moves s (.advance t) (s.setCaller t { y with phase := .returned })
  | park {t : ℕ} {y : Caller} (hy : s.callers[t]? = some y) (hphase : y.phase = .waitGroup)
      (hwg : s.wg ≠ 0) : Moves s (.advance t) (s.setCaller t { y with phase := .parked s.epoch })
  | crash {t epoch : ℕ} {y : Caller} (hy : s.callers[t]? = some y)
      (hphase : y.phase = .parked epoch) (hepoch : epoch ≠ s.epoch) (hwg : s.wg ≠ 0)
      (hrunning : s.crashed = false) : Moves s (.advance t) { s with crashed := true }
  | answer {t : ℕ} {y : Caller} {outcome : Outcome} (hy : s.callers[t]? = some y)
      (hdrained : outcome = .drained → y.phase = .returned) (hnone : y.outcome = none) :
      Moves s (.answer t outcome) (s.setCaller t { y with outcome := some outcome })
  | leave {c : ℕ} {claimed : Option ℕ} {choice : Worker.Choice} {x : Consumer}
      (hx : s.all[c]? = some x) (hloop : x.loop = .leaving) :
      Moves s (.dispatch c claimed choice) (s.setConsumer c { x with loop := .ended }).done
  | dispatch {c : ℕ} {claimed : Option ℕ} {choice : Worker.Choice} {x : Consumer}
      (hx : s.all[c]? = some x) :
      Moves s (.dispatch c claimed choice)
        (s.setConsumer c (x.dispatch (s.cancelled x) claimed choice))
  | work {c k : ℕ} {x : Consumer} (hx : s.all[c]? = some x) :
      Moves s (.work c k) (s.setConsumer c { x with pool := x.pool.act (.work k) })
  | maintain {i : ℕ} {r : Root} (hr : s.roots[i]? = some r) (hcancelled : r.cancelled = true)
      (hmaintaining : r.maintaining = true) :
      Moves s (.maintain i) { s with roots := s.roots.set i { r with maintaining := false } }.done

variable {s : Host}

theorem subscribe_moves (handled : Bool) (queue : Except Broker.Error Broker.Queue)
    (spec : ConsumerSpec) :
    Moves s (.subscribe handled queue spec) (s.subscribe handled queue spec).2 := by
  unfold subscribe
  split
  · exact .rest _
  · exact .rest _
  · rename_i queue
    cases hroot : s.rootCtx with
    | none => exact .rest _
    | some root =>
      dsimp only
      split_ifs with hnew
      · exact .rest _
      · have h : Moves s (.subscribe true (.ok queue) spec) _ := .subscribe hroot hnew
        rwa [hroot] at h

theorem stopNext_moves {t c : ℕ} {y : Caller} {rest : List ℕ} (hy : s.callers[t]? = some y)
    (htodo : y.todo = c :: rest) : Moves s (.advance t) (s.stopNext t y c rest) := by
  unfold stopNext
  cases hx : s.all[c]? with
  | none => exact .rest _
  | some x =>
    dsimp only
    split
    · rename_i hphase honce
      exact .enter hy hphase htodo hx honce
    · rename_i hphase honce
      exact .skip hy hphase htodo hx honce
    · rename_i hphase honce
      split_ifs with hr
      · exact .finish hy hphase htodo hx hr.1 hr.2
      · exact .stop hy hphase htodo hx honce
    · exact .rest _

theorem waitStep_moves {t : ℕ} {y : Caller} (hy : s.callers[t]? = some y)
    (hrunning : s.crashed = false) : Moves s (.advance t) (s.waitStep t y) := by
  unfold waitStep
  split
  · rename_i hphase
    split_ifs with hwg
    · exact .wait hy (by rw [hphase]; rfl) hwg
    · exact .park hy hphase hwg
  · rename_i hphase
    split_ifs with hepoch hwg
    · exact .rest _
    · exact .wait hy (by rw [hphase]; rfl) hwg
    · exact .crash hy hphase hepoch hwg hrunning
  · exact .rest _

theorem advance_moves (t : ℕ) (hrunning : s.crashed = false) :
    Moves s (.advance t) (s.advance t) := by
  unfold advance
  cases hy : s.callers[t]? with
  | none => exact .rest _
  | some y =>
    dsimp only
    split
    · rename_i hphase
      exact .cancel hy hphase
    · rename_i hphase htodo
      exact .dismiss hy hphase htodo
    · rename_i htodo
      exact stopNext_moves hy htodo
    · rename_i htodo
      exact stopNext_moves hy htodo
    · exact waitStep_moves hy hrunning
    · exact waitStep_moves hy hrunning
    · exact .rest _

theorem step_moves (a : Label) (hrunning : s.crashed = false) : Moves s a (s.step a) := by
  cases a with
  | start =>
    simp only [step, start]
    cases hroot : s.rootCtx with
    | none => exact .start hroot
    | some _ => exact .rest _
  | cancelParent i => exact .cancelParent i
  | subscribe handled queue spec => exact subscribe_moves handled queue spec
  | unsubscribe name =>
    simp only [step, unsubscribe]
    cases hc : s.consumers.lookup name with
    | none => exact .rest _
    | some c => exact .unsubscribe hc
  | stopConsumer c =>
    simp only [step, stopConsumer]
    cases hx : s.all[c]? with
    | none => exact .rest _
    | some x => exact .stopConsumer hx
  | shutdown order =>
    simp only [step, shutdown]
    split_ifs with hperm
    · exact .shutdown hperm
    · exact .rest _
  | advance t => exact advance_moves t hrunning
  | answer t outcome =>
    simp only [step, answer]
    cases hy : s.callers[t]? with
    | none => exact .rest _
    | some y =>
      dsimp only
      split_ifs with h
      · exact .answer hy h.2.2.2 h.2.1
      · exact .rest _
  | dispatch c claimed choice =>
    simp only [step, dispatch]
    cases hx : s.all[c]? with
    | none => exact .rest _
    | some x =>
      dsimp only
      split_ifs with hloop
      · exact .leave hx hloop
      · exact .dispatch hx
  | work c k =>
    simp only [step, work]
    cases hx : s.all[c]? with
    | none => exact .rest _
    | some x => exact .work hx
  | maintain i =>
    simp only [step, maintain]
    cases hr : s.roots[i]? with
    | none => exact .rest _
    | some r =>
      dsimp only
      split_ifs with h
      · exact .maintain hr h.1 h.2
      · exact .rest _

theorem act_moves (s : Host) (a : Label) : Moves s a (s.act a) := by
  unfold act
  split_ifs with hcrashed
  · exact .rest a
  · exact step_moves a (Bool.not_eq_true _ ▸ hcrashed)

end Host

end RabbitmqLite.Engine.Lifecycle
