import RabbitmqLite.Atomic.Machine
import RabbitmqLite.Collections.Tally

/-! # The worker pool

Any number of submissions, the workers and any number of calls of `Stop` share a
channel of tasks, the flag that marks the pool as stopped and two counters. One
step of a goroutine is one access to the flag or a counter or one operation on
the channel, and the steps may come in any order. A task is the number of the
submission that brings it.

A `select` that cannot go on is tried again later. A goroutine that the channel
parks in it is woken by the same events, so that both give the same outcomes.
-/

namespace RabbitmqLite.Worker
open Atomic Collections

structure PoolConfig where
  size : ℤ
  queueSize : ℤ
  deriving DecidableEq, Repr

def PoolConfig.withDefaults (c : PoolConfig) : PoolConfig where
  size := if c.size < 1 then 1 else c.size
  queueSize := if c.queueSize < 0 then 0 else c.queueSize

/-! ## Goroutines -/

/-- What a submission returns: nil, `ErrPoolStopped`, `ErrPoolSaturated` or the error of its
context. -/
inductive Answer where
  | accepted
  | stopped
  | saturated
  | cancelled
  deriving DecidableEq, Repr

inductive Kind where
  | submit
  | trySubmit
  deriving DecidableEq, Repr

/-- Where a submission stands. -/
inductive Stage where
  | checking
  | counting
  | selecting
  | withdrawing (a : Answer)
  | returned (a : Answer)
  | panicked
  deriving DecidableEq, Repr

structure Submission where
  kind : Kind
  cancelled : Bool
  stage : Stage
  deriving DecidableEq, Repr

/-- Where a worker stands; one that waits is parked in a receive. -/
inductive Runner where
  | idle
  | waiting
  | received (task : ℕ)
  | counted (task : ℕ)
  | running (task : ℕ)
  | ran
  | exited
  deriving DecidableEq, Repr

/-- Where a call of `Stop` stands. -/
inductive Stopper where
  | entering
  | marking
  | closing
  | leaving
  | draining
  | returned
  | panicked
  deriving DecidableEq, Repr

/-- The `sync.Once`, with the call that is inside. -/
inductive Once where
  | fresh
  | running (j : ℕ)
  | done
  deriving DecidableEq, Repr

/-- The last field is a record of the tasks that were executed. -/
structure Pool where
  capacity : ℕ
  tasks : List ℕ
  closed : Bool
  stopped : Bool
  queued : ℤ
  inFlight : ℤ
  once : Once
  submissions : List Submission
  workers : List Runner
  stops : List Stopper
  executed : List ℕ
  deriving DecidableEq, Repr

/-- A ready send is taken with a worker that waits, if there is one. -/
inductive Choice where
  | send (k : ℕ)
  | done
  deriving DecidableEq, Repr

inductive Act where
  | submit (kind : Kind)
  | cancel (i : ℕ)
  | submission (i : ℕ) (choice : Choice)
  | work (k : ℕ)
  | stop
  | stopper (j : ℕ)
  deriving DecidableEq, Repr

namespace Pool

/-- A new pool whose workers were started. -/
def started (config : PoolConfig) : Pool where
  capacity := config.withDefaults.queueSize.toNat
  tasks := []
  closed := false
  stopped := false
  queued := 0
  inFlight := 0
  once := .fresh
  submissions := []
  workers := List.replicate config.withDefaults.size.toNat .idle
  stops := []
  executed := []

def setStage (p : Pool) (i : ℕ) (s : Submission) (stage : Stage) : Pool :=
  { p with submissions := p.submissions.set i { s with stage := stage } }

def setWorker (p : Pool) (k : ℕ) (w : Runner) : Pool := { p with workers := p.workers.set k w }

def setStopper (p : Pool) (j : ℕ) (x : Stopper) : Pool := { p with stops := p.stops.set j x }

/-- The `select` of `Submit` and `TrySubmit`. A send on the closed channel is always ready, and
panics. -/
def select (p : Pool) (i : ℕ) (s : Submission) : Choice → Pool
  | .done =>
    if s.kind = .submit ∧ s.cancelled = true then p.setStage i s (.withdrawing .cancelled) else p
  | .send k =>
    if p.closed then p.setStage i s .panicked
    else if p.workers[k]? = some .waiting then
      (p.setStage i s (.returned .accepted)).setWorker k (.received i)
    else if .waiting ∈ p.workers then p
    else if p.tasks.length < p.capacity then
      { p.setStage i s (.returned .accepted) with tasks := p.tasks ++ [i] }
    else
      match s.kind with
      | .submit => p
      | .trySubmit => p.setStage i s (.withdrawing .saturated)

/-- One step of a call of `Submit` or `TrySubmit`. -/
def submission (p : Pool) (i : ℕ) (choice : Choice) : Pool :=
  match p.submissions[i]? with
  | none => p
  | some s =>
    match s.stage with
    | .checking =>
      if p.stopped then p.setStage i s (.returned .stopped) else p.setStage i s .counting
    | .counting => { p.setStage i s .selecting with queued := p.queued + 1 }
    | .selecting => p.select i s choice
    | .withdrawing a => { p.setStage i s (.returned a) with queued := p.queued - 1 }
    | .returned _ => p
    | .panicked => p

/-- The receive at the head of `run`'s loop: it ends when the closed channel is empty. -/
def receive (p : Pool) (k : ℕ) : Pool :=
  match p.tasks with
  | task :: tasks => { p.setWorker k (.received task) with tasks := tasks }
  | [] => if p.closed then p.setWorker k .exited else p.setWorker k .waiting

/-- One step of `run`. -/
def run (p : Pool) (k : ℕ) : Pool :=
  match p.workers[k]? with
  | none => p
  | some .idle => p.receive k
  | some .waiting => p.receive k
  | some (.received task) => { p.setWorker k (.counted task) with queued := p.queued - 1 }
  | some (.counted task) => { p.setWorker k (.running task) with inFlight := p.inFlight + 1 }
  | some (.running task) => { p.setWorker k .ran with executed := p.executed ++ [task] }
  | some .ran => { p.setWorker k .idle with inFlight := p.inFlight - 1 }
  | some .exited => p

/-- One step of `Stop`. Only the first call gets into the `sync.Once`; the others wait until it
has left. Closing a closed channel would panic. -/
def stop (p : Pool) (j : ℕ) : Pool :=
  match p.stops[j]? with
  | none => p
  | some .entering =>
    match p.once with
    | .fresh => { p.setStopper j .marking with once := .running j }
    | .running _ => p
    | .done => p.setStopper j .draining
  | some .marking => { p.setStopper j .closing with stopped := true }
  | some .closing =>
    if p.closed then p.setStopper j .panicked
    else { p.setStopper j .leaving with closed := true }
  | some .leaving => { p.setStopper j .draining with once := .done }
  | some .draining =>
    if p.workers.all (· = .exited) then p.setStopper j .returned else p
  | some .returned => p
  | some .panicked => p

def act (p : Pool) : Act → Pool
  | .submit kind => { p with submissions := p.submissions ++ [⟨kind, false, .checking⟩] }
  | .cancel i =>
    match p.submissions[i]? with
    | none => p
    | some s => { p with submissions := p.submissions.set i { s with cancelled := true } }
  | .submission i choice => p.submission i choice
  | .work k => p.run k
  | .stop => { p with stops := p.stops ++ [.entering] }
  | .stopper j => p.stop j

def exec (a : Act) (p : Pool) : Unit × Pool := ((), p.act a)

/-- The pool after a list of actions. -/
def ran (config : PoolConfig) (acts : List Act) : Pool := after exec (started config) acts

/-! ## What a step can do -/

/-- The moves of the goroutines, each with what it finds. -/
inductive Moves (p : Pool) : Act → Pool → Prop
  | rest (a : Act) : Moves p a p
  | arrive (kind : Kind) :
      Moves p (.submit kind) { p with submissions := p.submissions ++ [⟨kind, false, .checking⟩] }
  | cancel {i : ℕ} {s : Submission} (hs : p.submissions[i]? = some s) :
      Moves p (.cancel i) { p with submissions := p.submissions.set i { s with cancelled := true } }
  | refuse {i : ℕ} {c : Choice} {s : Submission} (hs : p.submissions[i]? = some s)
      (hstage : s.stage = .checking) (hstopped : p.stopped = true) :
      Moves p (.submission i c) (p.setStage i s (.returned .stopped))
  | pass {i : ℕ} {c : Choice} {s : Submission} (hs : p.submissions[i]? = some s)
      (hstage : s.stage = .checking) (hstopped : p.stopped = false) :
      Moves p (.submission i c) (p.setStage i s .counting)
  | count {i : ℕ} {c : Choice} {s : Submission} (hs : p.submissions[i]? = some s)
      (hstage : s.stage = .counting) :
      Moves p (.submission i c) { p.setStage i s .selecting with queued := p.queued + 1 }
  | panic {i k : ℕ} {s : Submission} (hs : p.submissions[i]? = some s)
      (hstage : s.stage = .selecting) (hclosed : p.closed = true) :
      Moves p (.submission i (.send k)) (p.setStage i s .panicked)
  | handOver {i k : ℕ} {s : Submission} (hs : p.submissions[i]? = some s)
      (hstage : s.stage = .selecting) (hclosed : p.closed = false)
      (hw : p.workers[k]? = some .waiting) :
      Moves p (.submission i (.send k))
        ((p.setStage i s (.returned .accepted)).setWorker k (.received i))
  | enqueue {i k : ℕ} {s : Submission} (hs : p.submissions[i]? = some s)
      (hstage : s.stage = .selecting) (hclosed : p.closed = false)
      (hroom : p.tasks.length < p.capacity) :
      Moves p (.submission i (.send k))
        { p.setStage i s (.returned .accepted) with tasks := p.tasks ++ [i] }
  | giveUp {i : ℕ} {c : Choice} {s : Submission} {a : Answer} (hs : p.submissions[i]? = some s)
      (hstage : s.stage = .selecting)
      (ha : a = .cancelled ∧ s.kind = .submit ∧ s.cancelled = true ∨
        a = .saturated ∧ s.kind = .trySubmit) :
      Moves p (.submission i c) (p.setStage i s (.withdrawing a))
  | withdraw {i : ℕ} {c : Choice} {s : Submission} {a : Answer}
      (hs : p.submissions[i]? = some s) (hstage : s.stage = .withdrawing a) :
      Moves p (.submission i c) { p.setStage i s (.returned a) with queued := p.queued - 1 }
  | receive {k task : ℕ} {w : Runner} {tasks : List ℕ} (hw : p.workers[k]? = some w)
      (hidle : w = .idle ∨ w = .waiting) (htasks : p.tasks = task :: tasks) :
      Moves p (.work k) { p.setWorker k (.received task) with tasks := tasks }
  | exit {k : ℕ} {w : Runner} (hw : p.workers[k]? = some w) (hidle : w = .idle ∨ w = .waiting)
      (htasks : p.tasks = []) (hclosed : p.closed = true) :
      Moves p (.work k) (p.setWorker k .exited)
  | park {k : ℕ} {w : Runner} (hw : p.workers[k]? = some w) (hidle : w = .idle ∨ w = .waiting) :
      Moves p (.work k) (p.setWorker k .waiting)
  | uncount {k task : ℕ} (hw : p.workers[k]? = some (.received task)) :
      Moves p (.work k) { p.setWorker k (.counted task) with queued := p.queued - 1 }
  | start {k task : ℕ} (hw : p.workers[k]? = some (.counted task)) :
      Moves p (.work k) { p.setWorker k (.running task) with inFlight := p.inFlight + 1 }
  | execute {k task : ℕ} (hw : p.workers[k]? = some (.running task)) :
      Moves p (.work k) { p.setWorker k .ran with executed := p.executed ++ [task] }
  | finish {k : ℕ} (hw : p.workers[k]? = some .ran) :
      Moves p (.work k) { p.setWorker k .idle with inFlight := p.inFlight - 1 }
  | ask : Moves p .stop { p with stops := p.stops ++ [.entering] }
  | enter {j : ℕ} (hx : p.stops[j]? = some .entering) (honce : p.once = .fresh) :
      Moves p (.stopper j) { p.setStopper j .marking with once := .running j }
  | skip {j : ℕ} (hx : p.stops[j]? = some .entering) (honce : p.once = .done) :
      Moves p (.stopper j) (p.setStopper j .draining)
  | mark {j : ℕ} (hx : p.stops[j]? = some .marking) :
      Moves p (.stopper j) { p.setStopper j .closing with stopped := true }
  | closeTwice {j : ℕ} (hx : p.stops[j]? = some .closing) (hclosed : p.closed = true) :
      Moves p (.stopper j) (p.setStopper j .panicked)
  | close {j : ℕ} (hx : p.stops[j]? = some .closing) (hclosed : p.closed = false) :
      Moves p (.stopper j) { p.setStopper j .leaving with closed := true }
  | leave {j : ℕ} (hx : p.stops[j]? = some .leaving) :
      Moves p (.stopper j) { p.setStopper j .draining with once := .done }
  | drained {j : ℕ} (hx : p.stops[j]? = some .draining)
      (hexited : ∀ w ∈ p.workers, w = .exited) :
      Moves p (.stopper j) (p.setStopper j .returned)

variable {p : Pool}

theorem select_moves {i : ℕ} {s : Submission} (hs : p.submissions[i]? = some s)
    (hstage : s.stage = .selecting) (choice : Choice) :
    Moves p (.submission i choice) (p.select i s choice) := by
  cases choice with
  | done =>
    rw [select]
    split_ifs with h
    · exact .giveUp hs hstage (Or.inl ⟨rfl, h⟩)
    · exact .rest _
  | send k =>
    rw [select]
    split_ifs with hclosed hw _ hroom
    · exact .panic hs hstage hclosed
    · exact .handOver hs hstage (Bool.eq_false_iff.mpr hclosed) hw
    · exact .rest _
    · exact .enqueue hs hstage (Bool.eq_false_iff.mpr hclosed) hroom
    · cases hkind : s.kind with
      | submit => exact .rest _
      | trySubmit => exact .giveUp hs hstage (Or.inr ⟨rfl, hkind⟩)

theorem submission_moves (i : ℕ) (choice : Choice) :
    Moves p (.submission i choice) (p.submission i choice) := by
  rw [submission]
  cases hs : p.submissions[i]? with
  | none => exact .rest _
  | some s =>
    dsimp only
    cases hstage : s.stage with
    | checking =>
      dsimp only
      split_ifs with hstopped
      · exact .refuse hs hstage hstopped
      · exact .pass hs hstage (Bool.eq_false_iff.mpr hstopped)
    | counting => exact .count hs hstage
    | selecting => exact select_moves hs hstage choice
    | withdrawing a => exact .withdraw hs hstage
    | returned a => exact .rest _
    | panicked => exact .rest _

theorem receive_moves {k : ℕ} {w : Runner} (hw : p.workers[k]? = some w)
    (hidle : w = .idle ∨ w = .waiting) : Moves p (.work k) (p.receive k) := by
  rw [receive]
  cases htasks : p.tasks with
  | cons task tasks => exact .receive hw hidle htasks
  | nil =>
    dsimp only
    split_ifs with hclosed
    · exact .exit hw hidle htasks hclosed
    · exact .park hw hidle

theorem run_moves (k : ℕ) : Moves p (.work k) (p.run k) := by
  rw [run]
  cases hw : p.workers[k]? with
  | none => exact .rest _
  | some w =>
    cases w with
    | idle => exact receive_moves hw (Or.inl rfl)
    | waiting => exact receive_moves hw (Or.inr rfl)
    | received task => exact .uncount hw
    | counted task => exact .start hw
    | running task => exact .execute hw
    | ran => exact .finish hw
    | exited => exact .rest _

theorem stop_moves (j : ℕ) : Moves p (.stopper j) (p.stop j) := by
  rw [stop]
  cases hx : p.stops[j]? with
  | none => exact .rest _
  | some x =>
    cases x with
    | entering =>
      dsimp only
      cases honce : p.once with
      | fresh => exact .enter hx honce
      | running _ => exact .rest _
      | done => exact .skip hx honce
    | marking => exact .mark hx
    | closing =>
      dsimp only
      split_ifs with hclosed
      · exact .closeTwice hx hclosed
      · exact .close hx (Bool.eq_false_iff.mpr hclosed)
    | leaving => exact .leave hx
    | draining =>
      dsimp only
      split_ifs with hexited
      · exact .drained hx (by simpa using hexited)
      · exact .rest _
    | returned => exact .rest _
    | panicked => exact .rest _

theorem act_moves (a : Act) : Moves p a (p.act a) := by
  cases a with
  | submit kind => exact .arrive kind
  | cancel i =>
    rw [act]
    cases hs : p.submissions[i]? with
    | none => exact .rest _
    | some s => exact .cancel hs
  | submission i choice => exact submission_moves i choice
  | work k => exact run_moves k
  | stop => exact .ask
  | stopper j => exact stop_moves j

end Pool
end RabbitmqLite.Worker
