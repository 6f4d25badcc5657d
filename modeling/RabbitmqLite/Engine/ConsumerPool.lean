import RabbitmqLite.Engine.Moves
import RabbitmqLite.Worker.Counters

/-! # The pool of a consumer is a worker pool

At run time a consumer carries its pool with it: the dispatch loop is the only
one to submit, one ticket after the other, and `Consumer.Stop` the only one to
stop. Whatever the loop, the workers and `Consumer.Stop` do, the worker pool can
do the same, with the ticket's number for the task. So what is true of every
worker pool is true of the pool of every consumer.
-/

namespace RabbitmqLite.Engine
open Collections Atomic

/-! ## The same places -/

/-- The place of a worker in the pool's own loop; `process` is its task. -/
def Worker.runner : Worker → Worker.Runner
  | .idle => .idle
  | .received t => .received t.2
  | .counted t => .counted t.2
  | .begun t | .handling t | .completing t _ => .running t.2
  | .exited => .exited

/-- The one call of the pool's `Stop`, which is made when the loop has ended. -/
def Stop.stops : Stop → List Worker.Stopper
  | .unasked | .awaiting => []
  | .marking => [.marking]
  | .closing => [.closing]
  | .draining => [.draining]
  | .returned => [.returned]

def Stop.once : Stop → Worker.Once
  | .unasked | .awaiting => .fresh
  | .marking | .closing => .running 0
  | .draining | .returned => .done

def Stop.closed : Stop → Bool
  | .draining | .returned => true
  | _ => false

/-- The tickets are the next ones, and the last of all. -/
structure Due (next : ℕ) (tickets : List Ticket) (claimed : ℕ) : Prop where
  numbers : tickets.map Prod.snd = List.range' next tickets.length
  last : next + tickets.length = claimed

/-- The submission of a ticket is the last one, and stands there. -/
structure Submitting (submissions : List Worker.Submission) (t : Ticket) (stage : Worker.Stage) :
    Prop where
  length : submissions.length = t.2 + 1
  stage : ∃ cancelled, submissions[t.2]? = some ⟨.submit, cancelled, stage⟩

/-- The submissions a loop has made: one for each ticket it is through with, and perhaps one that
is under way. -/
def Loop.Submitted (submissions : List Worker.Submission) (claimed : ℕ) : Loop → Prop
  | .stamp t rest | .record t rest _ | .submit t rest => Due submissions.length (t :: rest) claimed
  | .count t rest => Submitting submissions t .counting ∧ Due submissions.length rest claimed
  | .select t rest => Submitting submissions t .selecting ∧ Due submissions.length rest claimed
  | .uncount t rest =>
    Submitting submissions t (.withdrawing .cancelled) ∧ Due submissions.length rest claimed
  | .undo _ rest | .release _ rest _ => Due submissions.length rest claimed
  | .panicked => True
  | .start | .check | .lookup | .clock _ | .claim _ _ | .refused | .wait | .exited =>
    submissions.length = claimed

theorem due_nil {next claimed : ℕ} : Due next [] claimed ↔ next = claimed :=
  ⟨fun h => h.last, fun h => ⟨rfl, h⟩⟩

theorem due_cons {next claimed : ℕ} {t : Ticket} {rest : List Ticket} :
    Due next (t :: rest) claimed ↔ t.2 = next ∧ Due (next + 1) rest claimed := by
  constructor
  · rintro ⟨hnumbers, hlast⟩
    rw [List.map_cons, List.length_cons, List.range'_succ] at hnumbers
    obtain ⟨hfirst, hrest⟩ := List.cons.inj hnumbers
    exact ⟨hfirst, hrest, by rw [← hlast, List.length_cons]; omega⟩
  · rintro ⟨rfl, hnumbers, hlast⟩
    refine ⟨?_, by rw [← hlast, List.length_cons]; omega⟩
    rw [List.map_cons, List.length_cons, List.range'_succ, hnumbers]

theorem Loop.submitted_proceed {submissions : List Worker.Submission} {claimed : ℕ}
    {rest : List Ticket} :
    (Loop.proceed rest).Submitted submissions claimed ↔ Due submissions.length rest claimed := by
  cases rest with
  | nil => exact due_nil.symm
  | cons => exact Iff.rfl

theorem Loop.submitted_took {submissions : List Worker.Submission} {claimed : ℕ}
    {tickets : List Ticket} :
    (Loop.took tickets).Submitted submissions claimed ↔
      Due submissions.length tickets claimed := by
  cases tickets with
  | nil => exact due_nil.symm
  | cons => exact Iff.rfl

@[simp] theorem length_setStage (p : Worker.Pool) (i : ℕ) (s : Worker.Submission)
    (stage : Worker.Stage) : (p.setStage i s stage).submissions.length = p.submissions.length :=
  List.length_set

theorem Submitting.moved {p : Worker.Pool} {t : Ticket} (hlength : p.submissions.length = t.2 + 1)
    (cancelled : Bool) (stage stage' : Worker.Stage) :
    Submitting (p.setStage t.2 ⟨.submit, cancelled, stage⟩ stage').submissions t stage' where
  length := (length_setStage _ _ _ _).trans hlength
  stage := ⟨cancelled, by simp [Worker.Pool.setStage, hlength]⟩

/-- The consumer is where a pool is. -/
structure Pooled (c : Consumer) (p : Worker.Pool) : Prop where
  capacity : p.capacity = c.spec.prefetch.toNat
  tasks : p.tasks = c.pool.tasks.map Prod.snd
  closed : p.closed = c.pool.closed
  stopped : p.stopped = c.pool.stopped
  queued : p.queued = c.pool.queued
  inFlight : p.inFlight = c.pool.inFlight
  workers : p.workers = c.workers.map Worker.runner
  stops : p.stops = c.stopping.stops
  once : p.once = c.stopping.once
  closing : c.pool.closed = c.stopping.closed
  loop : c.loop.Submitted p.submissions c.claimed.length

/-- The pool can go on to where the consumer is. -/
def Follows (p : Worker.Pool) (c : Consumer) : Prop :=
  ∃ acts, Pooled c (after Worker.Pool.exec p acts)

theorem new_pooled {spec : ConsumerSpec} (hc : 1 ≤ spec.concurrency) :
    Pooled (Consumer.new spec) (Worker.Pool.started ⟨spec.concurrency, spec.prefetch⟩) where
  capacity := by
    simp only [Worker.Pool.started, Worker.PoolConfig.withDefaults, Consumer.new]
    split_ifs <;> omega
  tasks := rfl
  closed := rfl
  stopped := rfl
  queued := rfl
  inFlight := rfl
  workers := by
    have hsize : ¬ spec.concurrency < 1 := by omega
    simp [Worker.Pool.started, Worker.PoolConfig.withDefaults, Consumer.new, hsize, Worker.runner]
  stops := rfl
  once := rfl
  closing := rfl
  loop := rfl

namespace Pooled
variable {σ : Type} {host : Host σ} {engine : Engine} {c c' : Consumer} {w w' : σ}
  {p : Worker.Pool}

/-- A step that the pool does not see. -/
theorem unseen (h : Pooled c p) (hspec : c'.spec = c.spec) (hpool : c'.pool = c.pool)
    (hworkers : c'.workers.map Worker.runner = c.workers.map Worker.runner)
    (hstopping : c'.stopping = c.stopping)
    (hloop : c'.loop.Submitted p.submissions c'.claimed.length) : Follows p c' := by
  refine ⟨[], ?_⟩
  rw [after_nil]
  exact
    { capacity := hspec ▸ h.capacity
      tasks := hpool ▸ h.tasks
      closed := hpool ▸ h.closed
      stopped := hpool ▸ h.stopped
      queued := hpool ▸ h.queued
      inFlight := hpool ▸ h.inFlight
      workers := h.workers.trans hworkers.symm
      stops := hstopping ▸ h.stops
      once := hstopping ▸ h.once
      closing := by rw [hpool, hstopping]; exact h.closing
      loop := hloop }

theorem follows (acts : List Worker.Act) {p' : Worker.Pool}
    (hacts : after Worker.Pool.exec p acts = p') (h : Pooled c p') : Follows p c :=
  ⟨acts, hacts ▸ h⟩

/-! ## The dispatch loop -/

section DispatchLoop
variable {t : Ticket} {rest : List Ticket}

/-- A pool with the submission for the next ticket. -/
def arrived (p : Worker.Pool) : Worker.Pool := p.act (.submit .submit)

@[simp] theorem length_arrived (p : Worker.Pool) :
    (arrived p).submissions.length = p.submissions.length + 1 := by
  simp [arrived, Worker.Pool.act]

theorem arrived_next (ht : t.2 = p.submissions.length) :
    (arrived p).submissions[t.2]? = some ⟨.submit, false, .checking⟩ := by
  rw [ht]
  exact List.getElem?_concat_length

theorem rejected (h : Pooled c p) (hl : c.loop = .submit t rest)
    (hs : c.pool.stopped = true) : Follows p { c with loop := .undo t rest } := by
  obtain ⟨ht, hrest⟩ := due_cons.mp (hl ▸ h.loop :)
  have hstopped : (arrived p).stopped = true := h.stopped.trans hs
  have hact : (arrived p).act (.submission t.2 .done) =
      (arrived p).setStage t.2 ⟨.submit, false, .checking⟩ (.returned .stopped) := by
    simp [Worker.Pool.act, Worker.Pool.submission, arrived_next ht, hstopped]
  refine follows [.submit .submit, .submission t.2 .done] hact { h with loop := ?_ }
  simpa [Loop.Submitted] using hrest

theorem accepted (h : Pooled c p) (hl : c.loop = .submit t rest)
    (hs : c.pool.stopped = false) : Follows p { c with loop := .count t rest } := by
  obtain ⟨ht, hrest⟩ := due_cons.mp (hl ▸ h.loop :)
  have hstopped : (arrived p).stopped = false := h.stopped.trans hs
  have hact : (arrived p).act (.submission t.2 .done) =
      (arrived p).setStage t.2 ⟨.submit, false, .checking⟩ .counting := by
    simp [Worker.Pool.act, Worker.Pool.submission, arrived_next ht, hstopped]
  refine follows [.submit .submit, .submission t.2 .done] hact { h with loop := ⟨?_, ?_⟩ }
  · exact Submitting.moved (by rw [length_arrived, ht]) false _ _
  · simpa using hrest

theorem counted (h : Pooled c p) (hl : c.loop = .count t rest) :
    Follows p { c with
      loop := .select t rest
      pool := { c.pool with queued := c.pool.queued + 1 } } := by
  obtain ⟨⟨hlength, cancelled, hs⟩, hrest⟩ := (hl ▸ h.loop :)
  have hact : p.act (.submission t.2 .done) =
      { p.setStage t.2 ⟨.submit, cancelled, .counting⟩ .selecting with
        queued := p.queued + 1 } := by
    simp [Worker.Pool.act, Worker.Pool.submission, hs]
  refine follows [.submission t.2 .done] hact
    { h with
      queued := congrArg (· + 1) h.queued
      loop := ⟨Submitting.moved hlength cancelled _ _, ?_⟩ }
  simpa using hrest

theorem panicked (h : Pooled c p) (hl : c.loop = .select t rest)
    (hs : c.pool.closed = true) : Follows p { c with loop := .panicked } := by
  obtain ⟨⟨-, cancelled, hsub⟩, -⟩ := (hl ▸ h.loop :)
  have hact : p.act (.submission t.2 (.send 0)) =
      p.setStage t.2 ⟨.submit, cancelled, .selecting⟩ .panicked := by
    simp [Worker.Pool.act, Worker.Pool.submission, Worker.Pool.select, hsub, h.closed.trans hs]
  exact follows [.submission t.2 (.send 0)] hact { h with loop := trivial }

/-- No worker of a consumer is parked in a receive: an idle one takes the task from the channel. -/
theorem not_waiting (h : Pooled c p) : .waiting ∉ p.workers := by
  rw [h.workers, List.mem_map]
  rintro ⟨worker, -, hw⟩
  cases worker <;> cases hw

theorem sent (h : Pooled c p) (hl : c.loop = .select t rest)
    (hs : c.pool.closed = false) (hroom : (c.pool.tasks.length : ℤ) < c.spec.prefetch) :
    Follows p { c with
      loop := .proceed rest
      pool := { c.pool with tasks := c.pool.tasks ++ [t] } } := by
  obtain ⟨⟨-, cancelled, hsub⟩, hrest⟩ := (hl ▸ h.loop :)
  have hnone : p.workers[0]? ≠ some .waiting := fun hw => h.not_waiting (List.mem_of_getElem? hw)
  have hcapacity : p.tasks.length < p.capacity := by
    rw [h.tasks, List.length_map, h.capacity]
    omega
  have hact : p.act (.submission t.2 (.send 0)) =
      { p.setStage t.2 ⟨.submit, cancelled, .selecting⟩ (.returned .accepted) with
        tasks := p.tasks ++ [t.2] } := by
    simp [Worker.Pool.act, Worker.Pool.submission, Worker.Pool.select, hsub, h.closed.trans hs,
      hnone, h.not_waiting, hcapacity]
  refine follows [.submission t.2 (.send 0)] hact
    { h with
      tasks := by simp [h.tasks]
      loop := Loop.submitted_proceed.mpr ?_ }
  simpa using hrest

theorem withdrawn (h : Pooled c p) (hl : c.loop = .select t rest) :
    Follows p { c with loop := .uncount t rest } := by
  obtain ⟨⟨hlength, cancelled, hs⟩, hrest⟩ := (hl ▸ h.loop :)
  -- the context of the submission is that of the loop
  let q : Worker.Pool :=
    { p with submissions := p.submissions.set t.2 ⟨.submit, true, .selecting⟩ }
  have hcancel : p.act (.cancel t.2) = q := by simp [Worker.Pool.act, hs, q]
  have hset : q.submissions[t.2]? = some ⟨.submit, true, .selecting⟩ := by simp [q, hlength]
  have hact : (p.act (.cancel t.2)).act (.submission t.2 .done) =
      q.setStage t.2 ⟨.submit, true, .selecting⟩ (.withdrawing .cancelled) := by
    rw [hcancel]
    simp only [Worker.Pool.act, Worker.Pool.submission, hset, Worker.Pool.select, and_self, if_true]
  refine follows [.cancel t.2, .submission t.2 .done] hact
    { h with loop := ⟨Submitting.moved (by simp [q, hlength]) true _ _, ?_⟩ }
  simpa [q] using hrest

theorem uncounted (h : Pooled c p) (hl : c.loop = .uncount t rest) :
    Follows p { c with
      loop := .undo t rest
      pool := { c.pool with queued := c.pool.queued - 1 } } := by
  obtain ⟨⟨-, cancelled, hs⟩, hrest⟩ := (hl ▸ h.loop :)
  have hact : p.act (.submission t.2 .done) =
      { p.setStage t.2 ⟨.submit, cancelled, .withdrawing .cancelled⟩ (.returned .cancelled) with
        queued := p.queued - 1 } := by
    simp [Worker.Pool.act, Worker.Pool.submission, hs]
  refine follows [.submission t.2 .done] hact
    { h with queued := congrArg (· - 1) h.queued, loop := ?_ }
  simpa [Loop.Submitted] using hrest

theorem due_zipIdx (msgs : List Message) (n : ℕ) :
    Due n (msgs.zipIdx n) (n + msgs.length) where
  numbers := by rw [List.zipIdx_map_snd, List.length_zipIdx]
  last := by rw [List.length_zipIdx]

theorem loopStep (h : Pooled c p) (hs : LoopStep host c w c' w') : Follows p c' := by
  have hloop := h.loop
  cases hs with
  | accepted hl hstopped => exact h.accepted hl hstopped
  | rejected hl hstopped => exact h.rejected hl hstopped
  | counted hl => exact h.counted hl
  | panicked hl hclosed => exact h.panicked hl hclosed
  | sent hl hclosed hroom => exact h.sent hl hclosed hroom
  | withdrawn hl => exact h.withdrawn hl
  | uncounted hl => exact h.uncounted hl
  | claimed hl hp =>
    rw [hl] at hloop
    refine h.unseen rfl rfl rfl rfl (Loop.submitted_took.mpr ?_)
    rw [List.length_append, show p.submissions.length = c.claimed.length from hloop]
    exact due_zipIdx _ _
  | lost hl hp | gaveBack hl hp =>
    rw [hl] at hloop
    exact h.unseen rfl rfl rfl rfl (Loop.submitted_proceed.mpr hloop)
  | opened hl | left hl | entered hl | unknown hl | found hl | timed hl | unclaimed hl | gaveUp hl
  | rested hl | stamped hl | recorded hl | undone hl | ended hl | woken hl | ticked hl =>
    rw [hl] at hloop
    exact h.unseen rfl rfl rfl rfl hloop

end DispatchLoop

/-! ## The workers -/

theorem runner_of_worker (h : Pooled c p) {i : ℕ} {worker : Worker}
    (hw : c.workers[i]? = some worker) : p.workers[i]? = some worker.runner := by
  rw [h.workers, List.getElem?_map, hw]
  rfl

theorem workers_set (h : Pooled c p) (i : ℕ) (worker : Worker) :
    p.workers.set i worker.runner = (c.workers.set i worker).map Worker.runner := by
  rw [h.workers, List.map_set]

/-- The pool takes the whole of `process` for one step. -/
theorem runner_kept {i : ℕ} {worker worker' : Worker} (hw : c.workers[i]? = some worker)
    (heq : worker'.runner = worker.runner) :
    (c.workers.set i worker').map Worker.runner = c.workers.map Worker.runner := by
  rw [List.map_set]
  exact (set_eq_self_iff (by rw [List.getElem?_map, hw]; rfl)).mpr heq

theorem workerStep (h : Pooled c p) {i : ℕ} (hs : WorkerStep host engine c w i c' w') :
    Follows p c' := by
  cases hs with
  | @received t rest hw ht =>
    have hrun : p.act (.work i) =
        { p.setWorker i (.received t.2) with tasks := rest.map Prod.snd } := by
      simp [Worker.Pool.act, Worker.Pool.run, h.runner_of_worker hw, Worker.runner,
        Worker.Pool.receive, h.tasks, ht]
    exact follows [.work i] hrun { h with tasks := rfl, workers := h.workers_set i (.received t) }
  | exited hw ht hclosed =>
    have hrun : p.act (.work i) = p.setWorker i .exited := by
      simp [Worker.Pool.act, Worker.Pool.run, h.runner_of_worker hw, Worker.runner,
        Worker.Pool.receive, h.tasks, ht, h.closed, hclosed]
    exact follows [.work i] hrun { h with workers := h.workers_set i .exited }
  | @counted t hw =>
    have hrun : p.act (.work i) =
        { p.setWorker i (.counted t.2) with queued := p.queued - 1 } := by
      simp [Worker.Pool.act, Worker.Pool.run, h.runner_of_worker hw, Worker.runner]
    exact follows [.work i] hrun
      { h with
        queued := congrArg (· - 1) h.queued
        workers := h.workers_set i (.counted t) }
  | @begun t hw =>
    have hrun : p.act (.work i) =
        { p.setWorker i (.running t.2) with inFlight := p.inFlight + 1 } := by
      simp [Worker.Pool.act, Worker.Pool.run, h.runner_of_worker hw, Worker.runner]
    exact follows [.work i] hrun
      { h with
        inFlight := congrArg (· + 1) h.inFlight
        workers := h.workers_set i (.begun t) }
  | invoked hw hp | handled hw | stepped hw hf hp =>
    exact h.unseen rfl rfl (runner_kept hw rfl) rfl h.loop
  | @finished t thread hw hf =>
    -- the task returns, and then the worker counts it as done
    let q : Worker.Pool :=
      { p.setWorker i .ran with executed := p.executed ++ [t.2] }
    have hran : p.act (.work i) = q := by
      simp [Worker.Pool.act, Worker.Pool.run, h.runner_of_worker hw, Worker.runner, q]
    have hw' : q.workers[i]? = some .ran :=
      (getElem?_set_of_some (h.runner_of_worker hw) _ i).trans (if_pos rfl)
    have hrun : (p.act (.work i)).act (.work i) =
        { q with workers := q.workers.set i .idle, inFlight := p.inFlight - 1 } := by
      rw [hran]
      simp only [Worker.Pool.act, Worker.Pool.run, hw']
      rfl
    refine follows [.work i, .work i] hrun
      { h with
        inFlight := congrArg (· - 1) h.inFlight
        workers := ?_ }
    exact (List.set_set _).trans (h.workers_set i .idle)

/-! ## Stopping -/

theorem stopStep (h : Pooled c p) (hs : StopStep c c') : Follows p c' := by
  have hstops := h.stops
  have honce := h.once
  have hclosing := h.closing
  cases hs with
  | asked hstop =>
    rw [hstop] at hstops honce hclosing
    exact follows [] rfl { h with stops := hstops, once := honce, closing := hclosing }
  | awaited hstop =>
    rw [hstop] at hstops honce hclosing
    have hact : (p.act .stop).act (.stopper 0) =
        { p with stops := [.marking], once := .running 0 } := by
      simp [Worker.Pool.act, Worker.Pool.stop, Worker.Pool.setStopper, hstops, honce, Stop.stops,
        Stop.once]
    exact follows [.stop, .stopper 0] hact
      { h with stops := rfl, once := rfl, closing := hclosing }
  | marked hstop =>
    rw [hstop] at hstops honce hclosing
    have hact : p.act (.stopper 0) = { p with stops := [.closing], stopped := true } := by
      simp [Worker.Pool.act, Worker.Pool.stop, Worker.Pool.setStopper, hstops, Stop.stops]
    exact follows [.stopper 0] hact
      { h with stopped := rfl, stops := rfl, once := honce, closing := hclosing }
  | closed hstop =>
    rw [hstop] at hstops honce hclosing
    have hopen : p.closed = false := h.closed.trans hclosing
    have hact : (p.act (.stopper 0)).act (.stopper 0) =
        { p with stops := [.draining], once := .done, closed := true } := by
      simp [Worker.Pool.act, Worker.Pool.stop, Worker.Pool.setStopper, hstops, hopen, Stop.stops]
    exact follows [.stopper 0, .stopper 0] hact
      { h with closed := rfl, stops := rfl, once := rfl, closing := rfl }
  | drained hstop hw =>
    rw [hstop] at hstops honce hclosing
    have hexited : p.workers.all (· = .exited) = true := by
      rw [h.workers, List.all_map, List.all_eq_true]
      intro worker hmem
      rw [hw worker hmem]
      rfl
    have hact : p.act (.stopper 0) = { p with stops := [.returned] } := by
      simp only [Worker.Pool.act, Worker.Pool.stop, hstops, Stop.stops, List.getElem?_cons_zero,
        hexited, if_true, Worker.Pool.setStopper, List.set_cons_zero]
    exact follows [.stopper 0] hact
      { h with stops := rfl, once := honce, closing := hclosing }

theorem moveStep (h : Pooled c p) (hs : MoveStep host engine c w c' w') : Follows p c' := by
  cases hs with
  | none | unsubscribed | cancelled => exact h.unseen rfl rfl rfl rfl h.loop
  | stop hs => exact h.stopStep hs
  | loop hs => exact h.loopStep hs
  | worker hs => exact h.workerStep hs

end Pooled

/-! ## Runs -/

theorem MoveStep.spec_eq {σ : Type} {host : Host σ} {engine : Engine} {c c' : Consumer} {w w' : σ}
    (h : MoveStep host engine c w c' w') : c'.spec = c.spec := by
  cases h with
  | none | unsubscribed | cancelled => rfl
  | stop h | loop h | worker h => cases h <;> rfl

/-- However the goroutines of a runtime interleave, the pool of each of its consumers is in a
state that a worker pool of the same size and capacity can be in. -/
theorem Runtime.ran_pooled {σ : Type} (host : Host σ) (engine : Engine) (w : σ) (acts : List Act)
    {i : ℕ} {c : Consumer} (hc : (ran host engine w acts).consumers[i]? = some c) :
    ∃ steps, Pooled c (Worker.Pool.ran ⟨c.spec.concurrency, c.spec.prefetch⟩ steps) := by
  induction acts using List.reverseRecOn generalizing i c with
  | nil => cases hc
  | append_singleton acts a ih =>
    rw [ran, after_append, after_singleton] at hc
    rcases act_consumer host engine _ a hc with ⟨hold, -⟩ | ⟨old, m, -, hold, hs⟩ |
      ⟨spec, queue, -, -, rfl⟩
    · exact ih hold
    · obtain ⟨steps, hp⟩ := ih hold
      obtain ⟨more, hp'⟩ := hp.moveStep hs
      rw [hs.spec_eq]
      exact ⟨steps ++ more, by rwa [Worker.Pool.ran, after_append]⟩
    · exact ⟨[], new_pooled (withDefaults_pos spec queue.visibilityTimeout).1⟩

/-- What the status of a consumer shows is never negative, and no more tasks are in flight than
it has workers; when it has been stopped, none are. -/
theorem Runtime.ran_status {σ : Type} (host : Host σ) (engine : Engine) (w : σ) (acts : List Act)
    {i : ℕ} {c : Consumer} (hc : (ran host engine w acts).consumers[i]? = some c) :
    0 ≤ c.pool.queued ∧ 0 ≤ c.pool.inFlight ∧ c.pool.inFlight ≤ c.workers.length ∧
      (c.stopping = .returned → c.pool.inFlight = 0) := by
  obtain ⟨steps, hp⟩ := ran_pooled host engine w acts hc
  have hgauged := (Worker.Pool.ran_counted ⟨c.spec.concurrency, c.spec.prefetch⟩ steps).1.gauged
    (Worker.Pool.consistent_after (Worker.Pool.consistent_started _) steps)
  rw [← hp.queued, ← hp.inFlight, ← List.length_map Worker.runner, ← hp.workers]
  refine ⟨hgauged.queued_nonneg, hgauged.inFlight_nonneg, hgauged.inFlight_le, fun hstop => ?_⟩
  refine (hgauged.stopped ?_).1
  rw [hp.stops, hstop]
  exact List.mem_singleton_self _

end RabbitmqLite.Engine
