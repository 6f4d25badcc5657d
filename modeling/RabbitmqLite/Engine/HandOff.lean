import RabbitmqLite.Collections.Tally
import RabbitmqLite.Engine.Moves

/-! # Where the messages of a consumer are

A message that a claim has returned to a consumer goes through the batch of the
dispatch loop, the channel of the pool and the hands of a worker, until `process`
is called for it or it is given back. The steps of a consumer keep account of
this, as long as claims return batches of the size asked for and releases
succeed.
-/

namespace RabbitmqLite.Engine
open Broker Collections Storage Atomic

/-! ## Where the tickets are -/

/-- The tickets the loop has not handed off yet. -/
def Loop.batch : Loop → List Ticket
  | .stamp t rest | .record t rest _ | .submit t rest | .count t rest | .select t rest
  | .uncount t rest | .undo t rest | .release t rest _ => t :: rest
  | _ => []

/-- The loop has counted the ticket it is about to send. -/
def Loop.queued : Loop → ℕ
  | .select _ _ | .uncount _ _ => 1
  | _ => 0

namespace Worker

/-- The worker has a ticket and has not called `process` for it. -/
def limbo : Worker → List Ticket
  | .received t | .counted t => [t]
  | _ => []

def held : Worker → List Ticket
  | .received t | .counted t | .begun t | .handling t | .completing t _ => [t]
  | _ => []

/-- The worker has not counted its ticket out of the channel. -/
def queued : Worker → ℕ
  | .received _ => 1
  | _ => 0

/-- The worker is inside `process`. -/
def running : Worker → ℕ
  | .begun _ | .handling _ | .completing _ _ => 1
  | _ => 0

end Worker

namespace Consumer

/-- The tickets for which neither `process` was called nor the message released. -/
def limbo (c : Consumer) : List Ticket :=
  c.loop.batch ++ (c.pool.tasks ++ c.workers.flatMap Worker.limbo)

/-- All tickets in the hands of the consumer. -/
def held (c : Consumer) : List Ticket :=
  c.loop.batch ++ (c.pool.tasks ++ c.workers.flatMap Worker.held)

/-- How many calls of `process` are under way. -/
def running (c : Consumer) : ℕ := (c.workers.map Worker.running).sum

/-- The contract of the hand-off. -/
structure HandsOff (c : Consumer) : Prop where
  exactlyOnce : (c.started ++ (c.released ++ c.limbo)).Perm c.claimed.zipIdx
  stopped : c.stopping = .returned →
    c.limbo = [] ∧ c.held = [] ∧ c.pool.queued = 0 ∧ c.pool.inFlight = 0
  unpanicked : c.loop ≠ .panicked
  concurrency : (c.running : ℤ) ≤ c.spec.concurrency
  bounded : (c.held.length : ℤ) ≤ c.spec.concurrency + 2 * c.spec.prefetch

/-! ## The invariant of one consumer -/

/-- How far a consumer that is being stopped has got. -/
structure Ending (c : Consumer) : Prop where
  loop : c.stopping ≠ .unasked → c.stopping ≠ .awaiting → c.loop = .exited
  stopped : c.pool.stopped = true → c.loop = .exited
  closed : c.pool.closed = true → c.loop = .exited
  workers : .exited ∈ c.workers → c.pool.closed = true ∧ c.pool.tasks = []
  returned : c.stopping = .returned → ∀ worker ∈ c.workers, worker = .exited

structure Orderly (c : Consumer) : Prop where
  staffed : (c.workers.length : ℤ) = c.spec.concurrency
  manned : 0 < c.workers.length
  room : (c.pool.tasks.length : ℤ) ≤ c.spec.prefetch
  batch : (c.loop.batch.length : ℤ) ≤ c.spec.prefetch
  queued : c.pool.queued =
    ((c.pool.tasks.length + (c.workers.map Worker.queued).sum + c.loop.queued : ℕ) : ℤ)
  inFlight : c.pool.inFlight = (c.running : ℤ)
  exact : ∀ p, c.started.countP p + c.released.countP p + c.limbo.countP p =
    c.claimed.zipIdx.countP p
  ending : c.Ending
  unpanicked : c.loop ≠ .panicked

theorem countP_limbo (c : Consumer) (p : Ticket → Bool) :
    c.limbo.countP p = c.loop.batch.countP p + c.pool.tasks.countP p +
      (c.workers.flatMap Worker.limbo).countP p := by
  simp only [limbo, List.countP_append]
  omega

theorem running_le (c : Consumer) : c.running ≤ c.workers.length := by
  have hone : ∀ n ∈ c.workers.map Worker.running, n ≤ 1 := by
    intro n hn
    obtain ⟨worker, -, rfl⟩ := List.mem_map.mp hn
    cases worker <;> simp [Worker.running]
  simpa [running] using List.sum_le_card_nsmul _ 1 hone

theorem length_held_le (c : Consumer) :
    c.held.length ≤ c.loop.batch.length + c.pool.tasks.length + c.workers.length := by
  have hworkers : (c.workers.flatMap Worker.held).length ≤ c.workers.length := by
    apply length_flatMap_le
    intro worker
    cases worker <;> simp [Worker.held]
  simp only [held, List.length_append]
  omega

/-- After `Stop` has returned the consumer has nothing left. -/
theorem Orderly.empty {c : Consumer} (h : c.Orderly) (hr : c.stopping = .returned) :
    c.limbo = [] ∧ c.held = [] ∧ c.pool.queued = 0 ∧ c.pool.inFlight = 0 := by
  have hloop : c.loop = .exited := h.ending.loop (by simp [hr]) (by simp [hr])
  have hworkers : c.workers = List.replicate c.workers.length .exited :=
    List.eq_replicate_of_mem (h.ending.returned hr)
  have htasks : c.pool.tasks = [] := by
    refine (h.ending.workers ?_).2
    rw [hworkers]
    exact List.mem_replicate.mpr ⟨h.manned.ne', rfl⟩
  refine ⟨?_, ?_, ?_, ?_⟩
  · rw [limbo, hloop, htasks, hworkers]
    simp [Loop.batch, Worker.limbo]
  · rw [held, hloop, htasks, hworkers]
    simp [Loop.batch, Worker.held]
  · rw [h.queued, hloop, htasks, hworkers]
    simp [Loop.queued, Worker.queued]
  · rw [h.inFlight, running, hworkers]
    simp [Worker.running]

/-- What the parts of the invariant amount to. -/
theorem Orderly.handsOff {c : Consumer} (h : c.Orderly) : c.HandsOff where
  exactlyOnce := by
    rw [List.perm_iff_count]
    intro t
    have ht := h.exact (· == t)
    simp only [List.count, List.countP_append]
    omega
  stopped := h.empty
  unpanicked := h.unpanicked
  concurrency := by
    rw [← h.staffed]
    exact_mod_cast c.running_le
  bounded := by
    have hheld := c.length_held_le
    have hroom := h.room
    have hbatch := h.batch
    have hstaffed := h.staffed
    omega

/-! ## The dispatch loop -/

section Loop
variable {c : Consumer}

theorem Ending.loop_ne (h : c.Ending) (hl : c.loop ≠ .exited) :
    c.pool.stopped = false ∧ c.pool.closed = false ∧
      (c.stopping = .unasked ∨ c.stopping = .awaiting) := by
  refine ⟨?_, ?_, ?_⟩
  · by_contra hs
    exact hl (h.stopped (by simpa using hs))
  · by_contra hs
    exact hl (h.closed (by simpa using hs))
  · by_contra hs
    rw [not_or] at hs
    exact hl (h.loop hs.1 hs.2)

/-- Only the loop has moved, and what it sends, counts and records. -/
structure Alongside (c c' : Consumer) : Prop where
  spec : c'.spec = c.spec
  workers : c'.workers = c.workers
  stopping : c'.stopping = c.stopping
  stopped : c'.pool.stopped = c.pool.stopped
  closed : c'.pool.closed = c.pool.closed
  inFlight : c'.pool.inFlight = c.pool.inFlight
  started : c'.started = c.started

theorem Ending.turn (h : c.Ending) (hl : c.loop ≠ .exited) {c' : Consumer} (ha : c.Alongside c') :
    c'.Ending := by
  obtain ⟨hs, hc, hu⟩ := h.loop_ne hl
  refine ⟨fun h₁ h₂ => ?_, fun h₁ => ?_, fun h₁ => ?_, fun h₁ => ?_, fun h₁ => ?_⟩
  · rw [ha.stopping] at h₁ h₂
    exact (hu.elim h₁ h₂).elim
  · simp [ha.stopped, hs] at h₁
  · simp [ha.closed, hc] at h₁
  · rw [ha.workers] at h₁
    rw [(h.workers h₁).1] at hc
    cases hc
  · rw [ha.stopping] at h₁
    simp [h₁] at hu

/-- A step of the loop: what matters is where the tickets go. -/
theorem Orderly.advance (h : c.Orderly) (hl : c.loop ≠ .exited) {c' : Consumer}
    (ha : c.Alongside c') (hroom : (c'.pool.tasks.length : ℤ) ≤ c.spec.prefetch)
    (hbatch : (c'.loop.batch.length : ℤ) ≤ c.spec.prefetch)
    (hqueued : c'.pool.queued + c.pool.tasks.length + c.loop.queued =
      c.pool.queued + c'.pool.tasks.length + c'.loop.queued)
    (hexact : ∀ p, c'.released.countP p + c'.loop.batch.countP p + c'.pool.tasks.countP p +
      c.claimed.zipIdx.countP p = c'.claimed.zipIdx.countP p + c.released.countP p +
        c.loop.batch.countP p + c.pool.tasks.countP p)
    (hp : c'.loop ≠ .panicked) : c'.Orderly where
  staffed := by rw [ha.workers, ha.spec, h.staffed]
  manned := by rw [ha.workers]; exact h.manned
  room := by rw [ha.spec]; exact hroom
  batch := by rw [ha.spec]; exact hbatch
  queued := by
    have hold := h.queued
    rw [ha.workers]
    push_cast at hold ⊢
    omega
  inFlight := by rw [ha.inFlight, h.inFlight, running, running, ha.workers]
  exact := by
    intro p
    have hold := h.exact p
    have hnew := hexact p
    rw [countP_limbo] at hold ⊢
    rw [ha.started, ha.workers]
    omega
  ending := h.ending.turn hl ha
  unpanicked := hp

theorem LoopStep.alongside {σ : Type} {host : Host σ} {w w' : σ} {c' : Consumer}
    (hs : LoopStep host c w c' w') : c.Alongside c' := by
  cases hs <;> exact ⟨rfl, rfl, rfl, rfl, rfl, rfl, rfl⟩

theorem LoopStep.not_exited {σ : Type} {host : Host σ} {w w' : σ} {c' : Consumer}
    (hs : LoopStep host c w c' w') : c.loop ≠ .exited := by
  cases hs <;> simp [*]

@[simp] theorem batch_proceed (rest : List Ticket) : (Loop.proceed rest).batch = rest := by
  cases rest <;> rfl

@[simp] theorem batch_took (tickets : List Ticket) : (Loop.took tickets).batch = tickets := by
  cases tickets <;> rfl

@[simp] theorem queued_proceed (rest : List Ticket) : (Loop.proceed rest).queued = 0 := by
  cases rest <;> rfl

@[simp] theorem queued_took (tickets : List Ticket) : (Loop.took tickets).queued = 0 := by
  cases tickets <;> rfl

theorem proceed_ne_panicked (rest : List Ticket) : Loop.proceed rest ≠ .panicked := by
  cases rest <;> simp [Loop.proceed]

theorem took_ne_panicked (tickets : List Ticket) : Loop.took tickets ≠ .panicked := by
  cases tickets <;> simp [Loop.took]

/-- The loop keeps order if claims return batches of the size asked for and releases
succeed. -/
theorem Orderly.loopStep {σ : Type} {host : Host σ} {w w' : σ} {c' : Consumer} (h : c.Orderly)
    (hs : LoopStep host c w c' w')
    (hclaim : ∀ lease now msgs w', c.loop = .claim lease now →
      host.perform (.store (.claim (c.request lease now))) w = (.ok msgs, w') →
        (msgs.length : ℤ) ≤ c.spec.prefetch)
    (hrelease : ∀ t rest now e w', c.loop = .release t rest now →
      host.perform (t.giveBack now) w ≠ (.error e, w')) : c'.Orderly := by
  have ha := LoopStep.alongside hs
  have hl := LoopStep.not_exited hs
  have hroom := h.room
  have hbatch := h.batch
  cases hs with
  | claimed hat hp =>
    have hlen := hclaim _ _ _ _ hat hp
    have hb : c.loop.batch = [] := by rw [hat]; rfl
    have hq : c.loop.queued = 0 := by rw [hat]; rfl
    refine h.advance hl ha hroom (by simpa using hlen) ?_ (fun p => ?_) (took_ne_panicked _)
    · simp only [hq, queued_took]
    · simp only [hb, batch_took, List.zipIdx_append, List.countP_append, List.countP_nil, zero_add]
      omega
  | @counted t rest hat =>
    have hb : c.loop.batch = t :: rest := by rw [hat]; rfl
    have hq : c.loop.queued = 0 := by rw [hat]; rfl
    refine h.advance hl ha hroom (by rwa [hb] at hbatch) ?_ (fun p => ?_) (by simp)
    · rw [hq]
      simp only [Loop.queued]
      push_cast
      omega
    · rw [hb]
      simp only [Loop.batch]
      omega
  | @sent t rest hat hs hfree =>
    have hb : c.loop.batch = t :: rest := by rw [hat]; rfl
    have hq : c.loop.queued = 1 := by rw [hat]; rfl
    rw [hb, List.length_cons] at hbatch
    refine h.advance hl ha ?_ ?_ ?_ (fun p => ?_) (proceed_ne_panicked _)
    · simp only [List.length_append, List.length_singleton]
      push_cast
      omega
    · simp only [batch_proceed]
      push_cast at hbatch
      omega
    · simp only [hq, queued_proceed, List.length_append, List.length_singleton]
      push_cast
      omega
    · simp only [hb, batch_proceed, List.countP_append, List.countP_cons, List.countP_nil]
      omega
  | @uncounted t rest hat =>
    have hb : c.loop.batch = t :: rest := by rw [hat]; rfl
    have hq : c.loop.queued = 1 := by rw [hat]; rfl
    refine h.advance hl ha hroom (by rwa [hb] at hbatch) ?_ (fun p => ?_) (by simp)
    · rw [hq]
      simp only [Loop.queued]
      push_cast
      omega
    · rw [hb]
      simp only [Loop.batch]
      omega
  | @gaveBack t rest now u w' hat hp =>
    have hb : c.loop.batch = t :: rest := by rw [hat]; rfl
    have hq : c.loop.queued = 0 := by rw [hat]; rfl
    rw [hb, List.length_cons] at hbatch
    refine h.advance hl ha hroom ?_ ?_ (fun p => ?_) (proceed_ne_panicked _)
    · simp only [batch_proceed]
      push_cast at hbatch
      omega
    · simp only [hq, queued_proceed]
    · simp only [hb, batch_proceed, List.countP_append, List.countP_cons, List.countP_nil]
      omega
  | lost hat hp => exact absurd hp (hrelease _ _ _ _ _ hat)
  | panicked hat hs => exact absurd (h.ending.closed hs) hl
  | rejected hat hs => exact absurd (h.ending.stopped hs) hl
  | opened hat | left hat | entered hat | unknown hat | found hat | timed hat | unclaimed hat
  | gaveUp hat | rested hat | stamped hat | recorded hat | accepted hat | withdrawn hat
  | undone hat | ended hat | woken hat | ticked hat =>
    rw [hat] at hbatch
    refine h.advance hl ha hroom hbatch ?_ (fun p => ?_) (by simp)
    · simp only [hat, Loop.queued]
    · simp only [hat, Loop.batch]
      omega

end Loop

/-! ## The workers -/

section Worker
variable {c : Consumer} {i : ℕ} {worker : Worker}

/-- One worker has moved, and what it takes, counts and records. -/
structure Replaced (i : ℕ) (worker : Worker) (c c' : Consumer) : Prop where
  spec : c'.spec = c.spec
  loop : c'.loop = c.loop
  workers : c'.workers = c.workers.set i worker
  stopping : c'.stopping = c.stopping
  stopped : c'.pool.stopped = c.pool.stopped
  closed : c'.pool.closed = c.pool.closed
  claimed : c'.claimed = c.claimed
  released : c'.released = c.released

/-- A worker that leaves finds the channel closed and empty. -/
theorem Ending.replace (h : c.Ending) {c' : Consumer} (hr : Replaced i worker c c') {old : Worker}
    (hi : c.workers[i]? = some old) (hold : old ≠ .exited)
    (htasks : c'.pool.tasks = c.pool.tasks ∨ c.pool.tasks ≠ [])
    (hleft : worker = .exited → c.pool.closed = true ∧ c.pool.tasks = []) : c'.Ending where
  loop := by
    rw [hr.stopping, hr.loop]
    exact h.loop
  stopped := by
    rw [hr.stopped, hr.loop]
    exact h.stopped
  closed := by
    rw [hr.closed, hr.loop]
    exact h.closed
  workers := by
    intro he
    rw [hr.workers] at he
    have hempty : c.pool.closed = true ∧ c.pool.tasks = [] :=
      (List.mem_or_eq_of_mem_set he).elim h.workers (fun hw => hleft hw.symm)
    rw [hr.closed, htasks.resolve_right (fun hne => hne hempty.2)]
    exact hempty
  returned := by
    rw [hr.stopping]
    intro hret
    exact absurd (h.returned hret old (List.mem_of_getElem? hi)) hold

theorem Ending.workerStep {σ : Type} {host : Host σ} {engine : Engine} {w w' : σ} {c' : Consumer}
    (h : c.Ending) (hs : WorkerStep host engine c w i c' w') : c'.Ending := by
  cases hs with
  | received hi ht =>
    exact h.replace ⟨rfl, rfl, rfl, rfl, rfl, rfl, rfl, rfl⟩ hi (by simp) (Or.inr (by simp [ht]))
      (by simp)
  | exited hi ht hc =>
    exact h.replace ⟨rfl, rfl, rfl, rfl, rfl, rfl, rfl, rfl⟩ hi (by simp) (Or.inl rfl)
      (fun _ => ⟨hc, ht⟩)
  | counted hi | begun hi | invoked hi | handled hi | stepped hi | finished hi =>
    exact h.replace ⟨rfl, rfl, rfl, rfl, rfl, rfl, rfl, rfl⟩ hi (by simp) (Or.inl rfl) (by simp)

/-- A step of a worker: again what matters is where the tickets go. -/
theorem Orderly.replace (h : c.Orderly) {c' : Consumer} (hr : Replaced i worker c c')
    {old : Worker} (hi : c.workers[i]? = some old) (hending : c'.Ending)
    (hroom : c'.pool.tasks.length ≤ c.pool.tasks.length)
    (hqueued : c'.pool.queued + c.pool.tasks.length + old.queued =
      c.pool.queued + c'.pool.tasks.length + worker.queued)
    (hinFlight : c'.pool.inFlight + old.running = c.pool.inFlight + worker.running)
    (hexact : ∀ p, c'.started.countP p + c'.pool.tasks.countP p + worker.limbo.countP p =
      c.started.countP p + c.pool.tasks.countP p + old.limbo.countP p) : c'.Orderly where
  staffed := by rw [hr.workers, List.length_set, hr.spec, h.staffed]
  manned := by
    rw [hr.workers, List.length_set]
    exact h.manned
  room := by
    have hold := h.room
    rw [hr.spec]
    omega
  batch := by
    rw [hr.spec, hr.loop]
    exact h.batch
  queued := by
    have hold := h.queued
    have hset := sum_map_set Worker.queued hi worker
    rw [hr.workers, hr.loop, Nat.cast_add, Nat.cast_add]
    rw [Nat.cast_add, Nat.cast_add] at hold
    omega
  inFlight := by
    have hold := h.inFlight
    have hset := sum_map_set Worker.running hi worker
    rw [running] at hold ⊢
    rw [hr.workers]
    omega
  exact := by
    intro p
    have hold := h.exact p
    have hnew := hexact p
    have hset := countP_flatMap_set Worker.limbo p hi worker
    rw [countP_limbo] at hold ⊢
    rw [hr.workers, hr.loop, hr.claimed, hr.released]
    omega
  ending := hending
  unpanicked := by
    rw [hr.loop]
    exact h.unpanicked

theorem Orderly.workerStep {σ : Type} {host : Host σ} {engine : Engine} {w w' : σ} {c' : Consumer}
    (h : c.Orderly) (hs : WorkerStep host engine c w i c' w') : c'.Orderly := by
  have hending := h.ending.workerStep hs
  cases hs with
  | @received t rest hi ht =>
    refine h.replace ⟨rfl, rfl, rfl, rfl, rfl, rfl, rfl, rfl⟩ hi hending ?_ ?_ rfl (fun p => ?_)
    · simp [setWorker, ht]
    · simp only [setWorker, ht, Worker.queued, List.length_cons]
      push_cast
      omega
    · simp only [setWorker, ht, Worker.limbo, List.countP_cons, List.countP_nil]
      omega
  | @counted t hi =>
    refine h.replace ⟨rfl, rfl, rfl, rfl, rfl, rfl, rfl, rfl⟩ hi hending le_rfl ?_ rfl
      (fun p => rfl)
    simp only [setWorker, Worker.queued]
    push_cast
    omega
  | @begun t hi =>
    refine h.replace ⟨rfl, rfl, rfl, rfl, rfl, rfl, rfl, rfl⟩ hi hending le_rfl rfl ?_
      (fun p => ?_)
    · simp only [setWorker, Worker.running]
      push_cast
      omega
    · simp only [setWorker, Worker.limbo, List.countP_append, List.countP_nil]
      omega
  | finished hi hf =>
    refine h.replace ⟨rfl, rfl, rfl, rfl, rfl, rfl, rfl, rfl⟩ hi hending le_rfl rfl ?_
      (fun p => rfl)
    simp only [setWorker, Worker.running]
    push_cast
    omega
  | exited hi | invoked hi | handled hi | stepped hi =>
    exact h.replace ⟨rfl, rfl, rfl, rfl, rfl, rfl, rfl, rfl⟩ hi hending le_rfl rfl rfl
      (fun p => rfl)

end Worker

/-! ## Stopping -/

theorem Ending.stopStep {c c' : Consumer} (h : c.Ending) (hs : StopStep c c') : c'.Ending := by
  cases hs with
  | asked hat => exact ⟨fun _ h₂ => absurd rfl h₂, h.stopped, h.closed, h.workers, nofun⟩
  | awaited hat hl => exact ⟨fun _ _ => hl, h.stopped, h.closed, h.workers, nofun⟩
  | marked hat =>
    have hl : c.loop = .exited := h.loop (by simp [hat]) (by simp [hat])
    exact ⟨fun _ _ => hl, fun _ => hl, h.closed, h.workers, nofun⟩
  | closed hat =>
    have hl : c.loop = .exited := h.loop (by simp [hat]) (by simp [hat])
    exact ⟨fun _ _ => hl, h.stopped, fun _ => hl, fun hw => ⟨rfl, (h.workers hw).2⟩, nofun⟩
  | drained hat hw =>
    have hl : c.loop = .exited := h.loop (by simp [hat]) (by simp [hat])
    exact ⟨fun _ _ => hl, h.stopped, h.closed, h.workers, fun _ => hw⟩

/-- Registering and cancelling a consumer do not matter here. -/
theorem Ending.same {c c' : Consumer} (h : c.Ending) (hstopping : c'.stopping = c.stopping)
    (hloop : c'.loop = c.loop) (hpool : c'.pool = c.pool) (hworkers : c'.workers = c.workers) :
    c'.Ending := by
  refine ⟨?_, ?_, ?_, ?_, ?_⟩ <;> simp only [hstopping, hloop, hpool, hworkers]
  exacts [h.loop, h.stopped, h.closed, h.workers, h.returned]

theorem Ending.moveStep {σ : Type} {host : Host σ} {engine : Engine} {c c' : Consumer} {w w' : σ}
    (h : c.Ending) (hs : MoveStep host engine c w c' w') : c'.Ending := by
  cases hs with
  | none => exact h
  | unsubscribed | cancelled => exact h.same rfl rfl rfl rfl
  | stop hs => exact h.stopStep hs
  | loop hs => exact h.turn (LoopStep.not_exited hs) (LoopStep.alongside hs)
  | worker hs => exact h.workerStep hs

theorem Orderly.stopStep {c c' : Consumer} (h : c.Orderly) (hs : StopStep c c') : c'.Orderly := by
  have hending := h.ending.stopStep hs
  cases hs <;> exact ⟨h.staffed, h.manned, h.room, h.batch, h.queued, h.inFlight, h.exact, hending,
    h.unpanicked⟩

/-- A consumer starts with its workers idle and nothing in hand. -/
theorem new_orderly {spec : ConsumerSpec} (hc : 1 ≤ spec.concurrency) (hp : 1 ≤ spec.prefetch) :
    (Consumer.new spec).Orderly where
  staffed := by
    simp only [Consumer.new, List.length_replicate]
    omega
  manned := by
    simp only [Consumer.new, List.length_replicate]
    omega
  room := by
    simp only [Consumer.new, List.length_nil]
    omega
  batch := by
    simp only [Consumer.new, Loop.batch, List.length_nil]
    omega
  queued := by simp [Consumer.new, Worker.queued, Loop.queued]
  inFlight := by simp [Consumer.new, running, Worker.running]
  exact := by
    intro p
    have hidle : (List.replicate spec.concurrency.toNat Worker.idle).flatMap Worker.limbo = [] := by
      simp [Worker.limbo]
    simp [Consumer.new, limbo, Loop.batch, hidle]
  ending := by
    refine ⟨?_, ?_, ?_, ?_, ?_⟩ <;> simp [Consumer.new]
  unpanicked := by simp [Consumer.new]

end Consumer
end RabbitmqLite.Engine
