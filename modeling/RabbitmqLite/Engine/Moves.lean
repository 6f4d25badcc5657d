import RabbitmqLite.Collections.Tally
import RabbitmqLite.Engine.Runtime

/-! # What a consumer can do next

The steps of the dispatch loop, of a worker and of `Consumer.Stop`, listed by
where they start. Invariants of the runtime are case analyses of these lists.
-/

namespace RabbitmqLite.Engine
open Broker Collections Storage Atomic

variable {σ : Type}

/-- The request of a loop for its next batch. -/
def Consumer.request (c : Consumer) (lease : Duration) (now : Time) : ClaimRequest :=
  ⟨c.spec.queue, c.spec.name, c.spec.prefetch, lease, now⟩

/-- The effect that gives a message back. -/
def Ticket.giveBack (t : Ticket) (now : Time) : Effect :=
  .settle (.consumer t.1.attempts) t.1.attempts (.release t.1.id now)

/-! ## The dispatch loop -/

section Loop
variable (host : Host σ) (c : Consumer) (w : σ)

/-- The steps of the dispatch loop. -/
inductive LoopStep : Consumer → σ → Prop where
  | opened (h : c.loop = .start) :
      LoopStep { c with loop := .check } (host.openSignal c.spec.queue w)
  | left (h : c.loop = .check) (hc : c.cancelled = true) :
      LoopStep { c with loop := .exited } w
  | entered (h : c.loop = .check) (hc : c.cancelled = false) :
      LoopStep { c with loop := .lookup } w
  | unknown {e : Broker.Error} {w' : σ} (h : c.loop = .lookup)
      (hp : host.perform (.queue c.spec.queue) w = (.error e, w')) :
      LoopStep { c with loop := .refused } w'
  | found {queue : Queue} {w' : σ} (h : c.loop = .lookup)
      (hp : host.perform (.queue c.spec.queue) w = (.ok queue, w')) :
      LoopStep { c with loop := .clock queue.visibilityTimeout } w'
  | timed {lease : Duration} {now : Time} {w' : σ} (h : c.loop = .clock lease)
      (hp : host.perform .clock w = (now, w')) : LoopStep { c with loop := .claim lease now } w'
  | unclaimed {lease : Duration} {now : Time} {e : Storage.Error} {w' : σ}
      (h : c.loop = .claim lease now)
      (hp : host.perform (.store (.claim (c.request lease now))) w = (.error e, w')) :
      LoopStep { c with loop := .refused } w'
  | claimed {lease : Duration} {now : Time} {msgs : List Message} {w' : σ}
      (h : c.loop = .claim lease now)
      (hp : host.perform (.store (.claim (c.request lease now))) w = (.ok msgs, w')) :
      LoopStep { c with
        loop := .took (msgs.zipIdx c.claimed.length)
        claimed := c.claimed ++ msgs
        owing := c.owing && !msgs.isEmpty } w'
  | gaveUp (h : c.loop = .refused) (hc : c.cancelled = true) :
      LoopStep { c with loop := .exited } w
  | rested (h : c.loop = .refused) (hc : c.cancelled = false) :
      LoopStep { c with loop := .wait } w
  | stamped {t : Ticket} {rest : List Ticket} {now : Time} {w' : σ} (h : c.loop = .stamp t rest)
      (hp : host.perform .clock w = (now, w')) : LoopStep { c with loop := .record t rest now } w'
  | recorded {t : Ticket} {rest : List Ticket} {now : Time} {reply : Except Storage.Error Unit}
      {w' : σ} (h : c.loop = .record t rest now)
      (hp : host.perform (.store (.appendHistory
        ⟨t.1.id, t.1.queue, .queued, .processing, c.spec.name, "", now⟩)) w = (reply, w')) :
      LoopStep { c with loop := .submit t rest } w'
  | accepted {t : Ticket} {rest : List Ticket} (h : c.loop = .submit t rest)
      (hs : c.pool.stopped = false) : LoopStep { c with loop := .count t rest } w
  | rejected {t : Ticket} {rest : List Ticket} (h : c.loop = .submit t rest)
      (hs : c.pool.stopped = true) : LoopStep { c with loop := .undo t rest } w
  | counted {t : Ticket} {rest : List Ticket} (h : c.loop = .count t rest) :
      LoopStep { c with
        loop := .select t rest
        pool := { c.pool with queued := c.pool.queued + 1 } } w
  | panicked {t : Ticket} {rest : List Ticket} (h : c.loop = .select t rest)
      (hs : c.pool.closed = true) : LoopStep { c with loop := .panicked } w
  | sent {t : Ticket} {rest : List Ticket} (h : c.loop = .select t rest)
      (hs : c.pool.closed = false) (hroom : (c.pool.tasks.length : ℤ) < c.spec.prefetch) :
      LoopStep { c with
        loop := .proceed rest
        pool := { c.pool with tasks := c.pool.tasks ++ [t] } } w
  | withdrawn {t : Ticket} {rest : List Ticket} (h : c.loop = .select t rest)
      (hc : c.cancelled = true) : LoopStep { c with loop := .uncount t rest } w
  | uncounted {t : Ticket} {rest : List Ticket} (h : c.loop = .uncount t rest) :
      LoopStep { c with
        loop := .undo t rest
        pool := { c.pool with queued := c.pool.queued - 1 } } w
  | undone {t : Ticket} {rest : List Ticket} {now : Time} {w' : σ} (h : c.loop = .undo t rest)
      (hp : host.perform .clock w = (now, w')) : LoopStep { c with loop := .release t rest now } w'
  | lost {t : Ticket} {rest : List Ticket} {now : Time} {e : Storage.Error} {w' : σ}
      (h : c.loop = .release t rest now) (hp : host.perform (t.giveBack now) w = (.error e, w')) :
      LoopStep { c with loop := .proceed rest } w'
  | gaveBack {t : Ticket} {rest : List Ticket} {now : Time} {u : Unit} {w' : σ}
      (h : c.loop = .release t rest now) (hp : host.perform (t.giveBack now) w = (.ok u, w')) :
      LoopStep { c with loop := .proceed rest, released := c.released ++ [t], owing := true } w'
  | ended (h : c.loop = .wait) (hc : c.cancelled = true) :
      LoopStep { c with loop := .check } w
  | woken {w' : σ} (h : c.loop = .wait) (hw : host.takeSignal c.spec.queue w = some w') :
      LoopStep { c with loop := .check, owing := true } w'
  | ticked (h : c.loop = .wait) : LoopStep { c with loop := .check } w

theorem Consumer.dispatch_cases (branch : Branch) :
    c.dispatch host branch w = (c, w) ∨
      LoopStep host c w (c.dispatch host branch w).1 (c.dispatch host branch w).2 := by
  unfold dispatch
  split <;> rename_i h
  · exact Or.inr (.opened h)
  · split_ifs with hc
    · exact Or.inr (.left h hc)
    · exact Or.inr (.entered h (by simpa using hc))
  · split <;> rename_i hp
    · exact Or.inr (.unknown h hp)
    · exact Or.inr (.found h hp)
  · exact Or.inr (.timed h rfl)
  · split <;> rename_i hp
    · exact Or.inr (.unclaimed h hp)
    · exact Or.inr (.claimed h hp)
  · split_ifs with hc
    · exact Or.inr (.gaveUp h hc)
    · exact Or.inr (.rested h (by simpa using hc))
  · exact Or.inr (.stamped h rfl)
  · exact Or.inr (.recorded h rfl)
  · split_ifs with hs
    · exact Or.inr (.rejected h hs)
    · exact Or.inr (.accepted h (by simpa using hs))
  · exact Or.inr (.counted h)
  · split
    · split_ifs with hs hroom
      · exact Or.inr (.panicked h hs)
      · exact Or.inr (.sent h (by simpa using hs) hroom)
      · exact Or.inl rfl
    · split_ifs with hc
      · exact Or.inr (.withdrawn h hc)
      · exact Or.inl rfl
    · exact Or.inl rfl
  · exact Or.inr (.uncounted h)
  · exact Or.inr (.undone h rfl)
  · split <;> rename_i hp
    · exact Or.inr (.lost h hp)
    · exact Or.inr (.gaveBack h hp)
  · split
    · split_ifs with hc
      · exact Or.inr (.ended h hc)
      · exact Or.inl rfl
    · split <;> rename_i hw
      · exact Or.inr (.woken h hw)
      · exact Or.inl rfl
    · exact Or.inr (.ticked h)
    · exact Or.inl rfl
  · exact Or.inl rfl
  · exact Or.inl rfl

end Loop

/-! ## The workers -/

section Worker
variable (host : Host σ) (engine : Engine) (c : Consumer) (w : σ)

/-- The steps of the i-th worker. -/
inductive WorkerStep (i : ℕ) : Consumer → σ → Prop where
  | received {t : Ticket} {rest : List Ticket} (h : c.workers[i]? = some .idle)
      (ht : c.pool.tasks = t :: rest) :
      WorkerStep i ({ c with pool := { c.pool with tasks := rest } }.setWorker i (.received t)) w
  | exited (h : c.workers[i]? = some .idle) (ht : c.pool.tasks = []) (hs : c.pool.closed = true) :
      WorkerStep i (c.setWorker i .exited) w
  | counted {t : Ticket} (h : c.workers[i]? = some (.received t)) :
      WorkerStep i ({ c with
        pool := { c.pool with queued := c.pool.queued - 1 } }.setWorker i (.counted t)) w
  | begun {t : Ticket} (h : c.workers[i]? = some (.counted t)) :
      WorkerStep i ({ c with
        pool := { c.pool with inFlight := c.pool.inFlight + 1 }
        started := c.started ++ [t] }.setWorker i (.begun t)) w
  | invoked {t : Ticket} {now : Time} {w' : σ} (h : c.workers[i]? = some (.begun t))
      (hp : host.perform .clock w = (now, w')) :
      WorkerStep i ({ c with invoked := c.invoked ++ [t] }.setWorker i (.handling t)) w'
  | handled {t : Ticket} (h : c.workers[i]? = some (.handling t)) (outcome : Option Cause) :
      WorkerStep i (c.setWorker i
        (.completing t (.start (complete engine c.spec t.delivery outcome)))) w
  | stepped {t : Ticket} {thread thread' : EngineThread} {w' : σ}
      (h : c.workers[i]? = some (.completing t thread)) (hf : thread.finished = false)
      (hp : thread.step host.perform w = (thread', w')) :
      WorkerStep i (c.setWorker i (.completing t thread')) w'
  | finished {t : Ticket} {thread : EngineThread} (h : c.workers[i]? = some (.completing t thread))
      (hf : thread.finished = true) :
      WorkerStep i ({ c with
        pool := { c.pool with inFlight := c.pool.inFlight - 1 } }.setWorker i .idle) w

theorem Consumer.work_cases (i : ℕ) (outcome : Option Cause) :
    c.work host engine i outcome w = (c, w) ∨
      WorkerStep host engine c w i (c.work host engine i outcome w).1
        (c.work host engine i outcome w).2 := by
  unfold work
  split <;> rename_i h
  · exact Or.inl rfl
  · split <;> rename_i ht
    · exact Or.inr (.received h ht)
    · split_ifs with hs
      · exact Or.inr (.exited h ht hs)
      · exact Or.inl rfl
  · exact Or.inr (.counted h)
  · exact Or.inr (.begun h)
  · exact Or.inr (.invoked h rfl)
  · exact Or.inr (.handled h outcome)
  · split_ifs with hf
    · exact Or.inr (.finished h hf)
    · exact Or.inr (.stepped h (by simpa using hf) rfl)
  · exact Or.inl rfl

end Worker

/-! ## Stopping -/

/-- The steps of `Consumer.Stop`. -/
inductive StopStep (c : Consumer) : Consumer → Prop where
  | asked (h : c.stopping = .unasked) :
      StopStep c { c with stopping := .awaiting, cancelled := true }
  | awaited (h : c.stopping = .awaiting) (hl : c.loop = .exited) :
      StopStep c { c with stopping := .marking }
  | marked (h : c.stopping = .marking) :
      StopStep c { c with stopping := .closing, pool := { c.pool with stopped := true } }
  | closed (h : c.stopping = .closing) :
      StopStep c { c with stopping := .draining, pool := { c.pool with closed := true } }
  | drained (h : c.stopping = .draining) (hw : ∀ worker ∈ c.workers, worker = .exited) :
      StopStep c { c with stopping := .returned }

theorem Consumer.stop_cases (c : Consumer) : c.stop = c ∨ StopStep c c.stop := by
  unfold stop
  split <;> rename_i h
  · exact Or.inr (.asked h)
  · split_ifs with hl
    · exact Or.inr (.awaited h hl)
    · exact Or.inl rfl
  · exact Or.inr (.marked h)
  · exact Or.inr (.closed h)
  · split_ifs with hall
    · refine Or.inr (.drained h (fun worker hw => ?_))
      have hexited := List.all_eq_true.mp hall worker hw
      cases worker with
      | exited => rfl
      | _ => cases hexited
    · exact Or.inl rfl
  · exact Or.inl rfl

/-! ## The world and the other consumers -/

/-- How the world changes in one step: not at all, by an effect, or at a wake-up channel. -/
inductive HostStep (host : Host σ) (w : σ) : σ → Prop where
  | same : HostStep host w w
  | performed (e : Effect) : HostStep host w (host.perform e w).2
  | opened (queue : String) : HostStep host w (host.openSignal queue w)
  | taken {queue : String} {w' : σ} (h : host.takeSignal queue w = some w') : HostStep host w w'

section Step
variable {host : Host σ} {engine : Engine} {c c' : Consumer} {w w' : σ}

theorem HostStep.of_perform {e : Effect} {reply : e.Reply} (h : host.perform e w = (reply, w')) :
    HostStep host w w' := by
  have hw : (host.perform e w).2 = w' := by rw [h]
  exact hw ▸ .performed e

theorem hostStep_of_thread {t t' : EngineThread} (h : t.step host.perform w = (t', w')) :
    HostStep host w w' := by
  rcases t with ⟨past, u | ⟨e, next⟩⟩
  · obtain ⟨-, rfl⟩ := Prod.mk.inj h
    exact .same
  · obtain ⟨-, rfl⟩ := Prod.mk.inj h
    exact .performed e

theorem LoopStep.hostStep (h : LoopStep host c w c' w') : HostStep host w w' := by
  cases h with
  | opened => exact .opened _
  | woken _ hw => exact .taken hw
  | unknown _ hp | found _ hp | timed _ hp | unclaimed _ hp | claimed _ hp | stamped _ hp
  | recorded _ hp | undone _ hp | lost _ hp | gaveBack _ hp => exact .of_perform hp
  | left | entered | gaveUp | rested | accepted | rejected | counted | panicked | sent | withdrawn
  | uncounted | ended | ticked => exact .same

theorem WorkerStep.hostStep {i : ℕ} (h : WorkerStep host engine c w i c' w') :
    HostStep host w w' := by
  cases h with
  | invoked _ hp => exact .of_perform hp
  | stepped _ _ hp => exact hostStep_of_thread hp
  | received | exited | counted | begun | handled | finished => exact .same

end Step

theorem WorkerStep.loop_eq {host : Host σ} {engine : Engine} {c c' : Consumer} {w w' : σ} {i : ℕ}
    (h : WorkerStep host engine c w i c' w') : c'.loop = c.loop := by
  cases h <;> rfl

theorem StopStep.loop_eq {c c' : Consumer} (h : StopStep c c') : c'.loop = c.loop := by
  cases h <;> rfl

/-- The moves of a consumer, listed. -/
inductive MoveStep (host : Host σ) (engine : Engine) (c : Consumer) (w : σ) :
    Consumer → σ → Prop where
  | none : MoveStep host engine c w c w
  | unsubscribed : MoveStep host engine c w { c with registered := false } w
  | cancelled : MoveStep host engine c w { c with cancelled := true } w
  | stop {c' : Consumer} (h : StopStep c c') : MoveStep host engine c w c' w
  | loop {c' : Consumer} {w' : σ} (h : LoopStep host c w c' w') : MoveStep host engine c w c' w'
  | worker {i : ℕ} {c' : Consumer} {w' : σ} (h : WorkerStep host engine c w i c' w') :
      MoveStep host engine c w c' w'

section Runtime
variable (host : Host σ) (engine : Engine)

theorem Consumer.move_cases (m : Consumer.Move) (c : Consumer) (w : σ) :
    MoveStep host engine c w (c.move host engine m w).1 (c.move host engine m w).2 := by
  cases m with
  | unsubscribe => exact .unsubscribed
  | cancel => exact .cancelled
  | stop =>
    rcases c.stop_cases with h | h
    · rw [move, h]
      exact .none
    · exact .stop h
  | dispatch branch =>
    rcases c.dispatch_cases host w branch with h | h
    · rw [move, h]
      exact .none
    · exact .loop h
  | work i outcome =>
    rcases c.work_cases host engine w i outcome with h | h
    · rw [move, h]
      exact .none
    · exact .worker h

/-- Only dispatching moves the loop. -/
theorem Consumer.move_loop {m : Consumer.Move} (hm : ∀ branch, m ≠ .dispatch branch)
    (c : Consumer) (w : σ) : (c.move host engine m w).1.loop = c.loop := by
  cases m with
  | dispatch branch => exact absurd rfl (hm branch)
  | unsubscribe | cancel => rfl
  | stop => exact c.stop_cases.elim (congrArg Consumer.loop) StopStep.loop_eq
  | work i outcome =>
    exact (c.work_cases host engine w i outcome).elim
      (congrArg (fun x : Consumer × σ => x.1.loop)) WorkerStep.loop_eq

variable {host engine}

theorem MoveStep.hostStep {c c' : Consumer} {w w' : σ} (h : MoveStep host engine c w c' w') :
    HostStep host w w' := by
  cases h with
  | none | unsubscribed | cancelled | stop => exact .same
  | loop h => exact h.hostStep
  | worker h => exact h.hostStep

variable (host engine)

theorem Runtime.act_hostStep (r : Runtime σ) (a : Act) :
    HostStep host r.world (r.act host engine a).world := by
  cases a with
  | start op =>
    simp only [act]
    split_ifs <;> exact .same
  | step i =>
    simp only [act]
    cases r.threads[i]? with
    | none => exact .same
    | some t => exact hostStep_of_thread rfl
  | subscribe spec =>
    simp only [act, subscribe]
    split <;> rename_i hp
    · exact .of_perform hp
    · split_ifs <;> exact .of_perform hp
  | move i m =>
    simp only [act]
    cases r.consumers[i]? with
    | none => exact .same
    | some c => exact (Consumer.move_cases host engine m c r.world).hostStep

/-- Where a consumer comes from: it was there before, and has moved or not, or it has just been
subscribed. -/
theorem Runtime.act_consumer (r : Runtime σ) (a : Act) {i : ℕ} {c' : Consumer}
    (h : (r.act host engine a).consumers[i]? = some c') :
    (r.consumers[i]? = some c' ∧ ∀ m, a ≠ .move i m) ∨
      (∃ c m, a = .move i m ∧ r.consumers[i]? = some c ∧
        MoveStep host engine c r.world c' (r.act host engine a).world) ∨
      ∃ spec queue, a = .subscribe spec ∧
        (host.perform (.queue spec.queue) r.world).1 = .ok queue ∧
        c' = Consumer.new (spec.withDefaults queue.visibilityTimeout) := by
  cases a with
  | start op =>
    refine Or.inl ⟨?_, nofun⟩
    simp only [act] at h
    split_ifs at h <;> exact h
  | step j =>
    refine Or.inl ⟨?_, nofun⟩
    simp only [act] at h
    cases hj : r.threads[j]? with
    | none =>
      rw [hj] at h
      exact h
    | some t =>
      rw [hj] at h
      exact h
  | subscribe spec =>
    simp only [act, subscribe] at h
    split at h <;> rename_i hp
    · exact Or.inl ⟨h, nofun⟩
    · split_ifs at h with hname
      · exact Or.inl ⟨h, nofun⟩
      · rcases getElem?_snoc h with h | ⟨-, hc⟩
        · exact Or.inl ⟨h, nofun⟩
        · exact Or.inr (Or.inr ⟨spec, _, rfl, by rw [hp], hc⟩)
  | move j m =>
    cases hj : r.consumers[j]? with
    | none =>
      simp only [act, hj] at h
      refine Or.inl ⟨h, fun m' hm => ?_⟩
      obtain ⟨rfl, -⟩ := Act.move.inj hm
      rw [h] at hj
      cases hj
    | some c =>
      by_cases hij : i = j
      · subst hij
        refine Or.inr (Or.inl ⟨c, m, rfl, hj, ?_⟩)
        simp only [act, hj] at h ⊢
        rw [getElem?_set_of_some hj, if_pos rfl] at h
        rw [← Option.some.inj h]
        exact Consumer.move_cases host engine m c r.world
      · simp only [act, hj] at h
        rw [List.getElem?_set_ne (Ne.symm hij)] at h
        refine Or.inl ⟨h, fun m' hm => ?_⟩
        exact hij (Act.move.inj hm).1.symm

end Runtime

/-! ## What the workers do after the handler -/

/-- The threads of the workers that complete a delivery keep to a contract. -/
def Consumer.Completing (allows : Ticket → List EngineEvent → Effect → Prop) (c : Consumer) :
    Prop :=
  ∀ t thread, .completing t thread ∈ c.workers → thread.Keeps (allows t) (fun _ => True)

section Completing
variable {host : Host σ} {engine : Engine} {c c' : Consumer} {w w' : σ}
  {allows : Ticket → List EngineEvent → Effect → Prop}

theorem Consumer.Completing.set (h : c.Completing allows) {i : ℕ} {worker : Worker}
    (hw : ∀ t thread, worker = .completing t thread → thread.Keeps (allows t) (fun _ => True))
    (hset : c'.workers = c.workers.set i worker) : c'.Completing allows := by
  intro t thread hm
  rw [hset] at hm
  rcases List.mem_or_eq_of_mem_set hm with hm | heq
  · exact h t thread hm
  · exact hw t thread heq.symm

theorem Consumer.Completing.workerStep
    (hstart : ∀ (spec : ConsumerSpec) (t : Ticket) (outcome : Option Cause),
      (complete engine spec t.delivery outcome).Obeys (allows t) [] (fun _ _ => True))
    (h : c.Completing allows) {i : ℕ} (hs : WorkerStep host engine c w i c' w') :
    c'.Completing allows := by
  cases hs with
  | @handled t hi outcome =>
    refine h.set ?_ rfl
    rintro _ _ ⟨⟩
    exact hstart c.spec t outcome
  | @stepped t thread thread' w' hi hf hp =>
    refine h.set ?_ rfl
    rintro _ _ ⟨⟩
    rcases (h t thread (List.mem_of_getElem? hi)).step_cases host.perform w with
      ⟨hdone, -⟩ | ⟨e, -, -, -, -, hkeeps⟩
    · rw [hf] at hdone
      cases hdone
    · rw [hp] at hkeeps
      exact hkeeps
  | received | exited | counted | begun | invoked | finished => exact h.set (by simp) rfl

theorem Consumer.Completing.moveStep
    (hstart : ∀ (spec : ConsumerSpec) (t : Ticket) (outcome : Option Cause),
      (complete engine spec t.delivery outcome).Obeys (allows t) [] (fun _ _ => True))
    (h : c.Completing allows) (hs : MoveStep host engine c w c' w') : c'.Completing allows := by
  cases hs with
  | none | unsubscribed | cancelled => exact h
  | stop hs => cases hs <;> exact h
  | loop hs => cases hs <;> exact h
  | worker hs => exact h.workerStep hstart hs

theorem Consumer.new_completing (spec : ConsumerSpec) : (Consumer.new spec).Completing allows := by
  intro t thread hm
  cases (List.mem_replicate.mp hm).2

end Completing

/-- The settings of a consumer are at least one after the defaults are filled in. -/
theorem withDefaults_pos (spec : ConsumerSpec) (timeout : Duration) :
    1 ≤ (spec.withDefaults timeout).concurrency ∧ 1 ≤ (spec.withDefaults timeout).prefetch := by
  simp only [ConsumerSpec.withDefaults]
  split_ifs <;> omega

/-! ## The store behind the memory host -/

theorem memoryHost_perform {env : Env} {w w' : World} {e : Effect} {reply : e.Reply}
    (h : (memoryHost env).perform e w = (reply, w')) :
    (perform env e w).1 = reply ∧ (perform env e w).2 = w' := Prod.mk.inj h

@[simp] theorem openSignal_store (queue : String) (w : World) :
    (w.openSignal queue).store = w.store := by
  unfold World.openSignal
  split <;> rfl

theorem takeSignal_store {queue : String} {w w' : World} (h : w.takeSignal queue = some w') :
    w'.store = w.store := by
  unfold World.takeSignal at h
  split_ifs at h
  rw [← Option.some.inj h]

theorem HostStep.store_cases {env : Env} {w w' : World} (h : HostStep (memoryHost env) w w') :
    w'.store = w.store ∨ ∃ c, w'.store = (Memory.exec c w.store).2 := by
  cases h with
  | same => exact Or.inl rfl
  | performed e =>
    simp only [memoryHost, perform_store]
    cases e.call? with
    | none => exact Or.inl rfl
    | some c => exact Or.inr ⟨c, rfl⟩
  | opened queue => exact Or.inl (openSignal_store queue w)
  | taken h => exact Or.inl (takeSignal_store h)

end RabbitmqLite.Engine
