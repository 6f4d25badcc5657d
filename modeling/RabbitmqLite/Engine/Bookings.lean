import RabbitmqLite.Engine.ExactlyOnce
import RabbitmqLite.Engine.Filing
import RabbitmqLite.Engine.QueueLimit

/-! # The claims of a runtime

A claim is a delivery once `Pull` has returned the message or a handler was
called for it; before that it is on its way. Every step of a consumer or an
operation books the claims it makes, in the attempts of the message and among
the claims of the runtime, unless a dispatch loop withdraws a ticket. A message
is appended once, under an id nobody else has.
-/

namespace RabbitmqLite.Engine
open Broker Collections Storage Atomic
open Memory (Record RecordStep exec_recordStep)

/-! ## Deliveries -/

/-- The tickets the loop is about to send. A ticket it has withdrawn is given back instead. -/
def Loop.bound : Loop → List Ticket
  | .stamp t rest | .record t rest _ | .submit t rest | .count t rest | .select t rest => t :: rest
  | .uncount _ rest | .undo _ rest | .release _ rest _ => rest
  | _ => []

/-- The ticket that `Submit` is trying to send. -/
def Loop.offered : Loop → Option Ticket
  | .select t _ => some t
  | _ => none

/-- The worker has a ticket and has not called the handler for it. -/
def Worker.bound : Worker → List Ticket
  | .received t | .counted t | .begun t => [t]
  | _ => []

namespace Consumer

/-- The tickets on their way to the handler. -/
def bound (c : Consumer) : List Ticket :=
  c.loop.bound ++ (c.pool.tasks ++ c.workers.flatMap Worker.bound)

/-- How often a message was passed to the handler or is on its way to it. -/
def carried (c : Consumer) (id : String) : ℕ :=
  c.invoked.countP (Ticket.names id) + c.bound.countP (Ticket.names id)

theorem carried_eq (c : Consumer) (id : String) :
    c.carried id = c.invoked.countP (Ticket.names id) + c.loop.bound.countP (Ticket.names id) +
      c.pool.tasks.countP (Ticket.names id) +
        (c.workers.flatMap Worker.bound).countP (Ticket.names id) := by
  simp only [carried, bound, List.countP_append]
  omega

end Consumer

/-- The claims of `Pull`, which is the only operation with claims, once it has returned. -/
def pulled (id : String) (t : EngineThread) : ℕ := if t.finished then claims t.past id else 0

def pulling (id : String) (t : EngineThread) : ℕ := if t.finished then 0 else claims t.past id

namespace Runtime

/-- How often a message was returned by `Pull` or passed to a handler. -/
def delivered (r : Runtime World) (id : String) : ℕ :=
  (r.threads.map (pulled id)).sum +
    (r.consumers.map (fun c => c.invoked.countP (Ticket.names id))).sum

/-- How often a message is claimed and on its way. -/
def underway (r : Runtime World) (id : String) : ℕ :=
  (r.threads.map (pulling id)).sum +
    (r.consumers.map (fun c => c.bound.countP (Ticket.names id))).sum

def claimed (r : Runtime World) (id : String) : ℕ :=
  (r.threads.map (fun t => claims t.past id)).sum + (r.consumers.map (fun c => c.carried id)).sum

theorem delivered_add_underway (r : Runtime World) (id : String) :
    r.delivered id + r.underway id = r.claimed id := by
  have hthreads : (r.threads.map (fun t => claims t.past id)).sum =
      (r.threads.map (pulled id)).sum + (r.threads.map (pulling id)).sum := by
    rw [← List.sum_map_add]
    refine congrArg List.sum (List.map_congr_left (fun t _ => ?_))
    unfold pulled pulling
    split_ifs <;> simp
  simp only [delivered, underway, claimed, Consumer.carried, hthreads, List.sum_map_add]
  omega

end Runtime

/-! ## Attempts of one record -/

/-- A record is handed out a number of times, and its attempts count it. -/
structure Tally (n : ℕ) (r r' : Option Record) : Prop where
  attempts : ∀ e', r' = some e' → ∃ e, r = some e ∧ e'.msg.attempts = e.msg.attempts + n
  absent : r = none → n = 0
  dead : ∀ e', r' = some e' → e'.msg.state = .deadLettered → n = 0

theorem Tally.of_zero {r r' : Option Record}
    (h : ∀ e', r' = some e' → ∃ e, r = some e ∧ e'.msg.attempts = e.msg.attempts) :
    Tally 0 r r' := by
  refine ⟨fun e' he => ?_, fun _ => rfl, fun _ _ _ => rfl⟩
  obtain ⟨e, hr, ha⟩ := h e' he
  exact ⟨e, hr, by simp [ha]⟩

theorem Tally.refl (r : Option Record) : Tally 0 r r := .of_zero (fun e h => ⟨e, h, rfl⟩)

theorem Tally.of_eq {r r' : Option Record} (h : r' = r) : Tally 0 r r' := h ▸ .refl r'

theorem RecordStep.tally {c : Call} {reply : c.Reply} {id : String} {r r' : Option Record}
    (h : RecordStep c reply id r r') (hn : ((claimedIn c reply).map Message.id).Nodup)
    (happ : ∀ msgs, c = .append msgs → id ∉ msgs.map Message.id) :
    Tally (((claimedIn c reply).map Message.id).count id) r r' := by
  cases h with
  | same hh =>
    rw [count_of_not_handled hh]
    exact .refl r
  | append hm => exact absurd (List.mem_map_of_mem hm) (happ _ rfl)
  | claim hc hm hid =>
    have hone := List.count_eq_one_of_mem hn (List.mem_map.mpr ⟨_, hm, hid⟩)
    refine ⟨fun e' he => ⟨_, rfl, ?_⟩, by simp, fun e' he hd => ?_⟩
    · rw [← Option.some.inj he, hone]
      rfl
    · rw [← Option.some.inj he] at hd
      cases hd
  | acknowledge | scheduleRetry | release | markDeadLettered =>
    refine .of_zero (fun e' he => ⟨_, rfl, ?_⟩)
    rw [← Option.some.inj he]
    rfl
  | purge | deleteQueue => exact .of_zero (by simp)

/-- The effects of the runtime do not settle by claiming. -/
def Effect.settlesWithoutClaim : Effect → Prop
  | .settle _ _ (.claim _) => False
  | _ => True

theorem Conduct.settlesWithoutClaim {engine : Engine} {past : List EngineEvent} {e : Effect}
    (h : Conduct engine past e) : e.settlesWithoutClaim := by
  unfold Effect.settlesWithoutClaim
  split
  · exact h
  · trivial

theorem tally_perform (env : Env) {w : World} (hk : w.store.Keyed) {e : Effect} (id : String)
    (he : e.settlesWithoutClaim)
    (happ : ∀ msgs, e.call? = some (.append msgs) → id ∉ msgs.map Message.id) :
    Tally (((claimedBy ⟨e, (perform env e w).1⟩).map Message.id).count id)
      (w.store.messages.lookup id) ((perform env e w).2.store.messages.lookup id) := by
  cases e with
  | store c =>
    exact RecordStep.tally (exec_recordStep hk c id) (claimedIn_nodup hk c)
      (fun msgs hc => happ msgs (congrArg some hc))
  | settle party attempt c =>
    have hstep := RecordStep.tally (exec_recordStep hk c id) (claimedIn_nodup hk c)
      (fun msgs hc => happ msgs (congrArg some hc))
    have hnone : claimedIn c (Memory.exec c w.store).1 = [] := by
      cases c with
      | claim req => exact he.elim
      | _ => rfl
    rw [hnone] at hstep
    exact hstep
  | submit | receive =>
    apply Tally.of_eq
    rw [perform_store]
    rfl
  | _ => exact .refl _

/-- An effect of a consumer, which appends nothing. -/
theorem tally_of_perform {env : Env} {w w' : World} (hk : w.store.Keyed) {e : Effect}
    {reply : e.Reply} (hp : (memoryHost env).perform e w = (reply, w')) (id : String)
    (he : e.settlesWithoutClaim) (happ : ∀ msgs, e.call? ≠ some (.append msgs)) :
    Tally (((claimedBy ⟨e, reply⟩).map Message.id).count id) (w.store.messages.lookup id)
      (w'.store.messages.lookup id) := by
  obtain ⟨rfl, rfl⟩ := memoryHost_perform hp
  exact tally_perform env hk id he (fun msgs hc => absurd hc (happ msgs))

/-! ## The tickets of a consumer -/

namespace Consumer
variable {env : Env} {engine : Engine} {c c' : Consumer} {w w' : World}

@[simp] theorem bound_proceed (rest : List Ticket) : (Loop.proceed rest).bound = rest := by
  cases rest <;> rfl

@[simp] theorem bound_took (tickets : List Ticket) : (Loop.took tickets).bound = tickets := by
  cases tickets <;> rfl

/-- A step books a number of claims: the store counts them as attempts, and the consumer
carries them. -/
def Books (id : String) (c : Consumer) (w : World) (c' : Consumer) (w' : World) : Prop :=
  ∃ n, Tally n (w.store.messages.lookup id) (w'.store.messages.lookup id) ∧
    c'.carried id = c.carried id + n

/-- The loop withdraws a ticket. -/
def Withdraws (id : String) (c : Consumer) (w : World) (c' : Consumer) (w' : World) : Prop :=
  ∃ t rest, c.loop = .select t rest ∧ c'.loop = .uncount t rest ∧ w' = w ∧
    c'.carried id + [t].countP (Ticket.names id) = c.carried id

/-- A step of the loop that takes nothing in. -/
theorem Books.still {id : String} (ht : Tally 0 (w.store.messages.lookup id)
    (w'.store.messages.lookup id)) (hc : c'.carried id = c.carried id) : Books id c w c' w' :=
  ⟨0, ht, hc⟩

theorem LoopStep.books (h : c.Ending) (hk : w.store.Keyed) (id : String)
    (hs : LoopStep (memoryHost env) c w c' w') : Books id c w c' w' ∨ Withdraws id c w c' w' := by
  cases hs with
  | claimed hat hp =>
    refine Or.inl ⟨_, tally_of_perform hk hp id trivial (by simp [Effect.call?]), ?_⟩
    have hb : c.loop.bound = [] := by rw [hat]; rfl
    simp only [carried_eq, hb, bound_took, countP_zipIdx, List.countP_nil, claimedBy, claimedIn]
    omega
  | @sent t rest hat =>
    refine Or.inl (.still (.refl _) ?_)
    have hb : c.loop.bound = t :: rest := by rw [hat]; rfl
    simp only [carried_eq, hb, bound_proceed, List.countP_append, List.countP_cons, List.countP_nil]
    omega
  | @withdrawn t rest hat hc =>
    refine Or.inr ⟨t, rest, hat, rfl, rfl, ?_⟩
    simp only [carried_eq, hat, Loop.bound, List.countP_cons, List.countP_nil]
    omega
  | rejected hat hs => exact absurd (h.stopped hs) (by simp [hat])
  | panicked hat hs => exact absurd (h.closed hs) (by simp [hat])
  | @lost t rest now reply w' hat hp | @gaveBack t rest now reply w' hat hp =>
    have happ : ∀ msgs, (t.giveBack now).call? ≠ some (.append msgs) := by
      simp [Ticket.giveBack, Effect.call?]
    refine Or.inl (.still (tally_of_perform hk hp id trivial happ) ?_)
    have hb : c.loop.bound = rest := by rw [hat]; rfl
    simp only [carried_eq, hb, bound_proceed]
  | unknown hat hp | found hat hp | timed hat hp | stamped hat hp | undone hat hp
  | unclaimed hat hp | recorded hat hp =>
    refine Or.inl (.still (tally_of_perform hk hp id trivial (by simp [Effect.call?])) ?_)
    simp only [carried_eq, hat, Loop.bound]
  | opened hat =>
    refine Or.inl (.still (.of_eq (by rw [memoryHost, openSignal_store])) ?_)
    simp only [carried_eq, hat, Loop.bound]
  | woken hat hw =>
    refine Or.inl (.still (.of_eq (by rw [takeSignal_store hw])) ?_)
    simp only [carried_eq, hat, Loop.bound]
  | left hat | entered hat | gaveUp hat | rested hat | accepted hat | counted hat
  | uncounted hat | ended hat | ticked hat =>
    refine Or.inl (.still (.refl _) ?_)
    simp only [carried_eq, hat, Loop.bound]

/-- A worker passes its ticket on. -/
theorem Books.replace {id : String} {i : ℕ} {old worker : Worker} (hr : Replaced i worker c c')
    (hi : c.workers[i]? = some old)
    (hcount : ∀ p, c'.invoked.countP p + c'.pool.tasks.countP p + worker.bound.countP p =
      c.invoked.countP p + c.pool.tasks.countP p + old.bound.countP p)
    (ht : Tally 0 (w.store.messages.lookup id) (w'.store.messages.lookup id)) :
    Books id c w c' w' := by
  refine .still ht ?_
  have hset := countP_flatMap_set Worker.bound (Ticket.names id) hi worker
  have hsame := hcount (Ticket.names id)
  rw [carried_eq, carried_eq, hr.loop, hr.workers]
  omega

/-- What a worker does after the handler leaves all attempts alone. -/
theorem tally_of_completes {id name : String} {past : List EngineEvent} {e : Effect}
    (hk : w.store.Keyed) (he : Completes name past e) :
    Tally 0 (w.store.messages.lookup id) ((perform env e w).2.store.messages.lookup id) := by
  have htally : e.settlesWithoutClaim → (∀ msgs, e.call? ≠ some (.append msgs)) →
      claimedBy ⟨e, (perform env e w).1⟩ = [] →
      Tally 0 (w.store.messages.lookup id) ((perform env e w).2.store.messages.lookup id) := by
    intro hs ha hnone
    have ht := tally_perform env hk id hs (fun msgs hc => absurd hc (ha msgs))
    rwa [hnone] at ht
  cases e with
  | store c =>
    cases c with
    | history | appendHistory | saveDeadLetter => exact htally trivial (by simp [Effect.call?]) rfl
    | _ => exact he.elim
  | settle party attempt c =>
    cases c with
    | acknowledge | scheduleRetry | markDeadLettered =>
      exact htally trivial (by simp [Effect.call?]) rfl
    | _ => exact he.1.elim
  | clock | newID | float64 => exact .refl _
  | _ => exact he.elim

theorem WorkerStep.books (h : c.Completing (fun t => Completes t.1.id)) (hk : w.store.Keyed)
    (id : String) {i : ℕ} (hs : WorkerStep (memoryHost env) engine c w i c' w') :
    Books id c w c' w' := by
  cases hs with
  | received hi ht =>
    refine .replace ⟨rfl, rfl, rfl, rfl, rfl, rfl, rfl, rfl⟩ hi (fun p => ?_) (.refl _)
    simp only [setWorker, ht, Worker.bound, List.countP_cons, List.countP_nil]
    omega
  | invoked hi hp =>
    refine .replace ⟨rfl, rfl, rfl, rfl, rfl, rfl, rfl, rfl⟩ hi (fun p => ?_)
      (tally_of_perform hk hp id trivial (by simp [Effect.call?]))
    simp only [setWorker, Worker.bound, List.countP_append, List.countP_cons, List.countP_nil]
    omega
  | @stepped t thread thread' w' hi hf hp =>
    refine .replace ⟨rfl, rfl, rfl, rfl, rfl, rfl, rfl, rfl⟩ hi (fun p => rfl) ?_
    rcases (h t thread (List.mem_of_getElem? hi)).step_cases (memoryHost env).perform w with
      ⟨hdone, -⟩ | ⟨e, -, hallowed, -, hworld, -⟩
    · rw [hf] at hdone
      cases hdone
    · rw [hp] at hworld
      rw [show w' = _ from hworld]
      exact tally_of_completes hk hallowed
  | exited hi | counted hi | begun hi | handled hi | finished hi =>
    exact .replace ⟨rfl, rfl, rfl, rfl, rfl, rfl, rfl, rfl⟩ hi (fun p => rfl) (.refl _)

/-- A move books its claims, or it withdraws a ticket. -/
theorem MoveStep.books (hending : c.Ending) (hcompleting : c.Completing (fun t => Completes t.1.id))
    (hk : w.store.Keyed) (id : String) (hs : MoveStep (memoryHost env) engine c w c' w') :
    Books id c w c' w' ∨ Withdraws id c w c' w' := by
  cases hs with
  | none | unsubscribed | cancelled => exact Or.inl (.still (.refl _) rfl)
  | stop hs => exact Or.inl (.still (.refl _) (by cases hs <;> rfl))
  | loop hs => exact LoopStep.books hending hk id hs
  | worker hs => exact Or.inl (WorkerStep.books hcompleting hk id hs)

end Consumer

/-! ## The threads -/

namespace Runtime

/-- The threads keep to the contracts of the operations, and no two have generated the same
id. -/
structure Authored (env : Env) (engine : Engine) (r : Runtime World) : Prop where
  contract : ∀ t ∈ r.threads,
    t.Keeps (fun past e => Conduct engine past e ∧ Once past e) (fun _ => True)
  used : ∀ t ∈ r.threads, ∀ id ∈ generated t.past, Used env r.world id
  apart : ∀ (i j : ℕ) (t t' : EngineThread) (id : String),
    r.threads[i]? = some t → r.threads[j]? = some t' →
    id ∈ generated t.past → id ∈ generated t'.past → i = j

/-- An id under which a message may still be appended. -/
def Expects (env : Env) (r : Runtime World) (id : String) : Prop :=
  ¬ Used env r.world id ∨ ∃ t ∈ r.threads, appends t.past = [] ∧ id ∈ generated t.past

variable {env : Env} {engine : Engine} {r r' : Runtime World}

theorem Authored.init (env : Env) (engine : Engine) (w : World) :
    (Runtime.init w).Authored env engine where
  contract := fun _ ht => absurd ht List.not_mem_nil
  used := fun _ ht => absurd ht List.not_mem_nil
  apart := by simp [Runtime.init]

theorem Authored.of_threads (h : r.Authored env engine) (ht : r'.threads = r.threads)
    (hids : r.world.ids ≤ r'.world.ids) : r'.Authored env engine where
  contract := ht ▸ h.contract
  used := fun t hm id hid => (h.used t (ht ▸ hm) id hid).mono hids
  apart := ht ▸ h.apart

theorem Expects.of_threads {id : String} (h : r'.Expects env id) (ht : r'.threads = r.threads)
    (hids : r.world.ids ≤ r'.world.ids) : r.Expects env id :=
  h.imp (fun hn hu => hn (hu.mono hids)) (fun hex => ht ▸ hex)

theorem start_keeps (engine : Engine) {op : Op} (hop : op.requested = true) :
    (Thread.start (engine.program op).void : EngineThread).Keeps
      (fun past e => Conduct engine past e ∧ Once past e) (fun _ => True) := by
  have hne : ∀ consumer, op ≠ .claimBatch consumer := by
    rintro consumer rfl
    cases hop
  exact ((program_obeys op).both (program_once hne)).void.mono (fun _ _ _ => trivial)

/-- A new operation has done nothing yet. -/
theorem Authored.start (h : r.Authored env engine) {op : Op} (hop : op.requested = true) :
    ({ r with threads := r.threads ++ [.start (engine.program op).void] } :
      Runtime World).Authored env engine where
  contract := by
    intro t ht
    rcases List.mem_append.mp ht with ht | ht
    · exact h.contract t ht
    · rw [List.mem_singleton.mp ht]
      exact start_keeps engine hop
  used := by
    intro t ht
    rcases List.mem_append.mp ht with ht | ht
    · exact h.used t ht
    · rw [List.mem_singleton.mp ht]
      exact nofun
  apart := by
    have hold : ∀ (i : ℕ) (t : EngineThread) (id : String),
        (r.threads ++ [.start (engine.program op).void])[i]? = some t →
          id ∈ generated t.past → r.threads[i]? = some t := by
      intro i t id hi hid
      rcases getElem?_snoc hi with hi | ⟨-, rfl⟩
      · exact hi
      · cases hid
    intro i j t t' id hi hj hid hid'
    exact h.apart i j t t' id (hold i t id hi hid) (hold j t' id hj hid') hid hid'

theorem Expects.start {p : Program Unit} {id : String}
    (h : ({ r with threads := r.threads ++ [.start p] } : Runtime World).Expects env id) :
    r.Expects env id := by
  refine h.imp_right ?_
  rintro ⟨t, ht, hnone, hid⟩
  rcases List.mem_append.mp ht with ht | ht
  · exact ⟨t, ht, hnone, hid⟩
  · rw [List.mem_singleton.mp ht] at hid
    cases hid

/-- What a thread has generated after one more effect. -/
theorem mem_generated_snoc {w : World} {past : List EngineEvent} {e : Effect} {id : String}
    (h : id ∈ generated (past ++ [⟨e, (perform env e w).1⟩])) :
    id ∈ generated past ∨ e = .newID ∧ id = env.newID w.ids := by
  rw [generated_snoc] at h
  refine (List.mem_append.mp h).imp_right (fun hid => ?_)
  cases e with
  | newID => exact ⟨rfl, List.mem_singleton.mp hid⟩
  | _ => cases hid

theorem not_used_next (hinj : Function.Injective env.newID) (w : World) :
    ¬ Used env w (env.newID w.ids) := by
  rintro ⟨i, hi, hid⟩
  exact absurd (hinj hid) hi.ne

section Step
variable {i : ℕ} {t t' : EngineThread} {e : Effect}

/-- A thread of the runtime performs an effect. -/
structure Advances (env : Env) (r : Runtime World) (i : ℕ) (t : EngineThread) (e : Effect)
    (t' : EngineThread) : Prop where
  thread : r.threads[i]? = some t
  past : t'.past = t.past ++ [⟨e, (perform env e r.world).1⟩]

/-- What the runtime is afterwards. -/
def advanced (env : Env) (r : Runtime World) (i : ℕ) (e : Effect) (t' : EngineThread) :
    Runtime World :=
  { r with world := (perform env e r.world).2, threads := r.threads.set i t' }

theorem Authored.advance (hinj : Function.Injective env.newID) (h : r.Authored env engine)
    (ha : r.Advances env i t e t')
    (hk : t'.Keeps (fun past e => Conduct engine past e ∧ Once past e) (fun _ => True)) :
    (r.advanced env i e t').Authored env engine := by
  have hmem : t ∈ r.threads := List.mem_of_getElem? ha.thread
  have hids : r.world.ids ≤ (perform env e r.world).2.ids := ids_le_perform env e r.world
  -- The id that is generated now was not used before, so no other thread has it.
  have hnew : ∀ j s id, j ≠ i → r.threads[j]? = some s → id ∈ generated s.past →
      id ∉ generated t'.past := by
    intro j s id hne hj hid hid'
    rw [ha.past] at hid'
    rcases mem_generated_snoc hid' with hid' | ⟨-, rfl⟩
    · exact hne (h.apart j i s t id hj ha.thread hid hid')
    · exact not_used_next hinj r.world (h.used s (List.mem_of_getElem? hj) _ hid)
  refine ⟨fun s hs => ?_, fun s hs id hid => ?_, fun j k s s' id hj hk' hid hid' => ?_⟩
  · rcases List.mem_or_eq_of_mem_set hs with hs | rfl
    · exact h.contract s hs
    · exact hk
  · rcases List.mem_or_eq_of_mem_set hs with hs | rfl
    · exact (h.used s hs id hid).mono hids
    · rw [ha.past] at hid
      rcases mem_generated_snoc hid with hid | ⟨rfl, rfl⟩
      · exact (h.used t hmem id hid).mono hids
      · exact ⟨r.world.ids, Nat.lt_succ_self _, rfl⟩
  · simp only [advanced, getElem?_set_of_some ha.thread] at hj hk'
    split_ifs at hj hk' with hij hik
    · exact hij.symm.trans hik
    · rw [← Option.some.inj hj] at hid
      exact absurd hid (hnew k s' id (Ne.symm hik) hk' hid')
    · rw [← Option.some.inj hk'] at hid'
      exact absurd hid' (hnew j s id (Ne.symm hij) hj hid)
    · exact h.apart j k s s' id hj hk' hid hid'

theorem Expects.advance (hinj : Function.Injective env.newID) (ha : r.Advances env i t e t')
    {id : String} (h : (r.advanced env i e t').Expects env id) : r.Expects env id := by
  rcases h with hn | ⟨s, hs, hnone, hid⟩
  · exact Or.inl (fun hu => hn (hu.mono (ids_le_perform env e r.world)))
  · rcases List.mem_or_eq_of_mem_set hs with hs | rfl
    · exact Or.inr ⟨s, hs, hnone, hid⟩
    · rw [ha.past] at hnone hid
      rw [appends_snoc] at hnone
      rcases mem_generated_snoc hid with hid | ⟨rfl, rfl⟩
      · exact Or.inr ⟨t, List.mem_of_getElem? ha.thread, (List.append_eq_nil_iff.mp hnone).1, hid⟩
      · exact Or.inl (not_used_next hinj r.world)

/-- Once a message was appended, whether with success or not, it is not expected any more. -/
theorem not_expects_of_append (h : r.Authored env engine) {msgs : List Message}
    (ha : r.Advances env i t (.store (.append msgs)) t') {id : String}
    (hid : id ∈ generated t.past) :
    ¬ (r.advanced env i (.store (.append msgs)) t').Expects env id := by
  have hmem : t ∈ r.threads := List.mem_of_getElem? ha.thread
  rintro (hn | ⟨s, hs, hnone, hid'⟩)
  · exact hn ((h.used t hmem id hid).mono (ids_le_perform env (.store (.append msgs)) r.world))
  · obtain ⟨j, hj⟩ := List.mem_iff_getElem?.mp hs
    rw [advanced, getElem?_set_of_some ha.thread] at hj
    split_ifs at hj with hij
    · rw [← Option.some.inj hj, ha.past, appends_snoc] at hnone
      simp [isAppend] at hnone
    · exact hij (h.apart i j t s id ha.thread hj hid hid')

end Step

theorem act_threads (env : Env) (engine : Engine) (r : Runtime World) {a : Act}
    (hs : ∀ i, a ≠ .step i) (ho : ∀ op, a ≠ .start op) :
    (r.act (memoryHost env) engine a).threads = r.threads := by
  cases a with
  | start op => exact absurd rfl (ho op)
  | step i => exact absurd rfl (hs i)
  | subscribe spec =>
    simp only [act, subscribe]
    split
    · rfl
    · split_ifs <;> rfl
  | move i m =>
    simp only [act]
    cases r.consumers[i]? <;> rfl

end Runtime

theorem HostStep.ids_le {env : Env} {w w' : World} (h : HostStep (memoryHost env) w w') :
    w.ids ≤ w'.ids := by
  cases h with
  | same => exact le_rfl
  | performed e => exact ids_le_perform env e w
  | opened queue =>
    simp only [memoryHost, World.openSignal]
    split <;> exact le_rfl
  | taken h =>
    simp only [memoryHost, World.takeSignal] at h
    split_ifs at h
    rw [← Option.some.inj h]

/-! ## Withdrawing a ticket -/

theorem Loop.offered_eq_some {l : Loop} {t : Ticket} :
    l.offered = some t ↔ ∃ rest, l = .select t rest := by
  cases l <;> simp [offered]

theorem Consumer.dispatch_withdraws {σ : Type} (host : Host σ) (c : Consumer) (w : σ) {t : Ticket}
    {rest : List Ticket} (h : c.loop = .select t rest) (hc : c.cancelled = true) :
    c.dispatch host .done w = ({ c with loop := .uncount t rest }, w) := by
  simp [dispatch, h, hc]

/-- Only the end of its context makes a loop withdraw a ticket. -/
theorem Consumer.move_uncount {σ : Type} {host : Host σ} {engine : Engine} {m : Consumer.Move}
    {c : Consumer} {w : σ} {t : Ticket} {rest : List Ticket} (h : c.loop = .select t rest)
    (h' : (c.move host engine m w).1.loop = .uncount t rest) :
    m = .dispatch .done ∧ c.cancelled = true := by
  by_cases hm : ∃ branch, m = .dispatch branch
  · obtain ⟨branch, rfl⟩ := hm
    simp only [move, dispatch, h] at h'
    cases branch with
    | done =>
      refine ⟨rfl, ?_⟩
      by_contra hc
      simp [hc, h] at h'
    | send =>
      dsimp only at h'
      split_ifs at h'
      · cases rest <;> cases h'
      · rw [show c.loop = _ from h'] at h
        cases h
    | signal | timer =>
      rw [show c.loop = _ from h'] at h
      cases h
  · rw [Consumer.move_loop host engine (fun branch hb => hm ⟨branch, hb⟩), h] at h'
    cases h'

/-! ## Deliveries are never taken back -/

theorem pulled_le_step (id : String) (exec : (e : Effect) → World → e.Reply × World)
    (t : EngineThread) (w : World) : pulled id t ≤ pulled id (t.step exec w).1 := by
  rcases t with ⟨past, u | ⟨e, next⟩⟩
  · exact le_rfl
  · exact Nat.zero_le _

theorem MoveStep.invoked_le {host : Host World} {engine : Engine} {c c' : Consumer} {w w' : World}
    (hs : MoveStep host engine c w c' w') (p : Ticket → Bool) :
    c.invoked.countP p ≤ c'.invoked.countP p := by
  cases hs with
  | none | unsubscribed | cancelled => exact le_rfl
  | stop hs => cases hs <;> exact le_rfl
  | loop hs => cases hs <;> exact le_rfl
  | worker hs =>
    cases hs with
    | invoked =>
      simp only [Consumer.setWorker, List.countP_append]
      exact Nat.le_add_right _ _
    | _ => exact le_rfl

theorem Runtime.delivered_le_act (env : Env) (engine : Engine) (r : Runtime World) (a : Act)
    (id : String) : r.delivered id ≤ (r.act (memoryHost env) engine a).delivered id := by
  cases a with
  | start op =>
    simp only [act]
    split_ifs
    · simp only [delivered, List.map_append, List.sum_append]
      omega
    · exact le_rfl
  | step i =>
    simp only [act]
    cases hi : r.threads[i]? with
    | none => exact le_rfl
    | some t =>
      have hset := sum_map_set (pulled id) hi (t.step (memoryHost env).perform r.world).1
      have hle := pulled_le_step id (memoryHost env).perform t r.world
      simp only [delivered]
      omega
  | subscribe spec =>
    simp only [act, subscribe]
    split
    · exact le_rfl
    · split_ifs
      · exact le_rfl
      · simp only [delivered, List.map_append, List.sum_append]
        omega
  | move i m =>
    simp only [act]
    cases hi : r.consumers[i]? with
    | none => exact le_rfl
    | some c =>
      have hset := sum_map_set (fun c : Consumer => c.invoked.countP (Ticket.names id)) hi
        (c.move (memoryHost env) engine m r.world).1
      have hle := MoveStep.invoked_le (Consumer.move_cases (memoryHost env) engine m c r.world)
        (Ticket.names id)
      simp only [delivered]
      omega

end RabbitmqLite.Engine
