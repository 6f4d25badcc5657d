import RabbitmqLite.Engine.Backing
import RabbitmqLite.Engine.Bookings

/-! # Delivery in the order of publication

Publications come one after the other, and one consumer with one worker, whose
handler always succeeds, takes the messages of a queue. What was published is at
every moment what was passed on to the handler or is on its way to it, followed
by the line of the queue, in this order.
-/

namespace RabbitmqLite.Engine
open Broker Collections Storage Atomic
open Sqlite (JsonMaps)

variable {engine : Engine} {past : List EngineEvent}

/-! ## Publications -/

/-- A publication appends messages it has made at one reading of the clock. -/
def Posts (past : List EngineEvent) : Effect → Prop
  | .store (.append msgs) => ∃ now, ClockRead past now ∧ ∀ msg ∈ msgs, QueuedAt now msg
  | .store (.appendHistory _) | .store (.saveDeadLetter _ _) | .clock | .newID | .route _ _
  | .notify _ => True
  | _ => False

theorem recordEach_posts (events : List HistoryEvent) :
    (recordEach events).Obeys Posts past (fun _ _ => True) := by
  induction events generalizing past with
  | nil => trivial
  | cons event events ih =>
    exact ⟨trivial, fun _ => ih⟩

theorem validate_posts (msg : Message) (now : Time) :
    (engine.validate msg now).Obeys Posts past (fun _ past' => past <+: past') := by
  unfold validate
  cases engine.schemas with
  | none => exact List.prefix_refl past
  | some schemas =>
    dsimp only
    split_ifs
    · exact List.prefix_refl past
    · cases schemas msg.schema msg.payload.bytes with
      | none => exact List.prefix_refl past
      | some cause =>
        refine ⟨trivial, fun id => ⟨trivial, fun reply => ?_⟩⟩
        exact (List.prefix_append past _).trans (List.prefix_append _ _)

theorem addressed_queuedAt (id : String) (pub : Publication) (queue : Queue) (now : Time) :
    QueuedAt now { addressed id pub queue now with state := .queued, updatedAt := now } := by
  refine ⟨rfl, ?_, rfl, addressed_availableAt id pub queue now⟩
  unfold addressed
  dsimp only
  split_ifs <;> rfl

theorem publishLoop_posts (pub : Publication) {now : Time} (queues : List Queue)
    {messages : List Message} (hn : ClockRead past now) (hm : ∀ msg ∈ messages, QueuedAt now msg) :
    (engine.publishLoop pub now queues messages).Obeys Posts past
      (fun reply past' => ∀ messages, reply = .ok messages →
        ClockRead past' now ∧ ∀ msg ∈ messages, QueuedAt now msg) := by
  induction queues generalizing past messages with
  | nil =>
    rintro _ ⟨⟩
    exact ⟨hn, hm⟩
  | cons queue queues ih =>
    refine ⟨trivial, fun id => ?_⟩
    refine (validate_posts _ now).bind (fun reply past' hg => ?_)
    have hn' : ClockRead past' now := hg.subset (List.mem_append_left _ hn)
    cases reply with
    | error e => exact nofun
    | ok u =>
      dsimp only
      rw [transition_of_created (addressed_fields id pub queue now).2.1]
      refine ih hn' (fun msg hmsg => ?_)
      rcases List.mem_append.mp hmsg with hmsg | hmsg
      · exact hm msg hmsg
      · rw [List.mem_singleton.mp hmsg]
        exact addressed_queuedAt id pub queue now

theorem publish_posts (pub : Publication) :
    (engine.publish pub).Obeys Posts past (fun _ _ => True) := by
  refine ⟨trivial, fun routed => ?_⟩
  cases routed with
  | error e => trivial
  | ok queues =>
    refine ⟨trivial, fun now => ?_⟩
    have hn : ClockRead (past ++ [⟨.route pub.exchange pub.routingKey, .ok queues⟩] ++
        [⟨.clock, now⟩]) now := List.mem_append_right _ (List.mem_singleton_self _)
    refine (publishLoop_posts pub queues hn (by simp)).bind (fun reply past' hprep => ?_)
    cases reply with
    | error e => trivial
    | ok messages =>
      refine ⟨⟨now, hprep messages rfl⟩, fun appended => ?_⟩
      cases appended with
      | error e => trivial
      | ok u => exact (recordEach_posts _).bind (fun _ _ _ => ⟨trivial, fun _ => trivial⟩)

/-- What is used of a publication. -/
def Publishes (engine : Engine) (past : List EngineEvent) (e : Effect) : Prop :=
  Posts past e ∧ Conduct engine past e ∧ Once past e

theorem program_publishes (pub : Publication) :
    (engine.program (.publish pub)).void.Obeys (Publishes engine) [] (fun _ _ => True) := by
  have hconduct : (engine.program (.publish pub)).Obeys (Conduct engine) [] (fun _ _ => True) :=
    (program_obeys (.publish pub)).mono (fun _ _ _ => trivial)
  have hposts : (engine.program (.publish pub)).Obeys Posts [] (fun _ _ => True) :=
    publish_posts pub
  have honce : (engine.program (.publish pub)).Obeys Once [] (fun _ _ => True) :=
    program_once (by simp)
  exact (hposts.both (hconduct.both honce)).void.mono (fun _ _ _ => trivial)

/-! ## After a handler that succeeds -/

/-- The message is acknowledged at a reading of the clock. -/
def Acks (past : List EngineEvent) : Effect → Prop
  | .clock | .store (.appendHistory _) => True
  | .settle _ _ (.acknowledge _ now) => ClockRead past now
  | _ => False

theorem acknowledge_acks (spec : ConsumerSpec) (delivery : Delivery) :
    (acknowledge spec delivery).Obeys Acks [] (fun _ _ => True) := by
  refine ⟨trivial, fun now => ⟨List.mem_singleton_self _, fun reply => ?_⟩⟩
  cases reply with
  | error e => trivial
  | ok u => exact ⟨trivial, fun _ => trivial⟩

/-! ## What the threads know of the scene -/

section Scene
variable {env : Env} {registry : Registry} {q : String} {a a' : Scene}

/-- The clock was read where it says so. -/
def Told (env : Env) (past : List EngineEvent) : Prop :=
  ∀ now, ClockRead past now → now ∈ Set.range env.clock

theorem Told.snoc (h : Told env past) {e : Effect} {reply : e.Reply}
    (hs : a.Shows env registry q e reply a') : Told env (past ++ [⟨e, reply⟩]) := by
  intro now hn
  rcases List.mem_append.mp hn with hn | hn
  · exact h now hn
  · have heq := List.mem_singleton.mp hn
    cases hs with
    | clock =>
      obtain ⟨-, hnow⟩ := Event.mk.inj heq
      exact ⟨a.ticks, (eq_of_heq hnow).symm⟩
    | store | settle | newID | route | queue | notify => cases heq

/-- Known ids are used up, and nothing becomes available in the future. -/
structure Scene.Sound (env : Env) (a : Scene) : Prop where
  latest : a.line.latest ≤ env.clock a.ticks
  known : ∀ id ∈ a.line.known, ∃ i < a.ids, env.newID i = id

theorem Scene.Sound.frame (h : a.Sound env) (hmono : Monotone env.clock) (hf : a.Frame a') :
    a'.Sound env where
  latest := by
    rw [hf.latest]
    exact h.latest.trans (hmono hf.ticks)
  known := by
    rw [hf.known]
    intro id hid
    obtain ⟨i, hi, hnew⟩ := h.known id hid
    exact ⟨i, hi.trans_le hf.ids, hnew⟩

/-- What a publication that has not appended yet can rely on. -/
structure Pending (env : Env) (a : Scene) (past : List EngineEvent) : Prop where
  late : ∀ now, ClockRead past now → a.line.latest ≤ now ∧ now ≤ env.clock a.ticks
  nodup : (generated past).Nodup
  used : ∀ id ∈ generated past, ∃ i < a.ids, env.newID i = id
  fresh : ∀ id ∈ generated past, id ∉ a.line.known

theorem Pending.nil (env : Env) (a : Scene) : Pending env a [] :=
  ⟨fun _ h => absurd h List.not_mem_nil, List.nodup_nil, fun _ h => absurd h List.not_mem_nil,
    fun _ h => absurd h List.not_mem_nil⟩

theorem Pending.frame (h : Pending env a past) (hmono : Monotone env.clock) (hf : a.Frame a') :
    Pending env a' past where
  late := by
    rw [hf.latest]
    intro now hn
    obtain ⟨hlate, hread⟩ := h.late now hn
    exact ⟨hlate, hread.trans (hmono hf.ticks)⟩
  nodup := h.nodup
  used := by
    intro id hid
    obtain ⟨i, hi, hnew⟩ := h.used id hid
    exact ⟨i, hi.trans_le hf.ids, hnew⟩
  fresh := by
    rw [hf.known]
    exact h.fresh

/-- The clock is not behind, and a new id is known to nobody. -/
theorem Pending.snoc (h : Pending env a past) (hsound : a.Sound env)
    (hinj : Function.Injective env.newID) (hmono : Monotone env.clock) {e : Effect}
    {reply : e.Reply} (hn : ∀ msgs, e.call? ≠ some (.append msgs))
    (hs : a.Shows env registry q e reply a') :
    Pending env a' (past ++ [⟨e, reply⟩]) := by
  have hf := hs.frame hn
  have h' := h.frame hmono hf
  have hnew : ∀ id ∈ generatedBy ⟨e, reply⟩,
      id ∉ generated past ∧ id ∉ a.line.known ∧ ∃ i < a'.ids, env.newID i = id := by
    intro id hid
    cases hs with
    | newID =>
      rw [List.mem_singleton.mp hid]
      refine ⟨fun hm => ?_, fun hm => ?_, a.ids, Nat.lt_succ_self _, rfl⟩
      · obtain ⟨i, hi, heq⟩ := h.used _ hm
        exact absurd (hinj heq) hi.ne
      · obtain ⟨i, hi, heq⟩ := hsound.known _ hm
        exact absurd (hinj heq) hi.ne
    | store | settle | clock | route | queue | notify => cases hid
  refine ⟨fun now hr => ?_, ?_, fun id hid => ?_, fun id hid => ?_⟩
  · rcases List.mem_append.mp hr with hr | hr
    · exact h'.late now hr
    · have heq := List.mem_singleton.mp hr
      cases hs with
      | clock =>
        obtain ⟨-, hnow⟩ := Event.mk.inj heq
        rw [eq_of_heq hnow]
        exact ⟨hsound.latest, hmono (Nat.le_succ _)⟩
      | store | settle | newID | route | queue | notify => cases heq
  · rw [generated_snoc]
    refine h.nodup.append ?_ (fun id hid hid' => (hnew id hid').1 hid)
    cases hs with
    | newID => exact List.nodup_singleton _
    | store | settle | clock | route | queue | notify => exact List.nodup_nil
  · rw [generated_snoc] at hid
    rcases List.mem_append.mp hid with hid | hid
    · exact h'.used id hid
    · exact (hnew id hid).2.2
  · rw [generated_snoc] at hid
    rcases List.mem_append.mp hid with hid | hid
    · exact h'.fresh id hid
    · rw [hf.known]
      exact (hnew id hid).2.1

end Scene

/-! ## The consumer -/

/-- The tickets of a consumer in the order in which the handler gets them. -/
def Consumer.passage (c : Consumer) : List Ticket :=
  c.invoked ++ (c.workers.flatMap Worker.bound ++ (c.pool.tasks ++ c.loop.bound))

/-- The ids of tickets. -/
def ticketIds (tickets : List Ticket) : List String := tickets.map (fun t => t.1.id)

theorem ticketIds_append (tickets more : List Ticket) :
    ticketIds (tickets ++ more) = ticketIds tickets ++ ticketIds more := List.map_append

theorem ticketIds_zipIdx (msgs : List Message) (n : ℕ) :
    ticketIds (msgs.zipIdx n) = msgs.map Message.id := by
  conv_rhs => rw [← List.zipIdx_map_fst n msgs, List.map_map]
  rfl

/-- What a loop that is not stopped has found out for its next claim. -/
def Loop.Steady (env : Env) (registry : Registry) (q : String) : Loop → Prop
  | .clock lease => lease ∈ leasesOf registry q
  | .claim lease now => lease ∈ leasesOf registry q ∧ now ∈ Set.range env.clock
  | .uncount _ _ | .undo _ _ | .release _ _ _ => False
  | _ => True

/-- A worker after a handler that has succeeded. -/
def Worker.Steady (env : Env) : Worker → Prop
  | .completing _ thread => thread.Keeps Acks (fun _ => True) ∧ Told env thread.past
  | _ => True

/-- A consumer of the queue with one worker that is not stopped. -/
structure Consumer.Steady (env : Env) (registry : Registry) (q : String) (c : Consumer) : Prop where
  queue : c.spec.queue = q
  prefetch : 1 ≤ c.spec.prefetch
  worker : ∃ worker, c.workers = [worker] ∧ worker.Steady env
  cancelled : c.cancelled = false
  stopped : c.pool.stopped = false
  closed : c.pool.closed = false
  loop : c.loop.Steady env registry q

section Steady
variable {σ : Type} {host : Host σ} {env : Env} {registry : Registry} {q : String}
  (B : Backing host env registry q) {c c' : Consumer} {w w' : σ} {a a' : Scene}

variable (env registry q) in
/-- The consumer has moved and the tickets stay in order. -/
structure Turned (c c' : Consumer) : Prop where
  steady : c'.Steady env registry q
  passage : c'.passage = c.passage

/-- One step of a consumer: what it has taken and what waits is the same as before. -/
structure Relays (c : Consumer) (a : Scene) (c' : Consumer) (w' : σ) (a' : Scene) : Prop where
  sees : B.sees w' a'
  frame : a.Frame a'
  steady : c'.Steady env registry q
  line : ticketIds c'.passage ++ a'.line.waiting = ticketIds c.passage ++ a.line.waiting

variable {B}

/-- A step that takes nothing from the line. -/
theorem Relays.aside (hs : B.sees w' a') (hf : a.Frame a')
    (hwaiting : a'.line.waiting = a.line.waiting) (ht : Turned env registry q c c') :
    Relays B c a c' w' a' := ⟨hs, hf, ht.steady, by rw [ht.passage, hwaiting]⟩

theorem Relays.alone (hs : B.sees w' a) (ht : Turned env registry q c c') :
    ∃ a', Relays B c a c' w' a' := ⟨a, .aside hs (.refl a) rfl ht⟩

/-- An effect that neither appends nor claims. -/
theorem Relays.effect (h : B.sees w a) {e : Effect} {reply : e.Reply}
    (hp : host.perform e w = (reply, w')) (ha : a.Admits env registry q e)
    (hn : ∀ msgs, e.call? ≠ some (.append msgs)) (hc : ∀ req, e.call? ≠ some (.claim req))
    (ht : ∀ a', a.Shows env registry q e reply a' → Turned env registry q c c') :
    ∃ a', Relays B c a c' w' a' := by
  obtain ⟨a', hshows, hs⟩ := B.performed h hp ha
  exact ⟨a', .aside hs (hshows.frame hn) (hshows.waiting hn hc) (ht a' hshows)⟩

/-! ### The dispatch loop -/

theorem Consumer.Steady.relocate (h : c.Steady env registry q) (ha : c.Alongside c')
    (hc : c'.cancelled = c.cancelled) (hi : c'.invoked = c.invoked)
    (hl : c'.loop.Steady env registry q)
    (hpass : c'.pool.tasks ++ c'.loop.bound = c.pool.tasks ++ c.loop.bound) :
    Turned env registry q c c' where
  steady := ⟨ha.spec ▸ h.queue, ha.spec ▸ h.prefetch, ha.workers ▸ h.worker, hc.trans h.cancelled,
    ha.stopped.trans h.stopped, ha.closed.trans h.closed, hl⟩
  passage := by rw [passage, passage, hi, ha.workers, hpass]

/-- The request of the next claim. -/
theorem Consumer.Steady.admits (h : c.Steady env registry q) {lease : Duration} {now : Time}
    (hat : c.loop = .claim lease now) (a : Scene) :
    a.Admits env registry q (.store (.claim (c.request lease now))) := by
  have hloop := h.loop
  rw [hat] at hloop
  have hlimit : (0 : ℤ) ≤ c.spec.prefetch := zero_le_one.trans h.prefetch
  exact ⟨h.queue, hlimit, hloop.2, hloop.1⟩

/-- The loop takes messages from the front of the line and passes them on in order. -/
theorem Consumer.Steady.loopStep (h : c.Steady env registry q) (hsees : B.sees w a)
    (hs : LoopStep host c w c' w') : ∃ a', Relays B c a c' w' a' := by
  have hcancelled : c'.cancelled = c.cancelled := by cases hs <;> rfl
  have hinvoked : c'.invoked = c.invoked := by cases hs <;> rfl
  have hturn := h.relocate (LoopStep.alongside hs) hcancelled hinvoked
  have hloop := h.loop
  cases hs with
  -- Nobody stops the consumer.
  | left _ hc | gaveUp _ hc | withdrawn _ hc | ended _ hc =>
    rw [h.cancelled] at hc
    cases hc
  | rejected _ hs =>
    rw [h.stopped] at hs
    cases hs
  | panicked _ hs =>
    rw [h.closed] at hs
    cases hs
  | uncounted hat | undone hat | lost hat | gaveBack hat =>
    rw [hat] at hloop
    exact hloop.elim
  | opened hat => exact Relays.alone (B.openSignal hsees _) (hturn trivial (by rw [hat]; rfl))
  | woken hat hw => exact Relays.alone (B.takeSignal hsees hw) (hturn trivial (by rw [hat]; rfl))
  | entered hat | rested hat | accepted hat | counted hat | ticked hat =>
    exact Relays.alone hsees (hturn trivial (by rw [hat]; rfl))
  | @sent t rest hat =>
    have hb : c.loop.bound = t :: rest := by rw [hat]; rfl
    refine Relays.alone hsees (hturn ?_ ?_)
    · cases rest <;> trivial
    · rw [hb, bound_proceed, List.append_assoc, List.singleton_append]
  | unknown hat hp | stamped hat hp | recorded hat hp =>
    exact Relays.effect hsees hp trivial (by simp [Effect.call?]) (by simp [Effect.call?])
      (fun _ _ => hturn trivial (by rw [hat]; rfl))
  | @found queue w' hat hp =>
    refine Relays.effect hsees hp trivial (by simp [Effect.call?]) (by simp [Effect.call?])
      (fun a' hshows => hturn ?_ (by rw [hat]; rfl))
    exact ⟨queue, h.queue ▸ hshows.queue_eq.1.symm, rfl⟩
  | timed hat hp =>
    rw [hat] at hloop
    exact Relays.effect hsees hp trivial (by simp [Effect.call?]) (by simp [Effect.call?])
      (fun a' hshows => hturn ⟨hloop, a.ticks, hshows.clock_eq.symm⟩ (by rw [hat]; rfl))
  | unclaimed hat hp =>
    obtain ⟨a', hshows, -⟩ := B.performed hsees hp (h.admits hat a)
    obtain ⟨msgs, hreply, -⟩ := hshows.claimed
    cases hreply
  | @claimed lease now msgs w' hat hp =>
    obtain ⟨a', hshows, hsees'⟩ := B.performed hsees hp (h.admits hat a)
    have hf := hshows.frame (by simp [Effect.call?])
    obtain ⟨_, ⟨⟩, hfront⟩ := hshows.claimed
    have hb : c.loop.bound = [] := by rw [hat]; rfl
    refine ⟨a', hsees', hf, ?_, ?_⟩
    · refine ⟨h.queue, h.prefetch, h.worker, h.cancelled, h.stopped, h.closed, ?_⟩
      cases msgs <;> trivial
    · simp only [passage, hb, bound_took, hfront, List.append_nil, ticketIds_append,
        ticketIds_zipIdx, List.append_assoc]

/-! ### The worker -/

theorem Consumer.Steady.only (h : c.Steady env registry q) {i : ℕ} {worker : Worker}
    (hi : c.workers[i]? = some worker) : i = 0 ∧ c.workers = [worker] ∧ worker.Steady env := by
  obtain ⟨only, honly, hsteady⟩ := h.worker
  rw [honly, List.getElem?_singleton] at hi
  split_ifs at hi with hzero
  obtain rfl := Option.some.inj hi
  exact ⟨hzero, honly, hsteady⟩

theorem Consumer.Steady.replace (h : c.Steady env registry q) {i : ℕ} {old worker : Worker}
    (hr : Replaced i worker c c') (hi : c.workers[i]? = some old) (hc : c'.cancelled = c.cancelled)
    (hw : worker.Steady env)
    (hpass : c'.invoked ++ (worker.bound ++ c'.pool.tasks) =
      c.invoked ++ (old.bound ++ c.pool.tasks)) : Turned env registry q c c' := by
  obtain ⟨rfl, hold, -⟩ := h.only hi
  have hnew : c'.workers = [worker] := by
    rw [hr.workers, hold]
    rfl
  refine ⟨⟨hr.spec ▸ h.queue, hr.spec ▸ h.prefetch, ⟨worker, hnew, hw⟩, hc.trans h.cancelled,
    hr.stopped.trans h.stopped, hr.closed.trans h.closed, hr.loop ▸ h.loop⟩, ?_⟩
  rw [passage, passage, hnew, hold, hr.loop, List.flatMap_singleton, List.flatMap_singleton]
  simpa only [List.append_assoc] using congrArg (· ++ c.loop.bound) hpass

/-- What a thread that acknowledges does next. -/
theorem Acks.admits {e : Effect} (h : Acks past e) (ht : Told env past) (a : Scene) :
    a.Admits env registry q e ∧ (∀ msgs, e.call? ≠ some (.append msgs)) ∧
      ∀ req, e.call? ≠ some (.claim req) := by
  cases e with
  | clock => exact ⟨trivial, by simp [Effect.call?], by simp [Effect.call?]⟩
  | store c =>
    cases c with
    | appendHistory => exact ⟨trivial, by simp [Effect.call?], by simp [Effect.call?]⟩
    | _ => exact h.elim
  | settle party attempt c =>
    cases c with
    | acknowledge id now => exact ⟨ht now h, by simp [Effect.call?], by simp [Effect.call?]⟩
    | _ => exact h.elim
  | _ => exact h.elim

/-- The worker takes the first task and passes it to the handler before it takes the next one. -/
theorem Consumer.Steady.workerStep (h : c.Steady env registry q) (hsees : B.sees w a) {i : ℕ}
    (hnone : ∀ t, c.workers[i]? ≠ some (.handling t)) (hs : WorkerStep host engine c w i c' w') :
    ∃ a', Relays B c a c' w' a' := by
  cases hs with
  | handled hi => exact absurd hi (hnone _)
  | exited _ _ hs =>
    rw [h.closed] at hs
    cases hs
  | received hi ht =>
    exact Relays.alone hsees (h.replace ⟨rfl, rfl, rfl, rfl, rfl, rfl, rfl, rfl⟩ hi rfl trivial
      (by rw [ht]; rfl))
  | counted hi | begun hi | finished hi =>
    exact Relays.alone hsees (h.replace ⟨rfl, rfl, rfl, rfl, rfl, rfl, rfl, rfl⟩ hi rfl trivial rfl)
  | invoked hi hp =>
    exact Relays.effect hsees hp trivial (by simp [Effect.call?]) (by simp [Effect.call?])
      (fun _ _ => h.replace ⟨rfl, rfl, rfl, rfl, rfl, rfl, rfl, rfl⟩ hi rfl trivial
        (List.append_assoc _ _ _))
  | stepped hi hf hp =>
    obtain ⟨-, -, hkeeps, htold⟩ := h.only hi
    rcases hkeeps.step_cases host.perform w with ⟨hdone, -⟩ | ⟨e, -, hacks, hpast, hworld, hkeeps'⟩
    · rw [hf] at hdone
      cases hdone
    · rw [hp] at hpast hworld hkeeps'
      dsimp only at hpast hworld hkeeps'
      obtain ⟨hadmits, hn, hc⟩ := hacks.admits htold a
      refine Relays.effect hsees (Prod.ext rfl hworld.symm) hadmits hn hc (fun a' hshows => ?_)
      exact h.replace ⟨rfl, rfl, rfl, rfl, rfl, rfl, rfl, rfl⟩ hi rfl
        ⟨hkeeps', hpast ▸ htold.snoc hshows⟩ rfl

theorem Consumer.Steady.work (h : c.Steady env registry q) (hsees : B.sees w a) (i : ℕ) :
    ∃ a', Relays B c a (c.work host engine i none w).1 (c.work host engine i none w).2 a' := by
  by_cases hhandling : ∃ t, c.workers[i]? = some (.handling t)
  · obtain ⟨t, hi⟩ := hhandling
    have hacks : Worker.Steady env (.completing t (.start (acknowledge c.spec t.delivery))) :=
      ⟨acknowledge_acks c.spec t.delivery, fun _ hn => absurd hn List.not_mem_nil⟩
    rw [Consumer.work, hi]
    exact Relays.alone hsees (h.replace ⟨rfl, rfl, rfl, rfl, rfl, rfl, rfl, rfl⟩ hi rfl hacks rfl)
  · rcases c.work_cases host engine w i none with hsame | hs
    · rw [hsame]
      exact Relays.alone hsees ⟨h, rfl⟩
    · exact h.workerStep hsees (fun t hi => hhandling ⟨t, hi⟩) hs

end Steady

/-! ## Runs -/

/-- The ids an event has published on the queue. -/
def publishedBy (q : String) : EngineEvent → List String
  | ⟨.store (.append msgs), .ok _⟩ => (msgs.filter (fun msg => msg.queue = q)).map Message.id
  | _ => []

def publishedIn (q : String) (t : EngineThread) : List String := t.past.flatMap (publishedBy q)

section Run
variable {σ : Type} {host : Host σ} {env : Env} {registry : Registry} {q : String}
  {B : Backing host env registry q}

/-- The order of publication on the queue. -/
def Runtime.published (q : String) (r : Runtime σ) : List String :=
  r.threads.flatMap (publishedIn q)

/-- A publication begins when those before have returned, there is one consumer with one worker,
its handler succeeds, and it is not stopped. -/
def Sequential (q : String) (r : Runtime σ) : Act → Prop
  | .start (.publish _) => ∀ t ∈ r.threads, t.finished = true
  | .start _ => False
  | .step _ => True
  | .subscribe spec => spec.queue = q ∧ spec.concurrency ≤ 1 ∧ r.consumers.length = 0
  | .move _ (.dispatch _) => True
  | .move _ (.work _ outcome) => outcome = none
  | .move _ _ => False

instance (q : String) (r : Runtime σ) : (act : Act) → Decidable (Sequential q r act)
  | .start (.publish _) => inferInstanceAs (Decidable (∀ t ∈ r.threads, t.finished = true))
  | .subscribe _ => inferInstanceAs (Decidable (_ ∧ _ ∧ _))
  | .move _ (.work _ outcome) => inferInstanceAs (Decidable (outcome = none))
  | .step _ | .move _ (.dispatch _) => .isTrue trivial
  | .move _ .unsubscribe | .move _ .cancel | .move _ .stop => .isFalse not_false
  | .start (.pull _) | .start (.ack _ _) | .start (.nack _ _ _ _) | .start (.claimBatch _)
  | .start (.work _ _) | .start .reclaim | .start (.replayDeadLetter _) | .start (.purge _)
  | .start (.discardDeadLetter _) => .isFalse not_false

/-- The handler was called for the messages of the queue in the order of publication, and once for
each. -/
def Runtime.DeliversInOrder (q : String) (r : Runtime σ) : Prop :=
  ∀ c ∈ r.consumers, ticketIds c.invoked <+: r.published q ∧ (ticketIds c.invoked).Nodup

variable (engine env) in
/-- All publications but the last have returned, and the last one can rely on the scene. -/
structure Publishers (a : Scene) (threads : List EngineThread) : Prop where
  keeps : ∀ t ∈ threads, t.Keeps (Publishes engine) (fun _ => True)
  told : ∀ t ∈ threads, Told env t.past
  finished : ∀ t ∈ threads.dropLast, t.finished = true
  pending : ∀ t ∈ threads, t.finished = false → appends t.past = [] → Pending env a t.past

variable (engine B) in
/-- What was published has been passed on or waits, in this order. -/
structure Conveyed (r : Runtime σ) (a : Scene) : Prop where
  sees : B.sees r.world a
  sound : a.Sound env
  publishers : Publishers engine env a r.threads
  single : ∀ c ∈ r.consumers, r.consumers = [c]
  steady : ∀ c ∈ r.consumers, c.Steady env registry q
  line : r.published q = ticketIds (r.consumers.flatMap Consumer.passage) ++ a.line.waiting
  nodup : (r.published q).Nodup
  stored : ∀ id ∈ r.published q, id ∈ a.line.known

theorem Conveyed.inOrder {r : Runtime σ} {a : Scene} (h : Conveyed engine B r a) :
    r.DeliversInOrder q := by
  intro c hc
  have hinitial : ticketIds c.invoked <+: r.published q := by
    rw [h.line, h.single c hc, List.flatMap_singleton, Consumer.passage, ticketIds_append,
      List.append_assoc]
    exact List.prefix_append _ _
  exact ⟨hinitial, h.nodup.sublist hinitial.sublist⟩

/-! ### Publishers -/

section Publishers
variable {a a' : Scene} {threads front : List EngineThread} {t t' : EngineThread}

theorem Publishers.frame (h : Publishers engine env a threads) (hmono : Monotone env.clock)
    (hf : a.Frame a') : Publishers engine env a' threads :=
  ⟨h.keeps, h.told, h.finished, fun t ht hunfinished happends =>
    (h.pending t ht hunfinished happends).frame hmono hf⟩

theorem Publishers.start (h : Publishers engine env a threads)
    (hall : ∀ t ∈ threads, t.finished = true) (pub : Publication) :
    Publishers engine env a (threads ++ [.start (engine.program (.publish pub)).void]) := by
  refine ⟨?_, ?_, ?_, ?_⟩
  · rw [List.forall_mem_append, List.forall_mem_singleton]
    exact ⟨h.keeps, program_publishes pub⟩
  · rw [List.forall_mem_append, List.forall_mem_singleton]
    exact ⟨h.told, fun _ hn => absurd hn List.not_mem_nil⟩
  · rw [List.dropLast_concat]
    exact hall
  · rw [List.forall_mem_append, List.forall_mem_singleton]
    exact ⟨h.pending, fun _ _ => Pending.nil env a⟩

/-- The last publication has gone on. -/
theorem Publishers.last (h : Publishers engine env a (front ++ [t]))
    (hkeeps : t'.Keeps (Publishes engine) (fun _ => True)) (htold : Told env t'.past)
    (hpending : appends t'.past = [] → Pending env a' t'.past) :
    Publishers engine env a' (front ++ [t']) := by
  have hfinished : ∀ s ∈ front, s.finished = true := by
    simpa only [List.dropLast_concat] using h.finished
  refine ⟨?_, ?_, ?_, ?_⟩
  · rw [List.forall_mem_append, List.forall_mem_singleton]
    exact ⟨(List.forall_mem_append.mp h.keeps).1, hkeeps⟩
  · rw [List.forall_mem_append, List.forall_mem_singleton]
    exact ⟨(List.forall_mem_append.mp h.told).1, htold⟩
  · rw [List.dropLast_concat]
    exact hfinished
  · rw [List.forall_mem_append, List.forall_mem_singleton]
    refine ⟨fun s hs hunfinished => ?_, fun _ => hpending⟩
    rw [hfinished s hs] at hunfinished
    cases hunfinished

/-- What a publication does besides appending. -/
theorem Posts.admits {e : Effect} (h : Posts past e) (hne : ∀ msgs, e ≠ .store (.append msgs))
    (a : Scene) : a.Admits env registry q e ∧ (∀ msgs, e.call? ≠ some (.append msgs)) ∧
      ∀ req, e.call? ≠ some (.claim req) := by
  cases e with
  | clock | newID | route | notify =>
    exact ⟨trivial, by simp [Effect.call?], by simp [Effect.call?]⟩
  | store c =>
    cases c with
    | append msgs => exact absurd rfl (hne msgs)
    | appendHistory | saveDeadLetter =>
      exact ⟨trivial, by simp [Effect.call?], by simp [Effect.call?]⟩
    | _ => exact h.elim
  | _ => exact h.elim

/-- The batch of a publication. -/
theorem Pending.admits {msgs : List Message} (h : Pending env a past)
    (hp : Publishes engine past (.store (.append msgs))) (ht : Told env past) :
    a.Admits env registry q (.store (.append msgs)) := by
  obtain ⟨⟨now, hread, hqueued⟩, ⟨hids, -⟩, -⟩ := hp
  exact ⟨h.nodup.sublist hids, fun msg hm => h.fresh _ (hids.subset (List.mem_map_of_mem hm)), now,
    ht now hread, (h.late now hread).1, hqueued⟩

theorem Pending.sound {msgs : List Message} (h : Pending env a past) (hsound : a.Sound env)
    (hp : Publishes engine past (.store (.append msgs))) :
    Scene.Sound env { a with line := a.line.join q msgs } := by
  obtain ⟨⟨now, hread, hqueued⟩, ⟨hids, -⟩, -⟩ := hp
  refine ⟨?_, fun id hid => ?_⟩
  · rcases Line.join_latest hqueued with hl | hl
    · exact hl.trans_le hsound.latest
    · exact hl.trans_le (h.late now hread).2
  · rcases List.mem_append.mp hid with hid | hid
    · exact hsound.known id hid
    · exact h.used id (hids.subset hid)

end Publishers

theorem publishedBy_of_ne {e : Effect} (h : ∀ msgs, e ≠ .store (.append msgs)) (reply : e.Reply) :
    publishedBy q ⟨e, reply⟩ = [] := by
  unfold publishedBy
  split
  · rename_i heq
    exact absurd (Event.mk.inj heq).1 (h _)
  · rfl

/-! ### Steps -/

section Step
variable {r r' : Runtime σ} {a a' : Scene}

/-- The consumer has moved. -/
theorem Conveyed.passed (h : Conveyed engine B r a) (hmono : Monotone env.clock)
    (hsees : B.sees r'.world a') (hf : a.Frame a') (hthreads : r'.threads = r.threads)
    (hsingle : ∀ c ∈ r'.consumers, r'.consumers = [c])
    (hsteady : ∀ c ∈ r'.consumers, c.Steady env registry q)
    (hline : ticketIds (r'.consumers.flatMap Consumer.passage) ++ a'.line.waiting =
      ticketIds (r.consumers.flatMap Consumer.passage) ++ a.line.waiting) :
    Conveyed engine B r' a' := by
  have hpublished : r'.published q = r.published q := by
    rw [Runtime.published, hthreads, Runtime.published]
  refine ⟨hsees, h.sound.frame hmono hf, hthreads ▸ h.publishers.frame hmono hf, hsingle, hsteady,
    ?_, hpublished ▸ h.nodup, ?_⟩
  · rw [hpublished, hline, h.line]
  · rw [hpublished, hf.known]
    exact h.stored

variable (engine host) in
/-- The last publication makes a call. -/
structure Called (r r' : Runtime σ) (front : List EngineThread) (t t' : EngineThread) (e : Effect) :
    Prop where
  before : r.threads = front ++ [t]
  after : r'.threads = front ++ [t']
  consumers : r'.consumers = r.consumers
  world : r'.world = (host.perform e r.world).2
  unfinished : t.finished = false
  allowed : Publishes engine t.past e
  past : t'.past = t.past ++ [⟨e, (host.perform e r.world).1⟩]
  keeps : t'.Keeps (Publishes engine) (fun _ => True)

section Call
variable {front : List EngineThread} {t t' : EngineThread} {e : Effect}

theorem Called.mem (hc : Called engine host r r' front t t' e) : t ∈ r.threads := by
  simp [hc.before]

theorem Called.published (hc : Called engine host r r' front t t' e) : r'.published q =
    r.published q ++ publishedBy q ⟨e, (host.perform e r.world).1⟩ := by
  simp [Runtime.published, publishedIn, hc.before, hc.after, hc.past]

theorem Called.publishers (hc : Called engine host r r' front t t' e)
    (h : Publishers engine env a r.threads)
    (hshows : a.Shows env registry q e (host.perform e r.world).1 a')
    (hpending : appends t'.past = [] → Pending env a' t'.past) :
    Publishers engine env a' r'.threads := by
  have htold := (h.told t hc.mem).snoc hshows
  rw [hc.before] at h
  rw [hc.after]
  exact h.last hc.keeps (hc.past ▸ htold) hpending

/-- It appends its batch, and what it publishes on the queue joins the line. -/
theorem Conveyed.appended (h : Conveyed engine B r a) {msgs : List Message}
    (hc : Called engine host r r' front t t' (.store (.append msgs))) :
    ∃ a', Conveyed engine B r' a' := by
  have hpending := h.publishers.pending t hc.mem hc.unfinished (hc.allowed.2.2 msgs rfl)
  have hadmits : a.Admits env registry q (.store (.append msgs)) :=
    hpending.admits hc.allowed (h.publishers.told t hc.mem)
  obtain ⟨a', hshows, hsees⟩ := B.serves h.sees hadmits
  have hpublishers := hc.publishers h.publishers hshows (fun hnone => by
    rw [hc.past, appends_snoc] at hnone
    simp [isAppend] at hnone)
  have hpublished : r'.published q = _ := hc.published
  rw [← hc.world] at hsees
  refine ⟨a', ?_⟩
  rcases hshows.appended with ⟨hreply, rfl⟩ | ⟨⟨e, hreply⟩, rfl⟩
  · obtain ⟨hids, hfresh, -⟩ := hadmits
    have hnew : publishedBy q ⟨.store (.append msgs), .ok ()⟩ ⊆ msgs.map Message.id :=
      (List.filter_sublist.map _).subset
    rw [hreply] at hpublished
    refine ⟨hsees, hpending.sound h.sound hc.allowed, hpublishers, hc.consumers ▸ h.single,
      hc.consumers ▸ h.steady, ?_, ?_, ?_⟩
    · rw [hpublished, h.line, hc.consumers, List.append_assoc]
      rfl
    · rw [hpublished]
      refine h.nodup.append (hids.sublist (List.filter_sublist.map _)) (fun id hid hid' => ?_)
      obtain ⟨msg, hm, rfl⟩ := List.mem_map.mp (hnew hid')
      exact hfresh msg hm (h.stored _ hid)
    · rw [hpublished]
      intro id hid
      rcases List.mem_append.mp hid with hid | hid
      · exact List.mem_append_left _ (h.stored id hid)
      · exact List.mem_append_right _ (hnew hid)
  · have hnone : publishedBy q ⟨.store (.append msgs), .error e⟩ = [] := rfl
    rw [hreply, hnone, List.append_nil] at hpublished
    refine ⟨hsees, h.sound, hpublishers, hc.consumers ▸ h.single, hc.consumers ▸ h.steady, ?_,
      hpublished ▸ h.nodup, hpublished ▸ h.stored⟩
    rw [hpublished, h.line, hc.consumers]

/-- It does something else. -/
theorem Conveyed.posted (h : Conveyed engine B r a) (hinj : Function.Injective env.newID)
    (hmono : Monotone env.clock) (hc : Called engine host r r' front t t' e)
    (hne : ∀ msgs, e ≠ .store (.append msgs)) : ∃ a', Conveyed engine B r' a' := by
  obtain ⟨hadmits, hn, hclaim⟩ : a.Admits env registry q e ∧ _ := hc.allowed.1.admits hne a
  obtain ⟨a', hshows, hsees⟩ := B.serves h.sees hadmits
  have hf := hshows.frame hn
  have hpublishers := hc.publishers h.publishers hshows (fun hnone => by
    rw [hc.past] at hnone ⊢
    rw [appends_snoc] at hnone
    exact (h.publishers.pending t hc.mem hc.unfinished (List.append_eq_nil_iff.mp hnone).1).snoc
      h.sound hinj hmono hn hshows)
  have hpublished : r'.published q = r.published q := by
    rw [hc.published, publishedBy_of_ne hne, List.append_nil]
  rw [← hc.world] at hsees
  refine ⟨a', hsees, h.sound.frame hmono hf, hpublishers, hc.consumers ▸ h.single,
    hc.consumers ▸ h.steady, ?_, hpublished ▸ h.nodup, ?_⟩
  · rw [hpublished, h.line, hc.consumers, hshows.waiting hn hclaim]
  · rw [hpublished, hf.known]
    exact h.stored

end Call

/-- A thread goes on; only the last one can. -/
theorem Conveyed.step (h : Conveyed engine B r a) (hinj : Function.Injective env.newID)
    (hmono : Monotone env.clock) (i : ℕ) :
    ∃ a', Conveyed engine B (r.act host engine (.step i)) a' := by
  cases hi : r.threads[i]? with
  | none =>
    have hsame : r.act host engine (.step i) = r := by simp [Runtime.act, hi]
    rw [hsame]
    exact ⟨a, h⟩
  | some t =>
    have hact : r.act host engine (.step i) = { r with
        world := (t.step host.perform r.world).2
        threads := r.threads.set i (t.step host.perform r.world).1 } := by
      simp [Runtime.act, hi]
    have ht := List.mem_of_getElem? hi
    rcases (h.publishers.keeps t ht).step_cases host.perform r.world with
      ⟨-, hsame⟩ | ⟨e, hnext, hallowed, hpast, hworld, hkeeps⟩
    · obtain ⟨hlt, rfl⟩ := List.getElem?_eq_some_iff.mp hi
      rw [hact, hsame, List.set_getElem_self]
      exact ⟨a, h⟩
    · have hunfinished : t.finished = false := by
        rcases t with ⟨past, _ | _⟩
        · cases hnext
        · rfl
      have hlast : t ∉ r.threads.dropLast := by
        intro hm
        rw [h.publishers.finished t hm] at hunfinished
        cases hunfinished
      obtain ⟨front, hfront, hset⟩ := eq_append_of_notMem_dropLast hi hlast
      have hc : Called engine host r (r.act host engine (.step i)) front t
          (t.step host.perform r.world).1 e := by
        rw [hact]
        exact ⟨hfront, hset _, rfl, hworld, hunfinished, hallowed, hpast, hkeeps⟩
      by_cases happ : ∃ msgs, e = .store (.append msgs)
      · obtain ⟨msgs, rfl⟩ := happ
        exact h.appended hc
      · exact h.posted hinj hmono hc (fun msgs he => happ ⟨msgs, he⟩)

theorem new_steady {spec : ConsumerSpec} (hq : spec.queue = q) (hone : spec.concurrency ≤ 1)
    (timeout : Duration) :
    (Consumer.new (spec.withDefaults timeout)).Steady env registry q ∧
      (Consumer.new (spec.withDefaults timeout)).passage = [] := by
  obtain ⟨hpos, hprefetch⟩ := withDefaults_pos spec timeout
  have hworkers : (Consumer.new (spec.withDefaults timeout)).workers = [.idle] := by
    have hle : (spec.withDefaults timeout).concurrency ≤ 1 := by
      simp only [ConsumerSpec.withDefaults]
      split_ifs <;> omega
    rw [Consumer.new, le_antisymm hle hpos]
    rfl
  refine ⟨⟨hq, hprefetch, ⟨.idle, hworkers, trivial⟩, rfl, rfl, rfl, trivial⟩, ?_⟩
  rw [Consumer.passage, hworkers]
  rfl

theorem Conveyed.subscribe (h : Conveyed engine B r a) (hmono : Monotone env.clock)
    {spec : ConsumerSpec} (hq : spec.queue = q) (hone : spec.concurrency ≤ 1)
    (hnone : r.consumers = []) : Conveyed engine B (r.subscribe host spec) a := by
  unfold Runtime.subscribe
  split <;> rename_i hp
  · obtain ⟨a', hshows, hsees⟩ := B.performed h.sees hp trivial
    rw [hshows.queue_eq.2] at hsees
    exact h.passed hmono hsees (.refl a) rfl h.single h.steady rfl
  · rename_i queue w'
    obtain ⟨a', hshows, hsees⟩ := B.performed h.sees hp trivial
    rw [hshows.queue_eq.2] at hsees
    obtain ⟨hsteady, hpassage⟩ :
        (Consumer.new (spec.withDefaults queue.visibilityTimeout)).Steady env registry q ∧ _ :=
      new_steady hq hone queue.visibilityTimeout
    simp only [hnone, List.any_nil, Bool.false_eq_true, if_false, List.nil_append]
    refine h.passed hmono hsees (.refl a) rfl ?_ ?_ ?_
    · exact List.forall_mem_singleton.mpr rfl
    · exact List.forall_mem_singleton.mpr hsteady
    · rw [List.flatMap_singleton, hpassage, hnone]
      rfl

theorem Conveyed.move (h : Conveyed engine B r a) (hmono : Monotone env.clock) (j : ℕ)
    {m : Consumer.Move} (hm : Sequential q r (.move j m)) :
    ∃ a', Conveyed engine B (r.act host engine (.move j m)) a' := by
  cases hj : r.consumers[j]? with
  | none =>
    have hsame : r.act host engine (.move j m) = r := by simp [Runtime.act, hj]
    rw [hsame]
    exact ⟨a, h⟩
  | some c =>
    have hone := h.single c (List.mem_of_getElem? hj)
    have hsteady := h.steady c (List.mem_of_getElem? hj)
    have hrelays : ∃ a', Relays B c a (c.move host engine m r.world).1
        (c.move host engine m r.world).2 a' := by
      cases m with
      | dispatch branch =>
        rcases c.dispatch_cases host r.world branch with hsame | hs
        · rw [Consumer.move, hsame]
          exact Relays.alone h.sees ⟨hsteady, rfl⟩
        · exact hsteady.loopStep h.sees hs
      | work i outcome =>
        obtain rfl : outcome = none := hm
        exact hsteady.work h.sees i
      | unsubscribe | cancel | stop => exact hm.elim
    obtain ⟨a', hp⟩ := hrelays
    have hzero : j = 0 := by
      obtain ⟨hlt, -⟩ := List.getElem?_eq_some_iff.mp hj
      rw [hone, List.length_singleton] at hlt
      omega
    have hact : (r.act host engine (.move j m)).consumers = [(c.move host engine m r.world).1] := by
      simp only [Runtime.act, hj]
      rw [hone, hzero]
      rfl
    refine ⟨a', h.passed hmono ?_ hp.frame ?_ ?_ ?_ ?_⟩
    · simp only [Runtime.act, hj]
      exact hp.sees
    · simp only [Runtime.act, hj]
    · rw [hact]
      exact List.forall_mem_singleton.mpr rfl
    · rw [hact]
      exact List.forall_mem_singleton.mpr hp.steady
    · rw [hact, hone, List.flatMap_singleton, List.flatMap_singleton]
      exact hp.line

theorem Conveyed.act (h : Conveyed engine B r a) (hinj : Function.Injective env.newID)
    (hmono : Monotone env.clock) {act : Act} (hs : Sequential q r act) :
    ∃ a', Conveyed engine B (r.act host engine act) a' := by
  cases act with
  | start op =>
    cases op with
    | publish pub =>
      have hact : r.act host engine (.start (.publish pub)) = { r with
          threads := r.threads ++ [.start (engine.program (.publish pub)).void] } := rfl
      have hpublished :
          (r.act host engine (.start (.publish pub))).published q = r.published q := by
        simp [hact, Runtime.published, publishedIn, Thread.start]
      exact ⟨a, h.sees, h.sound, h.publishers.start hs pub, h.single, h.steady,
        hpublished.trans h.line, hpublished ▸ h.nodup, hpublished ▸ h.stored⟩
    | _ => exact hs.elim
  | step i => exact h.step hinj hmono i
  | subscribe spec =>
    obtain ⟨hq, hone, hnone⟩ := hs
    exact ⟨a, h.subscribe hmono hq hone (List.length_eq_zero_iff.mp hnone)⟩
  | move j m => exact h.move hmono j hs

end Step

/-- A run on a host that shows a line. -/
theorem ran_deliversInOrder (B : Backing host env registry q) (hinj : Function.Injective env.newID)
    (hmono : Monotone env.clock) {w : σ} (hw : B.sees w ⟨⟨[], [], env.clock 0⟩, 0, 0⟩)
    {acts : List Act}
    (hs : StepsMeet (Runtime.exec host engine) (Sequential q) (Runtime.init w) acts) :
    (Runtime.ran host engine w acts).DeliversInOrder q := by
  have hinit : Conveyed engine B (Runtime.init w) ⟨⟨[], [], env.clock 0⟩, 0, 0⟩ := by
    refine ⟨hw, ⟨le_rfl, ?_⟩, ⟨?_, ?_, ?_, ?_⟩, ?_, ?_, rfl, List.nodup_nil, ?_⟩ <;>
      exact fun _ hm => absurd hm List.not_mem_nil
  obtain ⟨a, h⟩ := Runtime.ran_rule host engine (I := fun r => ∃ a, Conveyed engine B r a)
    (fun r act hs ⟨a, h⟩ => h.act hinj hmono hs) ⟨_, hinit⟩ hs
  exact h.inOrder

end Run

/-- With either driver, the handler of a single sequential consumer is called for the messages of
its queue in the order in which they were published, and once for each. -/
theorem consumer_in_order (engine : Engine) (env : Env) (registry : Registry) (json : JsonMaps)
    (q : String) (hinj : Function.Injective env.newID) (hmono : Monotone env.clock)
    (acts : List Act) :
    (StepsMeet (Runtime.exec (memoryHost env) engine) (Sequential q)
        (Runtime.init (World.init registry)) acts →
      (Runtime.ran (memoryHost env) engine (World.init registry) acts).DeliversInOrder q) ∧
    (Datable env registry q →
      StepsMeet (Runtime.exec (sqliteHost json env) engine) (Sequential q)
        (Runtime.init (SqliteWorld.init registry)) acts →
      (Runtime.ran (sqliteHost json env) engine (SqliteWorld.init registry) acts).DeliversInOrder
        q) := by
  constructor
  · intro hs
    exact ran_deliversInOrder (memoryBacking env registry q) hinj hmono
      ⟨new_backs q _, rfl, rfl, rfl⟩ hs
  · intro hd hs
    exact ran_deliversInOrder (sqliteBacking json hd) hinj hmono
      ⟨new_backsOnDisk json q _, rfl, rfl, rfl⟩ hs

/-- Two orders are published; the first is acknowledged when the second comes in. -/
def sequentialRun : List Act := List.flatten [
  [.subscribe ⟨"billing", "orders", 1, 2, 0⟩], ordered 0,
  List.replicate 12 (.move 0 (.dispatch .send)), List.replicate 9 (.move 0 (.work 0 none)),
  ordered 1, [.move 0 (.dispatch .signal)], List.replicate 12 (.move 0 (.dispatch .send)),
  List.replicate 4 (.move 0 (.work 0 none))]

/-- Also if the clock stands still, so that both orders become available at once. -/
theorem consumer_in_order_sequentialRun :
    (let r := Runtime.ran (memoryHost (ordersEnv [])) (ordersEngine 3 (by decide))
      (World.init (ordersRegistry 3)) sequentialRun
    r.DeliversInOrder "orders" ∧ r.consumers.map (fun c => ticketIds c.invoked) = [["|", "||"]]) ∧
    (let r := Runtime.ran (sqliteHost Sqlite.tally (ordersEnv [])) (ordersEngine 3 (by decide))
      (SqliteWorld.init (ordersRegistry 3)) sequentialRun
    r.DeliversInOrder "orders" ∧
      r.consumers.map (fun c => ticketIds c.invoked) = [["|", "||"]]) := by
  have hmono : Monotone (ordersEnv []).clock := fun _ _ _ => le_rfl
  have hdatable : Datable (ordersEnv []) (ordersRegistry 3) "orders" := by
    refine ⟨fun n => (by decide : Sqlite.InYears 1000), ?_⟩
    rintro n d ⟨queue, hqueue, rfl⟩
    have hfound : (ordersRegistry 3).queue "orders" =
      .ok ⟨⟨"orders", true, 3, 30, ""⟩, 0⟩ := by decide +kernel
    rw [hfound] at hqueue
    obtain rfl := Except.ok.inj hqueue
    exact (by decide : Sqlite.InYears 1030 ∧ (1030 : ℤ) ≠ zeroTime)
  have h := consumer_in_order (ordersEngine 3 (by decide)) (ordersEnv []) (ordersRegistry 3)
    Sqlite.tally "orders" (ordersEnv_injective []) hmono sequentialRun
  exact ⟨⟨h.1 (by decide +kernel), by decide +kernel⟩,
    ⟨h.2 hdatable (by decide +kernel), by decide +kernel⟩⟩

end RabbitmqLite.Engine
