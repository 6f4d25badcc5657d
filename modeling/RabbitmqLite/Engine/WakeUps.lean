import RabbitmqLite.Engine.Attention

/-! # No wake-up is lost

A write that makes a message available is followed by a notification, and a
loop that takes the token asks for messages until it finds none. The token is
lost if the loop that took it, or that has given a message back, ends without
asking again: the other loops of the queue stay parked.
-/

namespace RabbitmqLite.Engine
open Broker Collections Storage Atomic

/-! ## The invariant -/

/-- A message that is waiting is announced, or will be announced by the operation that made it
available, or a loop of its queue looks after it. -/
def Cover (r : Runtime World) (id : String) (msg : Message) : Prop :=
  r.world.signals.lookup msg.queue = some true ∨
    (∃ t ∈ r.threads, ∃ event ∈ unannounced t.past, id ∈ brought event) ∨
      ∃ c ∈ r.consumers, c.spec.queue = msg.queue ∧ c.Serves msg.availableAt

structure Alert (env : Env) (engine : Engine) (r : Runtime World) : Prop where
  sane : Sane env r.world
  threads : ∀ t ∈ r.threads,
    t.Keeps (Conduct engine) (fun past => unannounced past = []) ∧ Informed env r.world t.past
  consumers : ∀ c ∈ r.consumers, c.Attends env r.world
  covered : ∀ id msg, Waiting r.world id msg → ∀ c ∈ r.consumers, c.spec.queue = msg.queue →
    c.Misses msg.availableAt → Cover r id msg

variable {env : Env} {engine : Engine} {r : Runtime World}

theorem Consumer.Misses.not_start {c : Consumer} {available : Time} (h : c.Misses available) :
    c.loop ≠ .start := by
  rcases h with hl | ⟨lease, now, hl, -⟩ <;> simp [hl]

/-! ## Operations -/

theorem unannounced_subset (past : List EngineEvent) : unannounced past ⊆ past := by
  induction past using List.reverseRecOn with
  | nil => exact fun _ h => h
  | append_singleton past event ih =>
    intro x hx
    rw [unannounced_snoc] at hx
    split_ifs at hx
    · cases hx
    · rcases List.mem_append.mp hx with hx | hx
      · exact List.mem_append_left _ (ih hx)
      · exact List.mem_append_right _ hx
    · exact List.mem_append_left _ (ih hx)

theorem Known.unique {w : World} {id : String} {a b : Content} (ha : Known w id a)
    (hb : Known w id b) : a = b := by
  obtain ⟨e, he, rfl⟩ := ha
  obtain ⟨e', he', rfl⟩ := hb
  rw [he] at he'
  rw [Option.some.inj he']

/-- The queues an operation announces are those of the messages it has made available. -/
theorem Waiting.announced {w : World} {id : String} {msg : Message} (h : Waiting w id msg)
    {past : List EngineEvent} (hi : Informed env w past) {event : EngineEvent} (he : event ∈ past)
    (hid : id ∈ brought event) {queues : List String} (ha : AnnouncedBy past queues event) :
    msg.queue ∈ queues := by
  unfold brought at hid
  split at hid
  · obtain ⟨m, hm, rfl⟩ := List.mem_map.mp hid
    have hsame := h.known.unique (hi.written _ he m hm)
    rw [show msg.queue = m.queue from congrArg Content.queue hsame]
    exact ha m hm
  · rw [List.mem_singleton] at hid
    subst hid
    obtain ⟨m, hm, hq⟩ := ha
    have hsame := h.known.unique (hi.told _ m hm)
    rwa [show msg.queue = m.queue from congrArg Content.queue hsame]
  · cases hid

/-- An operation starts. -/
theorem Alert.start (h : Alert env engine r) {t : EngineThread}
    (ht : t.Keeps (Conduct engine) (fun past => unannounced past = []))
    (hi : Informed env r.world t.past) :
    Alert env engine { r with threads := r.threads ++ [t] } where
  sane := h.sane
  threads := by
    intro t' ht'
    rcases List.mem_append.mp ht' with ht' | ht'
    · exact h.threads t' ht'
    · rw [List.mem_singleton.mp ht']
      exact ⟨ht, hi⟩
  consumers := h.consumers
  covered := by
    intro id msg hwait c hc hq hm
    rcases h.covered id msg hwait c hc hq hm with htoken | ⟨t', ht', howed⟩ | hserved
    · exact Or.inl htoken
    · exact Or.inr (Or.inl ⟨t', List.mem_append_left _ ht', howed⟩)
    · exact Or.inr (Or.inr hserved)

/-- What an operation owes after an effect: a notification settles all, and a write adds to
it. -/
theorem mem_unannounced_snoc {past : List EngineEvent} {event owed : EngineEvent}
    (hn : isNotify event = false) (h : owed ∈ unannounced past) :
    owed ∈ unannounced (past ++ [event]) := by
  rw [unannounced_snoc, if_neg (by simp [hn])]
  split_ifs
  · exact List.mem_append_left _ h
  · exact h

/-- An operation that owes a notification for a waiting message sends it, or owes it still. -/
theorem Waiting.sent_or_owed {w : World} {id : String} {msg : Message} (h : Waiting w id msg)
    {past : List EngineEvent} (hi : Informed env w past) {e : Effect}
    (ha : Conduct engine past e) {owed : EngineEvent} (howed : owed ∈ unannounced past)
    (hid : id ∈ brought owed) (hchannel : (w.signals.lookup msg.queue).isSome) :
    (perform env e w).2.signals.lookup msg.queue = some true ∨
      owed ∈ unannounced (past ++ [⟨e, (perform env e w).1⟩]) := by
  cases hn : isNotify ⟨e, (perform env e w).1⟩ with
  | false => exact Or.inr (mem_unannounced_snoc hn howed)
  | true =>
    left
    cases e with
    | notify queues =>
      have hannounced : msg.queue ∈ queues :=
        h.announced hi (unannounced_subset _ howed) hid (ha owed howed)
      obtain ⟨token, hsome⟩ := Option.isSome_iff_exists.mp hchannel
      simp only [perform, lookup_signals, if_pos hannounced, hsome, Option.map_some]
    | _ => cases hn

/-- An operation makes its next effect. -/
theorem Alert.step (hinj : Function.Injective env.newID) (h : Alert env engine r) {i : ℕ}
    {t : EngineThread} (hi : r.threads[i]? = some t)
    (hpurge : ∀ e, t.next? = some e → isPurge e = false) :
    Alert env engine { r with
      world := (t.step (perform env) r.world).2
      threads := r.threads.set i (t.step (perform env) r.world).1 } := by
  obtain ⟨front, back, hl, -, hset⟩ := exists_split_at hi
  have hmem : t ∈ r.threads := List.mem_of_getElem? hi
  obtain ⟨hkeeps, hinformed⟩ := h.threads t hmem
  rcases hkeeps.step_cases (perform env) r.world with
    ⟨-, hsame⟩ | ⟨e, hnext, hallowed, hpast, hworld, hkeeps'⟩
  · rw [hsame, hset, ← hl]
    exact h
  · generalize t.step (perform env) r.world = s at hpast hworld hkeeps'
    obtain ⟨t', w'⟩ := s
    dsimp only at hpast hworld hkeeps' ⊢
    have hproper := hallowed.proper hinformed (hpurge e hnext)
    have hturn : Turn env r.world w' := by
      rw [hworld]
      exact Turn.performed h.sane (e := e) rfl hproper
    refine ⟨hturn.sane, fun t₂ ht₂ => ?_, fun c hc => (h.consumers c hc).onward hturn,
      fun id msg hwait c hc hq hmisses => ?_⟩
    · rcases List.mem_or_eq_of_mem_set ht₂ with ht₂ | rfl
      · exact ⟨(h.threads t₂ ht₂).1, (h.threads t₂ ht₂).2.onward hturn.onward⟩
      · refine ⟨hkeeps', ?_⟩
        rw [hpast, hworld]
        exact hinformed.step hinj h.sane hproper
    · have hnew : t' ∈ r.threads.set i t' := by
        rw [hset]
        simp
      rw [hworld] at hwait
      rcases hproper.waiting h.sane.indexed.keyed hwait with hold | ⟨-, hid⟩
      · rcases h.covered id msg hold c hc hq hmisses with htoken | ⟨t₂, ht₂, event, howed, hid⟩ |
            hserved
        · left
          rw [hworld]
          exact (perform_signals env e r.world msg.queue).1 htoken
        · by_cases heq : t₂ = t
          · subst heq
            have hchannel := (h.consumers c hc).channel.resolve_left hmisses.not_start
            rw [hq] at hchannel
            rw [hworld]
            rcases hold.sent_or_owed hinformed hallowed howed hid hchannel with hsent | howed
            · exact Or.inl hsent
            · rw [← hpast] at howed
              exact Or.inr (Or.inl ⟨t', hnew, event, howed, hid⟩)
          · refine Or.inr (Or.inl ⟨t₂, ?_, event, howed, hid⟩)
            rw [hl] at ht₂
            rw [hset]
            simp only [List.mem_append, List.mem_cons] at ht₂ ⊢
            exact ht₂.imp_right (fun hb => Or.inr (hb.resolve_left heq))
        · exact Or.inr (Or.inr hserved)
      · refine Or.inr (Or.inl ⟨t', hnew, ⟨e, (perform env e r.world).1⟩, ?_, hid⟩)
        obtain ⟨hwrite, hn⟩ := isWrite_of_brought hid
        rw [hpast, unannounced_snoc, hn, hwrite]
        simp

/-! ## Consumers -/

/-- A consumer is subscribed. -/
theorem Alert.admit (h : Alert env engine r) {c : Consumer} (hc : c.Attends env r.world)
    (hstart : c.loop = .start) :
    Alert env engine { r with consumers := r.consumers ++ [c] } where
  sane := h.sane
  threads := h.threads
  consumers := by
    intro c' hc'
    rcases List.mem_append.mp hc' with hc' | hc'
    · exact h.consumers c' hc'
    · rw [List.mem_singleton.mp hc']
      exact hc
  covered := by
    intro id msg hwait c' hc' hq hm
    rcases List.mem_append.mp hc' with hc' | hc'
    · rcases h.covered id msg hwait c' hc' hq hm with htoken | howed | ⟨c₂, hc₂, hserves⟩
      · exact Or.inl htoken
      · exact Or.inr (Or.inl howed)
      · exact Or.inr (Or.inr ⟨c₂, List.mem_append_left _ hc₂, hserves⟩)
    · rw [List.mem_singleton.mp hc'] at hm
      exact absurd hstart hm.not_start

theorem Alert.subscribe (h : Alert env engine r) (spec : ConsumerSpec) :
    Alert env engine (r.subscribe (memoryHost env) spec) := by
  unfold Runtime.subscribe
  simp only [memoryHost, perform]
  cases hqueue : r.world.registry.queue spec.queue with
  | error e => exact h
  | ok queue =>
    dsimp only
    split_ifs
    · exact h
    · exact h.admit (Consumer.new_attends (withDefaults_pos spec _).2 hqueue) rfl

/-- The loop ends although it has taken a token or given a message back. -/
def Consumer.Defaults (c : Consumer) : Prop :=
  c.owing = true ∧ c.cancelled = true ∧ c.loop = .check

theorem Cover.transfer {id : String} {msg : Message} (h : Cover r id msg) {r' : Runtime World}
    (htoken : r.world.signals.lookup msg.queue = some true →
      r'.world.signals.lookup msg.queue = some true) (hthreads : r'.threads = r.threads)
    (hserves : ∀ c ∈ r.consumers, c.spec.queue = msg.queue → c.Serves msg.availableAt →
      ∃ c' ∈ r'.consumers, c'.spec.queue = msg.queue ∧ c'.Serves msg.availableAt) :
    Cover r' id msg := by
  rcases h with h | h | ⟨c, hc, hq, hs⟩
  · exact Or.inl (htoken h)
  · exact Or.inr (Or.inl (hthreads ▸ h))
  · exact Or.inr (Or.inr (hserves c hc hq hs))

/-- A consumer moves. If its loop ends in debt, no other loop of its queue is running. -/
theorem Alert.move (hmono : Monotone env.clock) (h : Alert env engine r) {i : ℕ}
    {c c' : Consumer} {w' : World} (hi : r.consumers[i]? = some c)
    (hs : MoveStep (memoryHost env) engine c r.world c' w')
    (hdebt : c.Defaults → c'.loop = .exited → ∀ other ∈ r.consumers.eraseIdx i,
      other.spec.queue = c.spec.queue → other.loop = .exited) :
    Alert env engine { r with world := w', consumers := r.consumers.set i c' } := by
  obtain ⟨front, back, hl, herase, hset⟩ := exists_split_at hi
  have hmem : c ∈ r.consumers := List.mem_of_getElem? hi
  obtain ⟨hturn, hattends, hspec, hpasses⟩ := (h.consumers c hmem).moveStep h.sane hmono hs
  have hothers : ∀ c₂ ∈ r.consumers.set i c', c₂ = c' ∨ c₂ ∈ r.consumers.eraseIdx i := by
    intro c₂ hc₂
    rw [hset] at hc₂
    rw [herase]
    simp only [List.mem_append, List.mem_cons] at hc₂ ⊢
    tauto
  have hkept : ∀ c₂ ∈ r.consumers.eraseIdx i, c₂ ∈ r.consumers ∧ c₂ ∈ r.consumers.set i c' := by
    intro c₂ hc₂
    rw [herase] at hc₂
    rw [hset, hl]
    simp only [List.mem_append, List.mem_cons] at hc₂ ⊢
    tauto
  refine ⟨hturn.sane, fun t ht => ?_, fun c₂ hc₂ => ?_, fun id msg hwait c₂ hc₂ hq hm => ?_⟩
  · exact ⟨(h.threads t ht).1, (h.threads t ht).2.onward hturn.onward⟩
  · rcases hothers c₂ hc₂ with rfl | hc₂
    · exact hattends
    · exact (h.consumers c₂ (hkept c₂ hc₂).1).onward hturn
  · have hnew : c' ∈ r.consumers.set i c' := by
      rw [hset]
      simp
    have hold : ∀ c₃ ∈ r.consumers, c₃ = c ∨ c₃ ∈ r.consumers.eraseIdx i := by
      intro c₃ hc₃
      rw [hl] at hc₃
      rw [herase]
      simp only [List.mem_append, List.mem_cons] at hc₃ ⊢
      tauto
    rcases hpasses with ⟨howing, hcancelled, hcheck, hexit, rfl⟩ | hpasses
    · rcases hothers c₂ hc₂ with rfl | hc₂
      · rcases hm with hl | ⟨lease, now, hl, -⟩ <;> rw [hexit] at hl <;> cases hl
      · by_cases hown : c.spec.queue = msg.queue
        · have hexited := hdebt ⟨howing, hcancelled, hcheck⟩ hexit c₂ hc₂ (hq.trans hown.symm)
          rcases hm with hl | ⟨lease, now, hl, -⟩ <;> rw [hexited] at hl <;> cases hl
        · refine (h.covered id msg hwait c₂ (hkept c₂ hc₂).1 hq hm).transfer (fun ht => ht) rfl ?_
          intro c₃ hc₃ hq₃ hs₃
          rcases hold c₃ hc₃ with rfl | hc₃
          · exact absurd hq₃ hown
          · exact ⟨c₃, (hkept c₃ hc₃).2, hq₃, hs₃⟩
    · rcases hpasses id msg hwait with ⟨hown, hserves⟩ | hp
      · exact Or.inr (Or.inr ⟨c', hnew, hspec ▸ hown, hserves⟩)
      · have hcover : Cover r id msg := by
          rcases hothers c₂ hc₂ with rfl | hc₂
          · rw [hspec] at hq
            exact h.covered id msg hp.waiting c hmem hq (hp.misses hq hm)
          · exact h.covered id msg hp.waiting c₂ (hkept c₂ hc₂).1 hq hm
        refine hcover.transfer hp.token rfl ?_
        intro c₃ hc₃ hq₃ hs₃
        rcases hold c₃ hc₃ with rfl | hc₃
        · exact ⟨c', hnew, hspec ▸ hq₃, hp.serves hq₃ hs₃⟩
        · exact ⟨c₃, (hkept c₃ hc₃).2, hq₃, hs₃⟩

/-! ## Runs -/

instance (c : Consumer) : Decidable c.Defaults := inferInstanceAs (Decidable (_ ∧ _ ∧ _))

/-- No queue is purged, and a loop that ends in debt is the last one of its queue. -/
def Dutiful (r : Runtime World) : Act → Prop
  | .step i => ∀ t ∈ r.threads[i]?, ∀ e ∈ t.next?, isPurge e = false
  | .move i (.dispatch _) => ∀ c ∈ r.consumers[i]?, c.Defaults →
      ∀ other ∈ r.consumers.eraseIdx i, other.spec.queue = c.spec.queue → other.loop = .exited
  | _ => True

instance (r : Runtime World) : (a : Act) → Decidable (Dutiful r a)
  | .step _ | .move _ (.dispatch _) => by
    dsimp only [Dutiful]
    infer_instance
  | .start _ | .subscribe _ | .move _ .unsubscribe | .move _ .cancel | .move _ .stop
  | .move _ (.work _ _) => .isTrue trivial

theorem Alert.act (hmono : Monotone env.clock) (hinj : Function.Injective env.newID)
    (h : Alert env engine r) {a : Act} (hd : Dutiful r a) :
    Alert env engine (r.act (memoryHost env) engine a) := by
  cases a with
  | start op =>
    simp only [Runtime.act]
    split_ifs with hop
    · refine h.start ?_ (Informed.nil env r.world)
      apply (program_obeys op).void.mono
      rintro _ past ⟨_, hpost⟩
      apply hpost
      rintro consumer rfl
      cases hop
    · exact h
  | step i =>
    simp only [Runtime.act]
    cases hi : r.threads[i]? with
    | none => exact h
    | some t => exact h.step hinj hi (fun e he => hd t hi e he)
  | subscribe spec => exact h.subscribe spec
  | move i m =>
    simp only [Runtime.act]
    cases hi : r.consumers[i]? with
    | none => exact h
    | some c =>
      refine h.move hmono hi (Consumer.move_cases (memoryHost env) engine m c r.world) ?_
      intro hdefaults hexit
      cases m with
      | dispatch branch => exact hd c hi hdefaults
      | _ =>
        rw [Consumer.move_loop _ _ (by simp), hdefaults.2.2] at hexit
        cases hexit

theorem init_alert (env : Env) (engine : Engine) (registry : Registry) :
    Alert env engine (Runtime.init (World.init registry)) where
  sane := init_sane env registry
  threads := fun _ h => absurd h List.not_mem_nil
  consumers := fun _ h => absurd h List.not_mem_nil
  covered := fun _ _ _ _ h => absurd h List.not_mem_nil

/-- If no operation is between its write and its notification, some loop of the queue is running
and all of them are parked, then a token is in the channel if a message is queued and available
by now. -/
def Awaited (env : Env) (r : Runtime World) (queue : String) : Prop :=
  (∀ t ∈ r.threads, t.finished = false → unannounced t.past = []) →
    (∃ c ∈ r.consumers, c.spec.queue = queue ∧ c.loop ≠ .exited) →
    (∀ c ∈ r.consumers, c.spec.queue = queue → c.loop = .exited ∨ c.loop = .wait) →
    (∃ id msg, Waiting r.world id msg ∧ msg.queue = queue ∧
      msg.availableAt ≤ env.clock r.world.ticks) →
      r.world.signals.lookup queue = some true

theorem Alert.awaited (h : Alert env engine r) (queue : String) : Awaited env r queue := by
  rintro hannounced ⟨c, hc, hq, hrunning⟩ hparked ⟨id, msg, hwait, rfl, -⟩
  have hmisses : c.Misses msg.availableAt := Or.inl ((hparked c hc hq).resolve_left hrunning)
  rcases h.covered id msg hwait c hc hq hmisses with htoken | ⟨t, ht, event, howed, -⟩ |
      ⟨c₂, hc₂, hq₂, -, hwaits, hexited, -⟩
  · exact htoken
  · have hnone : unannounced t.past = [] := by
      cases hf : t.finished with
      | true => exact (h.threads t ht).1.of_finished hf
      | false => exact hannounced t ht hf
    rw [hnone] at howed
    cases howed
  · exact ((hparked c₂ hc₂ hq₂).elim hexited hwaits).elim

/-- No wake-up is lost, unless a loop ends in debt while another loop of its queue is running. -/
theorem no_wakeup_lost (engine : Engine) (env : Env) (hmono : Monotone env.clock)
    (hinj : Function.Injective env.newID) (registry : Registry) (acts : List Act)
    (hd : StepsMeet (Runtime.exec (memoryHost env) engine) Dutiful
      (Runtime.init (World.init registry)) acts) (queue : String) :
    Awaited env (Runtime.ran (memoryHost env) engine (World.init registry) acts) queue :=
  (Runtime.ran_rule (memoryHost env) engine (I := Alert env engine)
    (fun _ _ hd h => h.act hmono hinj hd) (init_alert env engine registry) hd).awaited queue

/-- Two consumers are parked when an order is published. -/
def parkedRun : List Act := List.flatten [
  [.subscribe ⟨"billing", "orders", 1, 1, 0⟩, .subscribe ⟨"shipping", "orders", 1, 1, 0⟩],
  List.replicate 5 (.move 0 (.dispatch .send)), List.replicate 5 (.move 1 (.dispatch .send)),
  ordered 0]

/-- One of them is stopped while it is parked. -/
theorem no_wakeup_lost_parkedRun :
    Awaited steadyEnv (Runtime.ran (memoryHost steadyEnv) (ordersEngine 3 (by decide))
      (World.init (ordersRegistry 3)) (parkedRun ++
        [.move 0 .cancel, .move 0 (.dispatch .done), .move 0 (.dispatch .done)])) "orders" :=
  no_wakeup_lost _ _ steadyEnv_monotone (ordersEnv_injective []) _ _ (by decide +kernel) _

/-- The consumer that takes the token is cancelled: its loop ends, and the other one stays
parked although the order is queued. -/
theorem no_wakeup_lost_cancelled :
    ¬ Awaited steadyEnv (Runtime.ran (memoryHost steadyEnv) (ordersEngine 3 (by decide))
      (World.init (ordersRegistry 3)) (parkedRun ++
        [.move 0 (.dispatch .signal), .move 0 .cancel, .move 0 (.dispatch .done)])) "orders" := by
  intro h
  have hqueued : ((Runtime.ran (memoryHost steadyEnv) (ordersEngine 3 (by decide))
      (World.init (ordersRegistry 3)) (parkedRun ++ [.move 0 (.dispatch .signal), .move 0 .cancel,
        .move 0 (.dispatch .done)])).world.store.messages.lookup "|").map
          (fun e => (e.msg.queue, e.msg.state, e.msg.availableAt)) =
            some ("orders", .queued, 20) := by decide +kernel
  obtain ⟨e, he, hfields⟩ := Option.map_eq_some_iff.mp hqueued
  simp only [Prod.mk.injEq] at hfields
  obtain ⟨hq, hs, ha⟩ := hfields
  have htoken := h (by decide +kernel) (by decide +kernel) (by decide +kernel)
    ⟨"|", e.msg, ⟨e, he, rfl, hs⟩, hq, by rw [ha]; decide +kernel⟩
  revert htoken
  decide +kernel

end RabbitmqLite.Engine
