import RabbitmqLite.Engine.Availability

/-! # Loops and their tokens

A queue has one channel with room for one token, shared by its dispatch loops.
A loop that takes the token looks after all messages the queue has by then, and
so does a loop that gives a message back, unless it ends first.
-/

namespace RabbitmqLite.Engine
open Broker Collections Storage Atomic

/-! ## Tokens -/

theorem lookup_signal (signals : Map String Bool) (queue q : String) :
    (signal signals queue).lookup q =
      if q = queue then (signals.lookup q).map (fun _ => true) else signals.lookup q := by
  unfold signal
  cases h : signals.lookup queue with
  | none =>
    split_ifs with hq
    · rw [hq, h]
      rfl
    · rfl
  | some token =>
    split_ifs with hq
    · rw [hq, h]
      simp
    · simp [Finmap.lookup_insert_of_ne signals hq]

theorem lookup_signals (signals : Map String Bool) (queues : List String) (q : String) :
    (queues.foldl signal signals).lookup q =
      if q ∈ queues then (signals.lookup q).map (fun _ => true) else signals.lookup q := by
  induction queues generalizing signals with
  | nil => rfl
  | cons queue queues ih =>
    rw [List.foldl_cons, ih, lookup_signal]
    by_cases hq : q = queue <;> by_cases hm : q ∈ queues <;>
      simp [hq, hm, Function.comp_def]

/-- No effect takes a token away or closes a channel. -/
theorem perform_signals (env : Env) (e : Effect) (w : World) (q : String) :
    (w.signals.lookup q = some true → (perform env e w).2.signals.lookup q = some true) ∧
      ((w.signals.lookup q).isSome → ((perform env e w).2.signals.lookup q).isSome) := by
  cases e with
  | notify queues =>
    simp only [perform, lookup_signals]
    split_ifs
    · exact ⟨fun h => by rw [h]; rfl, fun h => by simpa using h⟩
    · exact ⟨id, id⟩
  | submit | receive =>
    simp only [perform]
    split <;> exact ⟨id, id⟩
  | _ => exact ⟨id, id⟩

theorem openSignal_signals (queue : String) (w : World) (q : String) :
    (w.openSignal queue).signals.lookup q =
      if q = queue then some ((w.signals.lookup q).getD false) else w.signals.lookup q := by
  unfold World.openSignal
  cases h : w.signals.lookup queue with
  | none =>
    by_cases hq : q = queue
    · subst hq
      simp [h]
    · simp [hq]
  | some token =>
    by_cases hq : q = queue
    · subst hq
      simp [h]
    · simp [hq]

theorem takeSignal_eq {queue : String} {w w' : World} (h : w.takeSignal queue = some w') :
    w' = { w with signals := w.signals.insert queue false } := by
  unfold World.takeSignal at h
  split_ifs at h
  exact (Option.some.inj h).symm

/-! ## The worlds between -/

/-- One step to a world in order, in which the facts that last are kept. -/
structure Turn (env : Env) (w w' : World) : Prop where
  sane : Sane env w'
  onward : Onward w w'
  channels : ∀ q, (w.signals.lookup q).isSome → (w'.signals.lookup q).isSome

theorem Sane.of_signals {env : Env} {w : World} (h : Sane env w) (signals : Map String Bool) :
    Sane env { w with signals := signals } :=
  ⟨h.indexed, h.opened, h.tasks, h.available⟩

theorem Turn.refl {env : Env} {w : World} (h : Sane env w) : Turn env w w :=
  ⟨h, Onward.refl w, fun _ => id⟩

theorem Turn.performed {env : Env} {w w' : World} (hw : Sane env w) {e : Effect}
    {reply : e.Reply} (hp : (memoryHost env).perform e w = (reply, w')) (h : Proper env w e) :
    Turn env w w' := by
  rw [← (memoryHost_perform hp).2]
  exact ⟨h.sane hw, h.onward hw.indexed.keyed, fun q => (perform_signals env e w q).2⟩

theorem Turn.of_signals {env : Env} {w : World} (hw : Sane env w) (signals : Map String Bool)
    (hc : ∀ q, (w.signals.lookup q).isSome → (signals.lookup q).isSome) :
    Turn env w { w with signals := signals } :=
  ⟨hw.of_signals signals, Onward.of_store le_rfl le_rfl rfl rfl, hc⟩

theorem Turn.opened {env : Env} {w : World} (hw : Sane env w) (queue : String) :
    Turn env w (w.openSignal queue) := by
  have heq : w.openSignal queue = { w with signals := (w.openSignal queue).signals } := by
    unfold World.openSignal
    split <;> rfl
  rw [heq]
  refine Turn.of_signals hw _ (fun q hq => ?_)
  rw [openSignal_signals]
  split_ifs
  · rfl
  · exact hq

theorem Turn.taken {env : Env} {w w' : World} (hw : Sane env w) {queue : String}
    (h : w.takeSignal queue = some w') : Turn env w w' := by
  rw [takeSignal_eq h]
  refine Turn.of_signals hw _ (fun q hq => ?_)
  by_cases hne : q = queue
  · subst hne
    simp
  · rwa [Finmap.lookup_insert_of_ne _ hne]

/-! ## The loops -/

namespace Consumer

/-- The loop is parked, or about to ask for messages that were available earlier. -/
def Misses (c : Consumer) (available : Time) : Prop :=
  c.loop = .wait ∨ ∃ lease now, c.loop = .claim lease now ∧ now < available

/-- The loop has taken a token or given a message back, and will find what is available. -/
def Serves (c : Consumer) (available : Time) : Prop :=
  c.owing = true ∧ c.loop ≠ .wait ∧ c.loop ≠ .exited ∧
    ∀ lease now, c.loop = .claim lease now → available ≤ now

/-- The invariant of a consumer. -/
structure Attends (env : Env) (w : World) (c : Consumer) : Prop where
  ending : c.Ending
  prefetch : 1 ≤ c.spec.prefetch
  declared : ∃ queue, w.registry.queue c.spec.queue = .ok queue
  channel : c.loop = .start ∨ (w.signals.lookup c.spec.queue).isSome
  unrefused : c.loop ≠ .refused
  unpanicked : c.loop ≠ .panicked
  batch : ∀ t ∈ c.loop.batch, ∃ content, Known w t.1.id content ∧ content.queue = c.spec.queue
  stamped : ∀ t rest now, c.loop = .release t rest now → Read env w now
  completing : ∀ t thread, .completing t thread ∈ c.workers →
    thread.Keeps (Completes t.1.id) (fun _ => True)

variable {env : Env} {c c' : Consumer} {w w' : World}

theorem Attends.onward (h : c.Attends env w) (ht : Turn env w w') : c.Attends env w' where
  ending := h.ending
  prefetch := h.prefetch
  declared := by
    rw [ht.onward.registry]
    exact h.declared
  channel := h.channel.imp_right (ht.channels _)
  unrefused := h.unrefused
  unpanicked := h.unpanicked
  batch := by
    intro t hm
    obtain ⟨content, hk, hq⟩ := h.batch t hm
    exact ⟨content, ht.onward.kept _ _ hk, hq⟩
  stamped := fun t rest now hl => (h.stamped t rest now hl).onward ht.onward
  completing := h.completing

/-- The loop moves on, and workers and settings stay as they are. -/
theorem Attends.advance (h : c.Attends env w) (ht : Turn env w w') (ha : c.Alongside c')
    (hexited : c.loop ≠ .exited)
    (hchannel : c.loop = .start → (w'.signals.lookup c.spec.queue).isSome)
    (hrefused : c'.loop ≠ .refused) (hpanicked : c'.loop ≠ .panicked)
    (hbatch : ∀ t ∈ c'.loop.batch, ∃ content, Known w' t.1.id content ∧
      content.queue = c.spec.queue)
    (hstamped : ∀ t rest now, c'.loop = .release t rest now → Read env w' now) :
    c'.Attends env w' where
  ending := h.ending.turn hexited ha
  prefetch := by
    rw [ha.spec]
    exact h.prefetch
  declared := by
    rw [ha.spec, ht.onward.registry]
    exact h.declared
  channel := by
    rw [ha.spec]
    exact Or.inr (h.channel.elim hchannel (ht.channels _))
  unrefused := hrefused
  unpanicked := hpanicked
  batch := by
    rw [ha.spec]
    exact hbatch
  stamped := hstamped
  completing := by
    rw [ha.workers]
    exact h.completing

theorem Attends.batch_onward (h : c.Attends env w) (ht : Turn env w w')
    (hsub : ∀ t ∈ c'.loop.batch, t ∈ c.loop.batch) :
    ∀ t ∈ c'.loop.batch, ∃ content, Known w' t.1.id content ∧ content.queue = c.spec.queue :=
  fun t hm => (h.onward ht).batch t (hsub t hm)

theorem proceed_plain (rest : List Ticket) :
    Loop.proceed rest ≠ .refused ∧ Loop.proceed rest ≠ .wait ∧ Loop.proceed rest ≠ .exited ∧
      (∀ lease now, Loop.proceed rest ≠ .claim lease now) ∧
      ∀ t rest' now, Loop.proceed rest ≠ .release t rest' now := by
  cases rest <;> simp [Loop.proceed]

theorem took_plain (tickets : List Ticket) :
    Loop.took tickets ≠ .refused ∧ Loop.took tickets ≠ .exited ∧
      (∀ lease now, Loop.took tickets ≠ .claim lease now) ∧
      ∀ t rest now, Loop.took tickets ≠ .release t rest now := by
  cases tickets <;> simp [Loop.took]

/-- A claim for the queue of a loop succeeds. -/
theorem Attends.claim (h : c.Attends env w) (hw : Sane env w) {lease : Duration} {now : Time}
    {reply : Except Storage.Error (List Message)}
    (hp : (memoryHost env).perform (.store (.claim (c.request lease now))) w = (reply, w')) :
    ∃ msgs, reply = .ok msgs ∧ ∀ msg ∈ msgs,
      ∃ content, Known w msg.id content ∧ content.queue = c.spec.queue := by
  have hlimit : 0 ≤ (c.request lease now).limit := zero_le_one.trans h.prefetch
  obtain ⟨msgs, hok, hmsgs⟩ := claim_returns (c.request lease now) hw.indexed hw.opened hlimit
  refine ⟨msgs, (memoryHost_perform hp).1.symm.trans hok, fun msg hm => ?_⟩
  obtain ⟨e, he, hq⟩ := hmsgs msg hm
  exact ⟨e.msg.content, ⟨e, he, rfl⟩, hq⟩

/-- A loop that attends to its queue acts properly. -/
theorem Attends.loopStep (h : c.Attends env w) (hw : Sane env w)
    (hs : LoopStep (memoryHost env) c w c' w') : Turn env w w' ∧ c'.Attends env w' := by
  have ha := LoopStep.alongside hs
  have hexited := LoopStep.not_exited hs
  have hnostart : ∀ l, l ≠ .start → c.loop = l → c.loop = .start →
      (w'.signals.lookup c.spec.queue).isSome :=
    fun l hl hat hstart => absurd (hat.symm.trans hstart) hl
  cases hs with
  | opened hat =>
    have ht : Turn env w (w.openSignal c.spec.queue) := Turn.opened hw c.spec.queue
    refine ⟨ht, h.advance ht ha hexited (fun _ => ?_) (by simp) (by simp) (by simp [Loop.batch])
      (by simp)⟩
    show ((w.openSignal c.spec.queue).signals.lookup c.spec.queue).isSome
    rw [openSignal_signals, if_pos rfl]
    rfl
  | unknown hat hp =>
    obtain ⟨queue, hq⟩ := h.declared
    have herror := (memoryHost_perform hp).1
    rw [perform, hq] at herror
    cases herror
  | unclaimed hat hp =>
    obtain ⟨msgs, hok, -⟩ := h.claim hw hp
    cases hok
  | @claimed lease now msgs w' hat hp =>
    have ht : Turn env w w' := Turn.performed hw hp trivial
    obtain ⟨found, hok, hmsgs⟩ := h.claim hw hp
    obtain rfl : msgs = found := Except.ok.inj hok
    obtain ⟨hrefused, -, -, hrelease⟩ := took_plain (msgs.zipIdx c.claimed.length)
    refine ⟨ht, h.advance ht ha hexited (hnostart _ (by simp) hat) hrefused (took_ne_panicked _) ?_
      (fun t rest now hl => absurd hl (hrelease t rest now))⟩
    rw [batch_took]
    intro t hm
    obtain ⟨content, hk, hq⟩ := hmsgs t.1 (List.fst_mem_of_mem_zipIdx hm)
    exact ⟨content, ht.onward.kept _ _ hk, hq⟩
  | @sent t rest hat =>
    obtain ⟨hrefused, -, -, -, hrelease⟩ := proceed_plain rest
    refine ⟨Turn.refl hw, h.advance (Turn.refl hw) ha hexited (hnostart _ (by simp) hat) hrefused
      (proceed_ne_panicked rest) ?_ (fun t rest now hl => absurd hl (hrelease t rest now))⟩
    refine h.batch_onward (Turn.refl hw) (fun t hm => ?_)
    rw [batch_proceed] at hm
    rw [hat]
    exact List.mem_cons_of_mem _ hm
  | @lost t rest now e w' hat hp | @gaveBack t rest now e w' hat hp =>
    obtain ⟨hrefused, -, -, -, hrelease⟩ := proceed_plain rest
    have ht : Turn env w w' := Turn.performed hw hp (h.stamped t rest now hat)
    refine ⟨ht, h.advance ht ha hexited (hnostart _ (by simp) hat) hrefused
      (proceed_ne_panicked rest) ?_ (fun t rest now hl => absurd hl (hrelease t rest now))⟩
    refine h.batch_onward ht (fun t hm => ?_)
    rw [batch_proceed] at hm
    rw [hat]
    exact List.mem_cons_of_mem _ hm
  | panicked hat hs => exact absurd (h.ending.closed hs) hexited
  | gaveUp hat | rested hat => exact absurd hat h.unrefused
  | woken hat htake =>
    have ht := Turn.taken hw htake
    exact ⟨ht, h.advance ht ha hexited (hnostart _ (by simp) hat) (by simp) (by simp)
      (by simp [Loop.batch]) (by simp)⟩
  | @undone t rest now w' hat hp =>
    have ht : Turn env w w' := Turn.performed hw hp trivial
    refine ⟨ht, h.advance ht ha hexited (hnostart _ (by simp) hat) (by simp) (by simp) ?_ ?_⟩
    · refine h.batch_onward ht (fun t hm => ?_)
      rwa [hat]
    · rintro t rest now ⟨⟩
      obtain ⟨rfl, rfl⟩ := memoryHost_perform hp
      exact ⟨w.ticks, Nat.lt_succ_self _, rfl⟩
  | found hat hp | timed hat hp | stamped hat hp | recorded hat hp =>
    have ht := Turn.performed hw hp trivial
    refine ⟨ht, h.advance ht ha hexited (hnostart _ (by simp) hat) (by simp) (by simp) ?_
      (by simp)⟩
    refine h.batch_onward ht (fun t hm => ?_)
    rwa [hat]
  | left hat | entered hat | accepted hat | rejected hat | counted hat | withdrawn hat
  | uncounted hat | ended hat | ticked hat =>
    have ht := Turn.refl hw
    refine ⟨ht, h.advance ht ha hexited (hnostart _ (by simp) hat) (by simp) (by simp) ?_
      (by simp)⟩
    refine h.batch_onward ht (fun t hm => ?_)
    rwa [hat]

/-! ## Who looks after a message -/

/-- What is known of a message that is waiting, and of who looks after it, is still true after
the step of the consumer. -/
structure Passes (c c' : Consumer) (w w' : World) (id : String) (msg : Message) : Prop where
  waiting : Waiting w id msg
  token : w.signals.lookup msg.queue = some true → w'.signals.lookup msg.queue = some true
  misses : c.spec.queue = msg.queue → c'.Misses msg.availableAt → c.Misses msg.availableAt
  serves : c.spec.queue = msg.queue → c.Serves msg.availableAt → c'.Serves msg.availableAt

theorem Passes.awake {id : String} {msg : Message} (hwait : Waiting w id msg)
    (htoken : w.signals.lookup msg.queue = some true → w'.signals.lookup msg.queue = some true)
    (howing : c.owing = true → c'.owing = true) (hwaits : c'.loop ≠ .wait)
    (hexited : c'.loop ≠ .exited)
    (hclaim : ∀ lease now, c'.loop = .claim lease now → msg.availableAt ≤ now) :
    c.Passes c' w w' id msg where
  waiting := hwait
  token := htoken
  misses := by
    rintro - (hl | ⟨lease, now, hl, hlt⟩)
    · exact absurd hl hwaits
    · exact absurd (hclaim lease now hl) (not_le.mpr hlt)
  serves := fun _ hs => ⟨howing hs.1, hwaits, hexited, hclaim⟩

theorem waiting_of_store {id : String} {msg : Message} (hs : w'.store = w.store)
    (h : Waiting w' id msg) : Waiting w id msg := by
  rw [Waiting, hs] at h
  exact h

/-- An effect that makes nothing available. -/
theorem waiting_of_performed (hw : Sane env w) {e : Effect} {reply : e.Reply}
    (hp : (memoryHost env).perform e w = (reply, w')) (h : Proper env w e)
    (hb : brought ⟨e, reply⟩ = []) {id : String} {msg : Message} (hwait : Waiting w' id msg) :
    Waiting w id msg ∧
      (w.signals.lookup msg.queue = some true → w'.signals.lookup msg.queue = some true) := by
  obtain ⟨rfl, rfl⟩ := memoryHost_perform hp
  refine ⟨(h.waiting hw.indexed.keyed hwait).resolve_right (fun hnew => ?_),
    (perform_signals env e w msg.queue).1⟩
  rw [hb] at hnew
  cases hnew.2

/-- A claim that comes back empty has found nothing that was available. -/
theorem Passes.emptyClaim (h : c.Attends env w) (hw : Sane env w) {lease : Duration} {now : Time}
    (hat : c.loop = .claim lease now)
    (hp : (memoryHost env).perform (.store (.claim (c.request lease now))) w = (.ok [], w'))
    {id : String} {msg : Message} (hwait : Waiting w' id msg) : c.Passes c' w w' id msg := by
  obtain ⟨hwait, htoken⟩ := waiting_of_performed hw hp trivial rfl hwait
  have hlate : c.spec.queue = msg.queue → now < msg.availableAt := by
    intro hq
    obtain ⟨e, he, rfl, hstate⟩ := hwait
    exact claim_exhausts (c.request lease now) hw.indexed hw.opened h.prefetch
      (memoryHost_perform hp).1 he hq.symm hstate
  refine ⟨hwait, htoken, fun hq _ => Or.inr ⟨lease, now, hat, hlate hq⟩, fun hq hserves => ?_⟩
  exact absurd (hserves.2.2.2 lease now hat) (not_le.mpr (hlate hq))

/-- A loop looks after the message it has given back, and passes on what it knows of others. -/
theorem serves_or_passes_gaveBack (h : c.Attends env w) (hw : Sane env w) {t : Ticket}
    {rest : List Ticket} {now : Time} {u : Unit} (hat : c.loop = .release t rest now)
    (hp : (memoryHost env).perform (t.giveBack now) w = (.ok u, w'))
    (hloop : c'.loop = .proceed rest) (howing : c'.owing = true)
    {id : String} {msg : Message} (hwait : Waiting w' id msg) :
    (c.spec.queue = msg.queue ∧ c'.Serves msg.availableAt) ∨ c.Passes c' w w' id msg := by
  obtain ⟨-, hwaits, hexited, hclaim, -⟩ := proceed_plain rest
  rw [← hloop] at hwaits hexited hclaim
  have hproper : Proper env w (t.giveBack now) := h.stamped t rest now hat
  have hturn : Turn env w w' := Turn.performed hw hp hproper
  by_cases hid : id = t.1.id
  · left
    obtain ⟨content, hknown, hq⟩ := h.batch t (by rw [hat]; exact List.mem_cons_self)
    obtain ⟨e, he, hcontent⟩ := hturn.onward.kept _ _ hknown
    obtain ⟨e', he', rfl, -⟩ := hwait
    rw [hid, he] at he'
    obtain rfl := Option.some.inj he'
    refine ⟨hq.symm.trans (congrArg Content.queue hcontent.symm), howing, hwaits, hexited, ?_⟩
    exact fun lease now hl => absurd hl (hclaim lease now)
  · right
    obtain ⟨hreply, hworld⟩ := memoryHost_perform hp
    rw [← hworld] at hwait
    refine Passes.awake ((hproper.waiting hw.indexed.keyed hwait).resolve_right (fun hnew => ?_))
      (fun htoken => ?_) (fun _ => howing) hwaits hexited
      (fun lease now hl => absurd hl (hclaim lease now))
    · rw [hreply] at hnew
      exact hid (List.mem_singleton.mp hnew.2)
    · rw [← hworld]
      exact (perform_signals env _ w msg.queue).1 htoken

/-- A loop passes on what it knows, looks after what it has given back or was woken up for, or
it ends in debt. -/
theorem LoopStep.passes (h : c.Attends env w) (hw : Sane env w) (hmono : Monotone env.clock)
    (hs : LoopStep (memoryHost env) c w c' w') :
    (c.owing = true ∧ c.cancelled = true ∧ c.loop = .check ∧ c'.loop = .exited ∧ w' = w) ∨
      ∀ id msg, Waiting w' id msg →
        (c.spec.queue = msg.queue ∧ c'.Serves msg.availableAt) ∨ c.Passes c' w w' id msg := by
  cases hs with
  | left hat hc =>
    cases howing : c.owing with
    | true => exact Or.inl ⟨rfl, hc, hat, rfl, rfl⟩
    | false =>
      refine Or.inr (fun id msg hwait => Or.inr ⟨hwait, fun ht => ht, ?_, fun _ hserves => ?_⟩)
      · rintro - (hl | ⟨lease, now, hl, -⟩) <;> cases hl
      · exact absurd hserves.1 (by simp [howing])
  | opened hat =>
    refine Or.inr (fun id msg hwait => Or.inr (Passes.awake
      (waiting_of_store (openSignal_store _ w) hwait) (fun htoken => ?_) (fun ho => ho) (by simp)
      (by simp) (by simp)))
    show (w.openSignal c.spec.queue).signals.lookup msg.queue = some true
    rw [openSignal_signals, htoken]
    split_ifs <;> rfl
  | @timed lease now w' hat hp =>
    refine Or.inr (fun id msg hwait => ?_)
    obtain ⟨hwait, htoken⟩ := waiting_of_performed hw hp trivial rfl hwait
    refine Or.inr (Passes.awake hwait htoken (fun ho => ho) (by simp) (by simp) ?_)
    rintro _ _ ⟨⟩
    rw [← (memoryHost_perform hp).1]
    exact (hw.available _ msg hwait).le_next hmono
  | @claimed lease now msgs w' hat hp =>
    refine Or.inr (fun id msg hwait => Or.inr ?_)
    cases msgs with
    | nil => exact Passes.emptyClaim h hw hat hp hwait
    | cons m rest =>
      obtain ⟨hwait, htoken⟩ := waiting_of_performed hw hp trivial rfl hwait
      exact Passes.awake hwait htoken (by simp) (by simp [Loop.took]) (by simp [Loop.took])
        (by simp [Loop.took])
  | @sent t rest hat =>
    obtain ⟨-, hwaits, hexited, hclaim, -⟩ := proceed_plain rest
    exact Or.inr (fun id msg hwait => Or.inr (Passes.awake hwait (fun ht => ht) (fun ho => ho)
      hwaits hexited (fun lease now hl => absurd hl (hclaim lease now))))
  | @lost t rest now e w' hat hp =>
    obtain ⟨-, hwaits, hexited, hclaim, -⟩ := proceed_plain rest
    refine Or.inr (fun id msg hwait => ?_)
    obtain ⟨hwait, htoken⟩ :=
      waiting_of_performed hw hp (h.stamped t rest now hat) rfl hwait
    exact Or.inr (Passes.awake hwait htoken (fun ho => ho) hwaits hexited
      (fun lease now hl => absurd hl (hclaim lease now)))
  | gaveBack hat hp =>
    exact Or.inr (fun id msg hwait => serves_or_passes_gaveBack h hw hat hp rfl rfl hwait)
  | woken hat htake =>
    refine Or.inr (fun id msg hwait => ?_)
    by_cases hq : c.spec.queue = msg.queue
    · exact Or.inl ⟨hq, rfl, by simp, by simp, by simp⟩
    · refine Or.inr (Passes.awake (waiting_of_store (takeSignal_store htake) hwait)
        (fun htoken => ?_) (fun _ => rfl) (by simp) (by simp) (by simp))
      rw [takeSignal_eq htake]
      simpa [Finmap.lookup_insert_of_ne _ (Ne.symm hq)] using htoken
  | unknown hat hp | found hat hp | stamped hat hp | recorded hat hp | undone hat hp =>
    refine Or.inr (fun id msg hwait => ?_)
    obtain ⟨hwait, htoken⟩ := waiting_of_performed hw hp trivial rfl hwait
    exact Or.inr (Passes.awake hwait htoken (fun ho => ho) (by simp) (by simp) (by simp))
  | unclaimed hat hp =>
    obtain ⟨msgs, hok, -⟩ := h.claim hw hp
    cases hok
  | gaveUp hat | rested hat => exact absurd hat h.unrefused
  | panicked hat hs => exact absurd (h.ending.closed hs) (by simp [hat])
  | entered hat | accepted hat | rejected hat | counted hat | withdrawn hat | uncounted hat
  | ended hat | ticked hat =>
    exact Or.inr (fun id msg hwait => Or.inr
      (Passes.awake hwait (fun ht => ht) (fun ho => ho) (by simp) (by simp) (by simp)))

/-! ## The other moves -/

theorem Passes.still {id : String} {msg : Message} (hwait : Waiting w id msg)
    (htoken : w.signals.lookup msg.queue = some true → w'.signals.lookup msg.queue = some true)
    (hloop : c'.loop = c.loop) (howing : c'.owing = c.owing) : c.Passes c' w w' id msg where
  waiting := hwait
  token := htoken
  misses := by
    rw [Misses, Misses, hloop]
    exact fun _ h => h
  serves := by
    rw [Serves, Serves, hloop, howing]
    exact fun _ h => h

theorem Attends.still (h : c.Attends env w) (ht : Turn env w w') (hspec : c'.spec = c.spec)
    (hloop : c'.loop = c.loop) (hending : c'.Ending)
    (hcompleting : ∀ t thread, .completing t thread ∈ c'.workers →
      thread.Keeps (Completes t.1.id) (fun _ => True)) : c'.Attends env w' := by
  have ho := h.onward ht
  refine ⟨hending, ?_, ?_, ?_, ?_, ?_, ?_, ?_, hcompleting⟩
  · rw [hspec]
    exact ho.prefetch
  · rw [hspec]
    exact ho.declared
  · rw [hloop, hspec]
    exact ho.channel
  · rw [hloop]
    exact ho.unrefused
  · rw [hloop]
    exact ho.unpanicked
  · rw [hloop, hspec]
    exact ho.batch
  · rw [hloop]
    exact ho.stamped

/-- A worker makes nothing available. -/
theorem Attends.workerStep {engine : Engine} {i : ℕ} (h : c.Attends env w) (hw : Sane env w)
    (hs : WorkerStep (memoryHost env) engine c w i c' w') :
    Turn env w w' ∧ c'.Attends env w' ∧
      ∀ id msg, Waiting w' id msg → c.Passes c' w w' id msg := by
  have hending := h.ending.workerStep hs
  have hkept : c.Completing (fun t => Completes t.1.id) := h.completing
  have hcompleting := hkept.workerStep
    (fun spec t outcome => complete_completes engine spec t.delivery outcome) hs
  cases hs with
  | invoked hi hp =>
    have ht := Turn.performed hw hp trivial
    refine ⟨ht, h.still ht rfl rfl hending hcompleting, fun id msg hwait => ?_⟩
    obtain ⟨hwait, htoken⟩ := waiting_of_performed hw hp trivial rfl hwait
    exact Passes.still hwait htoken rfl rfl
  | @stepped t thread thread' w' hi hf hp =>
    rcases (h.completing t thread (List.mem_of_getElem? hi)).step_cases (memoryHost env).perform w
      with ⟨hdone, -⟩ | ⟨e, -, hallowed, -, hworld, -⟩
    · rw [hf] at hdone
      cases hdone
    · rw [hp] at hworld
      dsimp only at hworld
      have hperform : (memoryHost env).perform e w =
        (((memoryHost env).perform e w).1, w') := Prod.ext rfl hworld.symm
      obtain ⟨hproper, hquiet⟩ := hallowed.proper
      have ht := Turn.performed hw hperform hproper
      refine ⟨ht, h.still ht rfl rfl hending hcompleting, fun id msg hwait => ?_⟩
      obtain ⟨hwait, htoken⟩ := waiting_of_performed hw hperform hproper (hquiet _).1 hwait
      exact Passes.still hwait htoken rfl rfl
  | handled | received | exited | counted | begun | finished =>
    have ht := Turn.refl hw
    exact ⟨ht, h.still ht rfl rfl hending hcompleting,
      fun id msg hwait => Passes.still hwait (fun ht => ht) rfl rfl⟩

/-- All moves of a consumer. -/
theorem Attends.moveStep {engine : Engine} (h : c.Attends env w) (hw : Sane env w)
    (hmono : Monotone env.clock) (hs : MoveStep (memoryHost env) engine c w c' w') :
    Turn env w w' ∧ c'.Attends env w' ∧ c'.spec = c.spec ∧
      ((c.owing = true ∧ c.cancelled = true ∧ c.loop = .check ∧ c'.loop = .exited ∧ w' = w) ∨
        ∀ id msg, Waiting w' id msg →
          (c.spec.queue = msg.queue ∧ c'.Serves msg.availableAt) ∨ c.Passes c' w w' id msg) := by
  have ht := Turn.refl hw
  cases hs with
  | none => exact ⟨ht, h, rfl, Or.inr (fun id msg hwait => Or.inr
      (Passes.still hwait (fun ht => ht) rfl rfl))⟩
  | unsubscribed | cancelled =>
    exact ⟨ht, h.still ht rfl rfl (h.ending.same rfl rfl rfl rfl) h.completing, rfl,
      Or.inr (fun id msg hwait => Or.inr (Passes.still hwait (fun ht => ht) rfl rfl))⟩
  | stop hs =>
    have hending := h.ending.stopStep hs
    cases hs <;> exact ⟨ht, h.still ht rfl rfl hending h.completing, rfl,
      Or.inr (fun id msg hwait => Or.inr (Passes.still hwait (fun ht => ht) rfl rfl))⟩
  | loop hs =>
    obtain ⟨ht, ha⟩ := h.loopStep hw hs
    exact ⟨ht, ha, (LoopStep.alongside hs).spec, LoopStep.passes h hw hmono hs⟩
  | worker hs =>
    obtain ⟨ht, ha, hp⟩ := h.workerStep hw hs
    have hspec : c'.spec = c.spec := by cases hs <;> rfl
    exact ⟨ht, ha, hspec, Or.inr (fun id msg hwait => Or.inr (hp id msg hwait))⟩

theorem new_attends {spec : ConsumerSpec} {queue : Queue} (hprefetch : 1 ≤ spec.prefetch)
    (hqueue : w.registry.queue spec.queue = .ok queue) : (Consumer.new spec).Attends env w where
  ending := by refine ⟨?_, ?_, ?_, ?_, ?_⟩ <;> simp [Consumer.new]
  prefetch := hprefetch
  declared := ⟨queue, hqueue⟩
  channel := Or.inl rfl
  unrefused := by simp [Consumer.new]
  unpanicked := by simp [Consumer.new]
  batch := by simp [Consumer.new, Loop.batch]
  stamped := by simp [Consumer.new]
  completing := Consumer.new_completing spec

end Consumer
end RabbitmqLite.Engine
