import RabbitmqLite.Engine.Conduct
import RabbitmqLite.Engine.ExactlyOnce
import RabbitmqLite.Storage.Memory.Index

/-! # How messages become available

While the engine runs, messages keep their content and, as long as no queue is
purged, they stay in the store. A message is queued by an append or by a
release, at a reading of the clock. What operations, loops and workers do is
proper in this sense, on the strength of what they have been told.
-/

namespace RabbitmqLite.Engine
open Broker Collections Storage Atomic
open Memory (Record RecordStep Indexed exec_recordStep exec_indexed exec_closed)

/-! ## Facts that last -/

/-- The store has a message with this content under this id. -/
def Known (w : World) (id : String) (content : Content) : Prop :=
  ∃ e, w.store.messages.lookup id = some e ∧ e.msg.content = content

/-- Time goes on, and no message is lost or altered. -/
structure Onward (w w' : World) : Prop where
  ticks : w.ticks ≤ w'.ticks
  ids : w.ids ≤ w'.ids
  registry : w'.registry = w.registry
  kept : ∀ id content, Known w id content → Known w' id content

theorem Onward.refl (w : World) : Onward w w := ⟨le_rfl, le_rfl, rfl, fun _ _ h => h⟩

theorem Onward.of_store {w w' : World} (ht : w.ticks ≤ w'.ticks) (hi : w.ids ≤ w'.ids)
    (hr : w'.registry = w.registry) (hs : w'.store = w.store) : Onward w w' :=
  ⟨ht, hi, hr, fun id content h => by rw [Known, hs]; exact h⟩

theorem Read.onward {env : Env} {w w' : World} {now : Time} (h : Read env w now)
    (ho : Onward w w') : Read env w' now := by
  obtain ⟨i, hi, hnow⟩ := h
  exact ⟨i, hi.trans_le ho.ticks, hnow⟩

/-- A reading of the clock is not later than the next one. -/
theorem Read.le_next {env : Env} (hmono : Monotone env.clock) {w : World} {now : Time}
    (h : Read env w now) : now ≤ env.clock w.ticks := by
  obtain ⟨i, hi, rfl⟩ := h
  exact hmono hi.le

/-! ## Waiting messages -/

/-- The message is queued. -/
def Waiting (w : World) (id : String) (msg : Message) : Prop :=
  ∃ e, w.store.messages.lookup id = some e ∧ e.msg = msg ∧ msg.state = .queued

theorem Waiting.known {w : World} {id : String} {msg : Message} (h : Waiting w id msg) :
    Known w id msg.content := by
  obtain ⟨e, hl, rfl, -⟩ := h
  exact ⟨e, hl, rfl⟩

/-- The messages a write has made available. -/
def brought : EngineEvent → List String
  | ⟨.store (.append msgs), .ok _⟩ => msgs.map Message.id
  | ⟨.settle _ _ (.release id _), .ok _⟩ => [id]
  | _ => []

theorem isWrite_of_brought {event : EngineEvent} {id : String} (h : id ∈ brought event) :
    isWrite event = true ∧ isNotify event = false := by
  unfold brought at h
  split at h
  · exact ⟨rfl, rfl⟩
  · exact ⟨rfl, rfl⟩
  · cases h

/-- A call that leaves a message queued has found it so, appended it or released it. -/
theorem RecordStep.queued {c : Call} {reply : c.Reply} {id : String} {r : Option Record}
    {e : Record} (h : RecordStep c reply id r (some e)) (hq : e.msg.state = .queued) :
    r = some e ∨
      (∃ msgs, ∃ msg ∈ msgs, c = .append msgs ∧ id = msg.id ∧ e = Memory.unleased msg.clone ∧
        reply ≍ (.ok () : Except Storage.Error Unit)) ∨
      ∃ now, e.msg.availableAt = now ∧ c = .release id now ∧
        reply ≍ (.ok () : Except Storage.Error Unit) := by
  cases h with
  | same => exact Or.inl rfl
  | append hm => exact Or.inr (Or.inl ⟨_, _, hm, rfl, rfl, rfl, HEq.rfl⟩)
  | release => exact Or.inr (Or.inr ⟨_, rfl, rfl, HEq.rfl⟩)
  | claim | acknowledge | scheduleRetry | markDeadLettered =>
    simp [Memory.takenOver, Memory.unleased, Memory.acknowledged, Memory.retried,
      Memory.deadLettered] at hq

theorem RecordStep.removed {c : Call} {reply : c.Reply} {id : String} {e : Record}
    (h : RecordStep c reply id (some e) none) :
    (∃ queue, c = .purge queue) ∨ ∃ name, c = .deleteQueue name := by
  cases h with
  | purge => exact Or.inl ⟨_, rfl⟩
  | deleteQueue => exact Or.inr ⟨_, rfl⟩

/-! ## Proper effects -/

/-- Messages are appended under distinct ids and made available at readings of the clock, and
none is taken out of the store. -/
def Proper (env : Env) (w : World) : Effect → Prop
  | .store (.append msgs) =>
    (msgs.map Message.id).Nodup ∧ ∀ msg ∈ msgs, Read env w msg.availableAt
  | .store (.purge _) | .store (.deleteQueue _) | .store .close | .store (.release _ _) => False
  | .store _ => True
  | .settle _ _ (.release _ now) => Read env w now
  | .settle _ _ (.acknowledge _ _) | .settle _ _ (.scheduleRetry _)
  | .settle _ _ (.markDeadLettered _ _ _) => True
  | .settle _ _ _ => False
  | .submit _ d => Known w d.message.id d.message.content
  | _ => True

/-- What a proper effect asks of the store. -/
structure Benign (env : Env) (w : World) (c : Call) : Prop where
  purge : ∀ queue, c ≠ .purge queue
  deleteQueue : ∀ name, c ≠ .deleteQueue name
  opened : c ≠ .close
  nodup : c.appendedIds.Nodup
  append : ∀ msgs, c = .append msgs → ∀ msg ∈ msgs, Read env w msg.availableAt
  release : ∀ id now, c = .release id now → Read env w now

variable {env : Env} {w : World}

theorem Proper.benign {e : Effect} {c : Call} (h : Proper env w e) (hc : e.call? = some c) :
    Benign env w c := by
  cases e with
  | store d =>
    obtain rfl := Option.some.inj hc
    cases d with
    | append msgs =>
      refine ⟨by simp, by simp, by simp, h.1, fun msgs' hm => ?_, by simp⟩
      obtain rfl := Call.append.inj hm
      exact h.2
    | purge | deleteQueue | close | release => exact h.elim
    | _ => exact ⟨by simp, by simp, by simp, List.nodup_nil, by simp, by simp⟩
  | settle party attempt d =>
    obtain rfl := Option.some.inj hc
    cases d with
    | release id now =>
      refine ⟨by simp, by simp, by simp, List.nodup_nil, by simp, fun id' now' hr => ?_⟩
      obtain ⟨rfl, rfl⟩ := Call.release.inj hr
      exact h
    | acknowledge | scheduleRetry | markDeadLettered =>
      exact ⟨by simp, by simp, by simp, List.nodup_nil, by simp, by simp⟩
    | _ => exact h.elim
  | _ => cases hc

theorem Benign.kept {c : Call} (h : Benign env w c) (hk : w.store.Keyed) {id : String}
    {content : Content} (hid : Known w id content) : Known (w.callStore c).2 id content := by
  obtain ⟨e, hl, rfl⟩ := hid
  have hs := exec_recordStep hk c id
  rw [hl] at hs
  cases hl' : (Memory.exec c w.store).2.messages.lookup id with
  | some e' =>
    rw [hl'] at hs
    exact ⟨e', hl', hs.content_eq⟩
  | none =>
    rw [hl'] at hs
    rcases RecordStep.removed hs with ⟨queue, hc⟩ | ⟨name, hc⟩
    · exact absurd hc (h.purge queue)
    · exact absurd hc (h.deleteQueue name)

theorem ticks_le_perform (e : Effect) (w : World) : w.ticks ≤ (perform env e w).2.ticks := by
  cases e with
  | clock => exact Nat.le_succ w.ticks
  | submit | receive =>
    simp only [perform]
    split <;> exact le_rfl
  | _ => exact le_rfl

theorem Proper.onward {e : Effect} (h : Proper env w e) (hk : w.store.Keyed) :
    Onward w (perform env e w).2 := by
  refine ⟨ticks_le_perform e w, ids_le_perform env e w, perform_registry env e w, ?_⟩
  intro id content hid
  cases hc : e.call? with
  | none =>
    rw [Known, perform_store, hc]
    exact hid
  | some c =>
    have hkept := (h.benign hc).kept hk hid
    rw [Known, perform_store, hc]
    exact hkept

/-- The world is in order: every queued message was made available at a reading of the clock. -/
structure Sane (env : Env) (w : World) : Prop where
  indexed : Indexed w.store
  opened : w.store.closed = false
  tasks : ∀ consumer, ∀ d ∈ w.tasks consumer, Known w d.message.id d.message.content
  available : ∀ id msg, Waiting w id msg → Read env w msg.availableAt

theorem init_sane (env : Env) (registry : Registry) : Sane env (World.init registry) where
  indexed := Memory.new_indexed
  opened := rfl
  tasks := by simp [World.init]
  available := by
    rintro id msg ⟨e, hl, -⟩
    simp [World.init, Memory.Store.new] at hl

/-- After a proper effect a message is queued if it was so before or if the effect has made it
available. -/
theorem Proper.waiting {e : Effect} (h : Proper env w e) (hk : w.store.Keyed) {id : String}
    {msg : Message} (hw : Waiting (perform env e w).2 id msg) :
    Waiting w id msg ∨ Read env w msg.availableAt ∧ id ∈ brought ⟨e, (perform env e w).1⟩ := by
  obtain ⟨entry, hl, rfl, hq⟩ := hw
  rw [perform_store] at hl
  cases hc : e.call? with
  | none =>
    rw [hc] at hl
    exact Or.inl ⟨entry, hl, rfl, hq⟩
  | some c =>
    rw [hc] at hl
    have hb := h.benign hc
    have hs := exec_recordStep hk c id
    rw [show (Memory.exec c w.store).2.messages.lookup id = some entry from hl] at hs
    rcases RecordStep.queued hs hq with hsame | ⟨msgs, msg, hm, rfl, rfl, rfl, hreply⟩ |
        ⟨now, hnow, rfl, hreply⟩
    · exact Or.inl ⟨entry, hsame, rfl, hq⟩
    · refine Or.inr ⟨hb.append msgs rfl msg hm, ?_⟩
      cases e with
      | store d =>
        obtain rfl := Option.some.inj hc
        have hok : (perform env (.store (.append msgs)) w).1 = .ok () := eq_of_heq hreply
        rw [hok]
        exact List.mem_map_of_mem hm
      | settle party attempt d =>
        obtain rfl := Option.some.inj hc
        exact h.elim
      | _ => cases hc
    · refine Or.inr ⟨hnow ▸ hb.release id now rfl, ?_⟩
      cases e with
      | store d =>
        obtain rfl := Option.some.inj hc
        exact h.elim
      | settle party attempt d =>
        obtain rfl := Option.some.inj hc
        have hok : (perform env (.settle party attempt (.release id now)) w).1 = .ok () :=
          eq_of_heq hreply
        rw [hok]
        exact List.mem_singleton_self id
      | _ => cases hc

theorem Proper.sane {e : Effect} (h : Proper env w e) (hw : Sane env w) :
    Sane env (perform env e w).2 := by
  have ho := h.onward hw.indexed.keyed
  refine ⟨?_, ?_, fun name d hd => ?_, fun id msg hwait => ?_⟩
  · rw [perform_store]
    cases hc : e.call? with
    | none => exact hw.indexed
    | some c => exact exec_indexed hw.indexed c (h.benign hc).nodup
  · rw [perform_store]
    cases hc : e.call? with
    | none => exact hw.opened
    | some c => exact (exec_closed (h.benign hc).opened w.store).trans hw.opened
  · refine ho.kept _ _ ?_
    cases e with
    | submit consumer delivery =>
      rcases submit_tasks hd with hd | rfl
      · exact hw.tasks name d hd
      · exact h
    | receive => exact hw.tasks name d (receive_tasks hd)
    | _ => exact hw.tasks name d hd
  · rcases h.waiting hw.indexed.keyed hwait with hold | ⟨hread, -⟩
    · exact (hw.available id msg hold).onward ho
    · exact hread.onward ho

/-! ## Claims -/

section Claim
variable {s : Memory.Store} (req : ClaimRequest)

/-- Claims on an open store succeed, and they return messages of the queue they ask for. -/
theorem claim_returns (h : Indexed s) (ho : s.closed = false) (hl : 0 ≤ req.limit) :
    ∃ msgs, (s.claim req).1 = .ok msgs ∧ ∀ msg ∈ msgs,
      ∃ e, s.messages.lookup msg.id = some e ∧ e.msg.queue = req.queue := by
  obtain ⟨t, messages, hc, -, hclaim⟩ := h.claim ho hl
  refine ⟨_, by rw [hclaim], fun msg hm => ?_⟩
  obtain ⟨id, hid, hout⟩ := List.mem_filterMap.mp hm
  obtain ⟨entry, hlookup, rfl⟩ := Option.map_eq_some_iff.mp hout
  have hlisted := (List.mem_filter.mp (List.mem_of_mem_take hid)).1
  obtain ⟨e, he, hq⟩ := hc.indexed.listed req.queue id hlisted
  rw [hc.messages_eq, hlookup] at he
  obtain rfl := Option.some.inj he
  have hkey : (Memory.takenOver req entry).msg.id = id := h.keyed id entry hlookup
  exact ⟨entry, by rw [hkey]; exact hlookup, hq⟩

/-- A claim that returns nothing has found nothing that was available. -/
theorem claim_exhausts (h : Indexed s) (ho : s.closed = false) (hl : 1 ≤ req.limit)
    (hempty : (s.claim req).1 = .ok []) {id : String} {e : Record}
    (he : s.messages.lookup id = some e) (hq : e.msg.queue = req.queue)
    (hs : e.msg.state = .queued) : req.now < e.msg.availableAt := by
  by_contra hle
  obtain ⟨t, messages, hc, -, hclaim⟩ := h.claim ho (by omega : 0 ≤ req.limit)
  have hlisted : id ∈ t.order req.queue := by
    rw [← hq]
    exact hc.indexed.complete id e (by rw [hc.messages_eq]; exact he) (by rw [hs]; rfl)
  have hclaimable : Memory.claimableIn s.messages req.now id = true :=
    Memory.claimableIn_iff.mpr
      ⟨e, he, Memory.claimable_iff.mpr ⟨Or.inl hs, not_lt.mp hle⟩⟩
  rw [hclaim] at hempty
  have hnone := Except.ok.inj hempty
  have hmem : id ∈ (t.order req.queue).filter (Memory.claimableIn s.messages req.now) :=
    List.mem_filter.mpr ⟨hlisted, hclaimable⟩
  cases hfilter : (t.order req.queue).filter (Memory.claimableIn s.messages req.now) with
  | nil =>
    rw [hfilter] at hmem
    cases hmem
  | cons x rest =>
    obtain ⟨n, hn⟩ : ∃ n, req.limit.toNat = n + 1 := ⟨req.limit.toNat - 1, by omega⟩
    rw [hfilter, hn, List.take_succ_cons] at hnone
    have hx : Memory.claimableIn s.messages req.now x = true := by
      have hx : x ∈ (t.order req.queue).filter (Memory.claimableIn s.messages req.now) := by
        rw [hfilter]
        exact List.mem_cons_self
      exact (List.mem_filter.mp hx).2
    obtain ⟨entry, hlookup, -⟩ := Memory.claimableIn_iff.mp hx
    simp [Memory.handedOut, hlookup] at hnone

end Claim

/-! ## Operations and workers -/

/-- What an operation has been told is true. -/
structure Informed (env : Env) (w : World) (past : List EngineEvent) : Prop where
  told : ∀ id msg, (id, msg) ∈ told past → Known w id msg.content
  written : ∀ msgs, ⟨.store (.append msgs), .ok ()⟩ ∈ past → ∀ msg ∈ msgs,
    Known w msg.id msg.clone.content
  read : ∀ now, ClockRead past now → Read env w now
  generated : Generated env w past

theorem Informed.nil (env : Env) (w : World) : Informed env w [] :=
  ⟨by simp [Engine.told], by simp, by simp [ClockRead], Generated.nil env w⟩

theorem Informed.onward {past : List EngineEvent} {w' : World} (h : Informed env w past)
    (ho : Onward w w') : Informed env w' past where
  told := fun id msg hm => ho.kept _ _ (h.told id msg hm)
  written := fun msgs he msg hm => ho.kept _ _ (h.written msgs he msg hm)
  read := fun now hn => (h.read now hn).onward ho
  generated := h.generated.mono ho.ids

/-- A message that was appended is in the store. -/
theorem known_of_append {msgs : List Message} (hk : w.store.Keyed)
    (hn : (msgs.map Message.id).Nodup) (hok : (Memory.exec (.append msgs) w.store).1 = .ok ())
    {msg : Message} (hm : msg ∈ msgs) :
    Known (w.callStore (.append msgs)).2 msg.id msg.clone.content := by
  have hs := exec_recordStep hk (.append msgs) msg.id
  rw [hok] at hs
  generalize hr : (Memory.exec (.append msgs) w.store).2.messages.lookup msg.id = r at hs
  generalize w.store.messages.lookup msg.id = r₀ at hs
  generalize hid : msg.id = id at hs
  cases hs with
  | same hh => exact absurd (hid ▸ List.mem_map_of_mem hm) hh
  | append hm' =>
    obtain rfl := List.inj_on_of_nodup_map hn hm hm' hid
    exact ⟨_, hr, rfl⟩

theorem Informed.step (hinj : Function.Injective env.newID) {past : List EngineEvent}
    (h : Informed env w past) (hw : Sane env w) {e : Effect} (hp : Proper env w e) :
    Informed env (perform env e w).2 (past ++ [⟨e, (perform env e w).1⟩]) := by
  have ho := hp.onward hw.indexed.keyed
  have hold := h.onward ho
  refine ⟨fun id msg hm => ?_, fun msgs he msg hm => ?_, fun now hn => ?_,
    h.generated.step hinj e⟩
  · rw [told_snoc] at hm
    rcases List.mem_append.mp hm with hm | hm
    · exact hold.told id msg hm
    · refine ho.kept _ _ ?_
      rcases toldBy_perform hw.indexed.keyed hm with hknown | ⟨consumer, d, hd, rfl, rfl⟩
      · exact hknown
      · exact hw.tasks consumer d hd
  · rcases List.mem_append.mp he with he | he
    · exact hold.written msgs he msg hm
    · have heq := List.mem_singleton.mp he
      obtain rfl : e = .store (.append msgs) := (congrArg Event.call heq).symm
      have hok := eq_of_heq (Event.mk.inj heq).2
      exact known_of_append hw.indexed.keyed hp.1 hok.symm hm
  · rcases List.mem_append.mp hn with hn | hn
    · exact hold.read now hn
    · have heq := List.mem_singleton.mp hn
      obtain rfl : e = .clock := (congrArg Event.call heq).symm
      have hnow := eq_of_heq (Event.mk.inj heq).2
      exact ⟨w.ticks, Nat.lt_succ_self _, hnow.symm⟩

def isPurge : Effect → Bool
  | .store (.purge _) => true
  | _ => false

theorem Conduct.proper {engine : Engine} {past : List EngineEvent} {e : Effect}
    (h : Conduct engine past e) (hi : Informed env w past) (hp : isPurge e = false) :
    Proper env w e := by
  cases e with
  | store c =>
    cases c with
    | append msgs =>
      obtain ⟨hids, hcomposed⟩ := h
      exact ⟨hi.generated.nodup.sublist hids,
        fun msg hm => hi.read _ (hcomposed msg hm).available⟩
    | purge => cases hp
    | message | claim | expiredLeases | deadLetter | markDeadLetterReplayed | deleteDeadLetter
    | history | appendHistory | saveDeadLetter => trivial
    | _ => exact h.elim
  | settle party attempt c =>
    cases c with
    | release id now => exact hi.read now h.2
    | acknowledge | scheduleRetry | markDeadLettered => trivial
    | _ => exact h.elim
  | submit consumer delivery => exact hi.told _ _ h
  | _ => trivial

/-- What a worker does after the handler makes nothing available. -/
theorem Completes.proper {id : String} {past : List EngineEvent} {e : Effect}
    (h : Completes id past e) :
    Proper env w e ∧ ∀ reply, brought ⟨e, reply⟩ = [] ∧ isNotify ⟨e, reply⟩ = false := by
  cases e with
  | store c =>
    cases c with
    | history | appendHistory | saveDeadLetter => exact ⟨trivial, fun _ => ⟨rfl, rfl⟩⟩
    | _ => exact h.elim
  | settle party attempt c =>
    cases c with
    | acknowledge | scheduleRetry | markDeadLettered => exact ⟨trivial, fun _ => ⟨rfl, rfl⟩⟩
    | _ => exact h.1.elim
  | clock | newID | float64 => exact ⟨trivial, fun _ => ⟨rfl, rfl⟩⟩
  | _ => exact h.elim

end RabbitmqLite.Engine
