import RabbitmqLite.Storage.Memory.RecordStep
import RabbitmqLite.Atomic.Machine

/-! # Lifecycle soundness of the in-memory driver

Along every run of store calls in which no message id is appended twice, the
states of a message follow the transition table, settled records are frozen,
a lease is present exactly while a message is in processing, and the attempt
counter is the number of claims that handed the message out.
-/

namespace RabbitmqLite.Storage.Memory
open Broker Collections Atomic

abbrev StoreEvent := Event Call Call.Reply

/-- Appended ids are new, and messages arrive queued and untried. -/
structure FreshRun (cs : List Call) : Prop where
  nodup : (appendedIds cs).Nodup
  queued : ∀ msgs, .append msgs ∈ cs → ∀ msg ∈ msgs, msg.state = .queued ∧ msg.attempts = 0

/-- Every claim names its consumer and asks for a lease that ends at a set instant. -/
def NamedClaims (cs : List Call) : Prop :=
  ∀ req, .claim req ∈ cs → req.consumer ≠ "" ∧ req.now + req.lease ≠ zeroTime

/-- The event is a claim that handed this id out. -/
def handsOut : StoreEvent → String → Bool
  | ⟨.claim _, .ok claimed⟩, id => decide (id ∈ claimed.map Message.id)
  | _, _ => false

/-- The event is a retry or a release that returned this id to its queue. -/
def givesBack : StoreEvent → String → Bool
  | ⟨.scheduleRetry req, .ok _⟩, id => decide (req.id = id)
  | ⟨.release i _, .ok _⟩, id => decide (i = id)
  | _, _ => false

def claimCount (events : List StoreEvent) (id : String) : ℕ :=
  events.countP (fun e => handsOut e id)

/-- The calls of a run from the empty store with their replies. -/
def traceOf (cs : List Call) : List StoreEvent := trace exec Store.new cs

/-- The record of an id after a run from the empty store. -/
def recordAfter (cs : List Call) (id : String) : Option Record :=
  (after exec Store.new cs).messages.lookup id

/-- A lease and a consumer are present exactly while the message is in processing. -/
def LeaseHeld (entry : Record) : Prop :=
  (entry.msg.state = .processing ↔ entry.lease ≠ zeroTime) ∧
    (entry.msg.state = .processing ↔ entry.consumer ≠ "")

theorem FreshRun.of_append {cs ds : List Call} (h : FreshRun (cs ++ ds)) : FreshRun cs := by
  refine ⟨?_, fun msgs hm => h.queued msgs (List.mem_append_left _ hm)⟩
  have hn := h.nodup
  rw [appendedIds, List.flatMap_append] at hn
  exact hn.of_append_left

theorem FreshRun.last_fresh {cs : List Call} {c : Call} (h : FreshRun (cs ++ [c])) {id : String}
    (hid : id ∈ c.appendedIds) : id ∉ appendedIds cs := by
  have hn := h.nodup
  rw [appendedIds, List.flatMap_append] at hn
  intro hc
  exact List.disjoint_of_nodup_append hn hc (by simpa using hid)

theorem recordAfter_snoc (cs : List Call) (c : Call) (id : String) :
    recordAfter (cs ++ [c]) id = (exec c (after exec Store.new cs)).2.messages.lookup id := by
  simp [recordAfter]

theorem after_keyed (cs : List Call) : (after exec Store.new cs).Keyed := by
  induction cs using List.reverseRecOn with
  | nil => exact new_keyed
  | append_singleton cs c ih => simpa using exec_keyed ih c

/-- One step of a run, seen from one id. -/
theorem recordAfter_step (cs : List Call) (c : Call) (id : String) :
    RecordStep c (exec c (after exec Store.new cs)).1 id (recordAfter cs id)
      (recordAfter (cs ++ [c]) id) := by
  rw [recordAfter_snoc]
  exact exec_recordStep (after_keyed cs) c id

theorem handled_of_handsOut {c : Call} {reply : c.Reply} {id : String}
    (h : handsOut ⟨c, reply⟩ id = true) : Handled c reply id := by
  cases c with
  | claim req =>
    cases reply with
    | error e => simp [handsOut] at h
    | ok claimed => simpa [handsOut, Handled] using h
  | _ => simp [handsOut] at h

/-! ## Single steps -/

theorem RecordStep.reaches {c : Call} {reply : c.Reply} {id : String} {e e' : Record}
    (h : RecordStep c reply id (some e) (some e')) : e.msg.state.Reaches e'.msg.state := by
  cases h with
  | same => exact State.Reaches.refl _
  | claim hc =>
    obtain ⟨hs | hs, -⟩ := claimable_iff.mp hc <;> rw [hs]
    · exact .single rfl
    · have hq : State.retrying.Reaches .queued := .single rfl
      exact hq.trans (.single rfl)
  | acknowledge hp | release hp => rw [hp]; exact .single rfl
  | scheduleRetry hp =>
    rw [hp]
    have hf : State.processing.Reaches .failed := .single rfl
    exact hf.trans (.single rfl)
  | markDeadLettered hd =>
    rcases hd with hs | hs <;> rw [hs]
    · have hf : State.processing.Reaches .failed := .single rfl
      exact hf.trans (.single rfl)
    · exact .single rfl

/-- A settled record is left alone by everything but the deletion of a queue. -/
theorem RecordStep.of_terminal {c : Call} {reply : c.Reply} {id : String} {e : Record}
    {r : Option Record} (h : RecordStep c reply id (some e) r)
    (ht : e.msg.state.terminal = true) :
    r = some e ∨ r = none ∧ ∃ name, c = .deleteQueue name := by
  cases h with
  | same => exact Or.inl rfl
  | claim hc =>
    obtain ⟨hq | hq, -⟩ := claimable_iff.mp hc <;> simp [hq, State.terminal_eq] at ht
  | acknowledge hp | scheduleRetry hp | release hp => simp [hp, State.terminal_eq] at ht
  | markDeadLettered hd => rcases hd with hd | hd <;> simp [hd, State.terminal_eq] at ht
  | purge hf => simp [ht] at hf
  | deleteQueue => exact Or.inr ⟨rfl, _, rfl⟩

theorem RecordStep.leaseHeld {c : Call} {reply : c.Reply} {id : String} {r : Option Record}
    {e : Record} (h : RecordStep c reply id r (some e)) (hr : ∀ e₀, r = some e₀ → LeaseHeld e₀)
    (hreq : ∀ req, c = .claim req → req.consumer ≠ "" ∧ req.now + req.lease ≠ zeroTime)
    (happ : ∀ msgs, c = .append msgs → ∀ msg ∈ msgs, msg.state = .queued) : LeaseHeld e := by
  cases h with
  | same => exact hr e rfl
  | append hm => simp [LeaseHeld, unleased, happ _ rfl _ hm]
  | claim =>
    obtain ⟨hn, hl⟩ := hreq _ rfl
    simp [LeaseHeld, takenOver, hn, hl]
  | acknowledge | scheduleRetry | release | markDeadLettered =>
    simp [LeaseHeld, unleased, acknowledged, retried, released, deadLettered]

/-- The counter goes up by one when the message is handed out, and only then. -/
theorem RecordStep.attempts_eq {c : Call} {reply : c.Reply} {id : String} {e e' : Record}
    (h : RecordStep c reply id (some e) (some e')) :
    e'.msg.attempts = e.msg.attempts + if handsOut ⟨c, reply⟩ id then 1 else 0 := by
  cases h with
  | same hh =>
    have hf : handsOut ⟨c, reply⟩ id = false := by
      by_contra hc
      exact hh (handled_of_handsOut (by simpa using hc))
    simp [hf]
  | claim hc hm hid =>
    have ht : id ∈ List.map Message.id _ := List.mem_map.mpr ⟨_, hm, hid⟩
    simp [handsOut, takenOver, ht]
  | acknowledge | scheduleRetry | release | markDeadLettered =>
    simp [handsOut, unleased, acknowledged, retried, released, deadLettered]

/-- A claim hands out only what is stored and claimable, and takes it over. -/
theorem RecordStep.of_handsOut {c : Call} {reply : c.Reply} {id : String} {r r' : Option Record}
    (h : RecordStep c reply id r r') (ho : handsOut ⟨c, reply⟩ id = true) :
    ∃ e req, r = some e ∧ r' = some (takenOver req e) ∧
      (e.msg.state = .queued ∨ e.msg.state = .retrying) := by
  cases h with
  | same hh => exact absurd (handled_of_handsOut ho) hh
  | claim hc => exact ⟨_, _, rfl, rfl, (claimable_iff.mp hc).1⟩
  | append | acknowledge | scheduleRetry | release | markDeadLettered | purge | deleteQueue =>
    simp [handsOut] at ho

def AwaitsClaim (state : State) : Prop := state = .queued ∨ state = .retrying

/-- Only a retry or a release puts a message back in line. -/
theorem RecordStep.not_awaitsClaim {c : Call} {reply : c.Reply} {id : String} {e e' : Record}
    (h : RecordStep c reply id (some e) (some e')) (hg : givesBack ⟨c, reply⟩ id = false)
    (he : ¬ AwaitsClaim e.msg.state) : ¬ AwaitsClaim e'.msg.state := by
  cases h with
  | same => exact he
  | claim hc => exact absurd (claimable_iff.mp hc).1 he
  | acknowledge | markDeadLettered => simp [AwaitsClaim, unleased, acknowledged, deadLettered]
  | scheduleRetry | release => simp [givesBack] at hg

/-! ## Whole runs -/

theorem traceOf_snoc (cs : List Call) (c : Call) :
    traceOf (cs ++ [c]) = traceOf cs ++ [⟨c, (exec c (after exec Store.new cs)).1⟩] :=
  trace_snoc exec Store.new cs c

theorem mem_appendedIds_snoc {cs : List Call} {c : Call} {id : String} :
    id ∈ appendedIds (cs ++ [c]) ↔ id ∈ appendedIds cs ∨ id ∈ c.appendedIds := by
  simp [appendedIds]

/-- Nothing is stored under an id that was never appended. -/
theorem recordAfter_eq_none {cs : List Call} {id : String} (h : id ∉ appendedIds cs) :
    recordAfter cs id = none := by
  induction cs using List.reverseRecOn with
  | nil => rfl
  | append_singleton cs c ih =>
    rw [mem_appendedIds_snoc, not_or] at h
    have hs := recordAfter_step cs c id
    rw [ih h.1] at hs
    cases hr : recordAfter (cs ++ [c]) id with
    | none => rfl
    | some e =>
      rw [hr] at hs
      obtain ⟨msgs, msg, rfl, -, hm, rfl, -⟩ := hs.of_none
      exact absurd (List.mem_map_of_mem hm) h.2

theorem claimCount_snoc (cs : List Call) (c : Call) (id : String) :
    claimCount (traceOf (cs ++ [c])) id = claimCount (traceOf cs) id +
      if handsOut ⟨c, (exec c (after exec Store.new cs)).1⟩ id then 1 else 0 := by
  simp [claimCount, traceOf_snoc, List.countP_singleton]

theorem claimCount_eq_zero {cs : List Call} {id : String} (h : id ∉ appendedIds cs) :
    claimCount (traceOf cs) id = 0 := by
  induction cs using List.reverseRecOn with
  | nil => rfl
  | append_singleton cs c ih =>
    rw [mem_appendedIds_snoc, not_or] at h
    have hf : ¬ handsOut ⟨c, (exec c (after exec Store.new cs)).1⟩ id = true := by
      intro ho
      obtain ⟨e, req, he, -⟩ := (recordAfter_step cs c id).of_handsOut ho
      simp [recordAfter_eq_none h.1] at he
    rw [claimCount_snoc, ih h.1, if_neg hf]

/-- The counter of a stored message is the number of claims that handed it out. -/
theorem attempts_eq_claimCount {cs : List Call} (h : FreshRun cs) {id : String} {e : Record}
    (he : recordAfter cs id = some e) : e.msg.attempts = claimCount (traceOf cs) id := by
  induction cs using List.reverseRecOn generalizing e with
  | nil => simp [recordAfter, Store.new] at he
  | append_singleton cs c ih =>
    have hs := recordAfter_step cs c id
    rw [he] at hs
    cases hr : recordAfter cs id with
    | none =>
      rw [hr] at hs
      obtain ⟨msgs, msg, rfl, -, hm, rfl, rfl⟩ := hs.of_none
      rw [claimCount_snoc, claimCount_eq_zero (h.last_fresh (List.mem_map_of_mem hm))]
      simp [handsOut, unleased, (h.queued msgs (by simp) msg hm).2]
    | some e₀ =>
      rw [hr] at hs
      rw [hs.attempts_eq, ih h.of_append hr, claimCount_snoc]
      split_ifs <;> simp

/-- Once settled, a record stays as it is until its queue is deleted. -/
theorem recordAfter_of_terminal {ds : List Call} {id : String} {e : Record}
    (he : recordAfter ds id = some e) (ht : e.msg.state.terminal = true)
    {fs : List Call} (hids : (appendedIds (ds ++ fs)).Nodup) :
    recordAfter (ds ++ fs) id = some e ∨
      recordAfter (ds ++ fs) id = none ∧ ∃ name, .deleteQueue name ∈ fs := by
  have hused : id ∈ appendedIds ds := by
    by_contra hc
    simp [recordAfter_eq_none hc] at he
  induction fs using List.reverseRecOn with
  | nil => exact Or.inl (by simpa using he)
  | append_singleton fs c ih =>
    rw [← List.append_assoc] at hids ⊢
    have hn : (appendedIds (ds ++ fs)).Nodup := by
      rw [appendedIds, List.flatMap_append] at hids
      exact hids.of_append_left
    have hs := recordAfter_step (ds ++ fs) c id
    rcases ih hn with hr | ⟨hr, name, hm⟩ <;> rw [hr] at hs
    · rcases hs.of_terminal ht with h | ⟨h, name, rfl⟩
      · exact Or.inl h
      · exact Or.inr ⟨h, name, by simp⟩
    · -- A deleted id cannot come back: it would have to be appended again.
      refine Or.inr ⟨?_, name, List.mem_append_left _ hm⟩
      cases hr' : recordAfter (ds ++ fs ++ [c]) id with
      | none => rfl
      | some e' =>
        rw [hr'] at hs
        obtain ⟨msgs, msg, rfl, -, hm', rfl, -⟩ := hs.of_none
        rw [appendedIds, List.flatMap_append] at hids
        have hin : msg.id ∈ (ds ++ fs).flatMap Call.appendedIds := by
          rw [List.flatMap_append]
          exact List.mem_append_left _ hused
        have hagain : msg.id ∈ [Call.append msgs].flatMap Call.appendedIds := by
          simpa [Call.appendedIds] using ⟨msg, hm', rfl⟩
        exact absurd hagain (List.disjoint_of_nodup_append hids hin)

theorem leaseHeld_after {cs : List Call} (h : FreshRun cs) (hn : NamedClaims cs) {id : String}
    {e : Record} (he : recordAfter cs id = some e) : LeaseHeld e := by
  induction cs using List.reverseRecOn generalizing e with
  | nil => simp [recordAfter, Store.new] at he
  | append_singleton cs c ih =>
    have hs := recordAfter_step cs c id
    rw [he] at hs
    refine hs.leaseHeld (fun e₀ hr => ih h.of_append (fun req hm => hn req (by simp [hm])) hr) ?_ ?_
    · rintro req rfl
      exact hn req (by simp)
    · rintro msgs rfl msg hm
      exact (h.queued msgs (by simp) msg hm).1

/-- A message that was handed out and not given back since is not in line. -/
theorem not_awaitsClaim_of_held {cs : List Call} (h : FreshRun cs) {id : String}
    {before later : List StoreEvent} {ev : StoreEvent} (ht : traceOf cs = before ++ ev :: later)
    (ho : handsOut ev id = true) (hg : ∀ g ∈ later, givesBack g id = false) {e : Record}
    (he : recordAfter cs id = some e) : ¬ AwaitsClaim e.msg.state := by
  induction cs using List.reverseRecOn generalizing e later with
  | nil => simp [traceOf] at ht
  | append_singleton cs c ih =>
    have hs := recordAfter_step cs c id
    rw [he] at hs
    rw [traceOf_snoc] at ht
    rcases List.eq_nil_or_concat later with rfl | ⟨later, g, rfl⟩
    · -- The last event is the claim itself.
      obtain ⟨-, hlast⟩ := List.append_inj' ht rfl
      obtain rfl := List.singleton_inj.mp hlast
      obtain ⟨e₀, req, -, hr', -⟩ := hs.of_handsOut ho
      obtain rfl := Option.some.inj hr'
      simp [AwaitsClaim, takenOver]
    · have ht' : traceOf cs ++ [⟨c, (exec c (after exec Store.new cs)).1⟩] =
          (before ++ ev :: later) ++ [g] := by
        simpa using ht
      obtain ⟨ht₀, hlast⟩ := List.append_inj' ht' rfl
      have hgc := hg g (by simp)
      obtain rfl := List.singleton_inj.mp hlast
      cases hr : recordAfter cs id with
      | none =>
        rw [hr] at hs
        obtain ⟨msgs, msg, rfl, -, hm, rfl, -⟩ := hs.of_none
        -- The id was handed out before, so it was appended before.
        have h0 := claimCount_eq_zero (h.last_fresh (List.mem_map_of_mem hm))
        rw [ht₀, claimCount, List.countP_eq_zero] at h0
        exact absurd ho (h0 ev (by simp))
      | some e₀ =>
        rw [hr] at hs
        exact hs.not_awaitsClaim hgc
          (ih h.of_append ht₀ (fun g hm => hg g (by simp [hm])) hr)

theorem givesBack_between {cs : List Call} (h : FreshRun cs) {id : String}
    {before mid later : List StoreEvent} {ev ev' : StoreEvent}
    (ht : traceOf cs = before ++ ev :: mid ++ ev' :: later) (ho : handsOut ev id = true)
    (ho' : handsOut ev' id = true) : ∃ g ∈ mid, givesBack g id = true := by
  by_contra hg
  simp only [not_exists, not_and, Bool.not_eq_true] at hg
  obtain ⟨ds, c, fs, rfl, hds, rfl, -⟩ := trace_split exec ht
  obtain ⟨e, req, he, -, hs⟩ := (recordAfter_step ds c id).of_handsOut ho'
  exact not_awaitsClaim_of_held h.of_append hds.symm ho hg he hs

/-- What it means that the driver keeps the lifecycle of every message along a run. -/
structure LifecycleSound (cs : List Call) : Prop where
  born : ∀ ds c fs, cs = ds ++ c :: fs → ∀ id e, recordAfter ds id = none →
    recordAfter (ds ++ [c]) id = some e → e.msg.state = .queued
  path : ∀ ds c fs, cs = ds ++ c :: fs → ∀ id e e', recordAfter ds id = some e →
    recordAfter (ds ++ [c]) id = some e' → e.msg.state.Reaches e'.msg.state
  frozen : ∀ ds fs, cs = ds ++ fs → ∀ id e, recordAfter ds id = some e →
    e.msg.state.terminal = true →
    recordAfter cs id = some e ∨ recordAfter cs id = none ∧ ∃ name, .deleteQueue name ∈ fs
  lease : NamedClaims cs → ∀ id e, recordAfter cs id = some e → LeaseHeld e
  attempts : ∀ id e, recordAfter cs id = some e → e.msg.attempts = claimCount (traceOf cs) id
  returned : ∀ id before ev mid ev' later, traceOf cs = before ++ ev :: mid ++ ev' :: later →
    handsOut ev id = true → handsOut ev' id = true → ∃ g ∈ mid, givesBack g id = true

/-- Lifecycle soundness of the in-memory driver, along every run of its methods. -/
theorem lifecycle_sound (cs : List Call) (h : FreshRun cs) : LifecycleSound cs where
  born := by
    rintro ds c fs rfl id e hn he
    have hs := recordAfter_step ds c id
    rw [hn, he] at hs
    obtain ⟨msgs, msg, rfl, -, hm, -, rfl⟩ := hs.of_none
    exact (h.queued msgs (by simp) msg hm).1
  path := by
    rintro ds c fs rfl id e e' he he'
    have hs := recordAfter_step ds c id
    rw [he, he'] at hs
    exact hs.reaches
  frozen := by
    rintro ds fs rfl id e he ht
    exact recordAfter_of_terminal he ht h.nodup
  lease := fun hn id e he => leaseHeld_after h hn he
  attempts := fun id e he => attempts_eq_claimCount h he
  returned := fun id before ev mid ev' later ht ho ho' => givesBack_between h ht ho ho'

/-- A one-byte message sent straight to a queue, as it stands when it is appended. -/
def arrival (id queue : String) (now : Time) : Message :=
  { Message.new id ⟨"", queue, some [0], ∅, ""⟩ queue now with state := .queued }

/-- A message is claimed, released, claimed again and acknowledged. -/
def secondDelivery : List Call :=
  [.append [arrival "m" "orders" 1], .claim ⟨"orders", "a", 1, 10, 2⟩, .release "m" 3,
    .claim ⟨"orders", "b", 1, 10, 4⟩, .acknowledge "m" 5]

theorem lifecycle_sound_secondDelivery :
    FreshRun secondDelivery ∧ NamedClaims secondDelivery ∧ LifecycleSound secondDelivery := by
  have hf : FreshRun secondDelivery :=
    ⟨by decide, by simp [secondDelivery, arrival, Message.new]⟩
  exact ⟨hf, by simp [NamedClaims, secondDelivery, zeroTime], lifecycle_sound _ hf⟩

end RabbitmqLite.Storage.Memory
