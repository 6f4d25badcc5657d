import RabbitmqLite.Engine.Discipline

/-! # What the store keeps about one message

An operation that runs to completion is seen from one message: its record, its
history and the dead letters that name it. Every step of the engine changes
this view by a function of it, and views of other messages stay as they are.
-/

namespace RabbitmqLite.Engine
open Broker Collections Storage Atomic
open Memory (Record SameLedger Handled)

@[ext] structure View where
  record : Option Record
  history : List HistoryEvent
  letters : String → Option DeadLetter

namespace View

def empty : View := ⟨none, [], fun _ => none⟩

/-- The message is in processing. -/
def Leased (v : View) : Prop := ∃ e, v.record = some e ∧ e.msg.state = .processing

/-- A message in processing is settled, and events are written about it. -/
def settled (change : Message → Message) (events : List HistoryEvent) (v : View) : View :=
  match v.record with
  | none => v
  | some e =>
    if e.msg.state = .processing then
      ⟨some (Memory.unleased (change e.msg)), v.history ++ events, v.letters⟩
    else v

def recorded (events : List HistoryEvent) (v : View) : View :=
  { v with history := v.history ++ events }

def filed (letter : DeadLetter) (v : View) : View :=
  { v with letters := Function.update v.letters letter.id (some letter) }

def takenOver (req : ClaimRequest) (v : View) : View :=
  { v with record := v.record.map (Memory.takenOver req) }

theorem settled_of_leased {v : View} {e : Record} (hr : v.record = some e)
    (hp : e.msg.state = .processing) (change : Message → Message) (events : List HistoryEvent) :
    v.settled change events =
      ⟨some (Memory.unleased (change e.msg)), v.history ++ events, v.letters⟩ := by
  simp [settled, hr, hp]

theorem settled_of_not_leased {v : View} (h : ¬ v.Leased) (change : Message → Message)
    (events : List HistoryEvent) : v.settled change events = v := by
  unfold settled
  cases hr : v.record with
  | none => rfl
  | some e => exact if_neg (fun hp => h ⟨e, hr, hp⟩)

/-- The record after a settlement is the old one, or that of a message which was in
processing. -/
theorem record_settled_cases {v : View} {change : Message → Message}
    {events : List HistoryEvent} {e' : Record} (h : (v.settled change events).record = some e') :
    v.record = some e' ∨ ∃ e, v.record = some e ∧ e.msg.state = .processing ∧
      e' = Memory.unleased (change e.msg) := by
  by_cases hp : v.Leased
  · obtain ⟨e, hr, hp⟩ := hp
    rw [settled_of_leased hr hp] at h
    exact Or.inr ⟨e, hr, hp, (Option.some.inj h).symm⟩
  · rw [settled_of_not_leased hp] at h
    exact Or.inl h

/-- Settling and then writing is settling with that event. -/
theorem recorded_settled {v : View} (h : v.Leased) (change : Message → Message)
    (events events' : List HistoryEvent) :
    (v.settled change events).recorded events' = v.settled change (events ++ events') := by
  obtain ⟨e, hr, hp⟩ := h
  rw [settled_of_leased hr hp, settled_of_leased hr hp]
  simp [recorded]

@[simp] theorem letters_settled (v : View) (change : Message → Message)
    (events : List HistoryEvent) : (v.settled change events).letters = v.letters := by
  unfold settled
  cases v.record with
  | none => rfl
  | some e => dsimp only; split_ifs <;> rfl

end View

/-- What the store keeps about a message. -/
def viewOf (s : Memory.Store) (id : String) : View where
  record := s.messages.lookup id
  history := s.history id
  letters := fun a => (s.deadLetters.lookup a).filter (fun d => d.messageID = id)

def World.view (w : World) (id : String) : View := viewOf w.store id

/-- A change of one view only. -/
def onlyAt (id : String) (f : View → View) : String → View → View :=
  fun x v => if x = id then f v else v

@[simp] theorem onlyAt_self (id : String) (f : View → View) (v : View) :
    onlyAt id f id v = f v := if_pos rfl

theorem onlyAt_of_ne {id x : String} (h : x ≠ id) (f : View → View) (v : View) :
    onlyAt id f x v = v := if_neg h

/-- Two changes of the same view are one. -/
theorem onlyAt_onlyAt (id : String) (f g : View → View) :
    (fun x v => onlyAt id g x (onlyAt id f x v)) = onlyAt id (fun v => g (f v)) := by
  funext x v
  by_cases hx : x = id
  · subst hx
    simp
  · simp [onlyAt_of_ne hx]

/-! ## Store calls -/

/-- A call that touches one record and no ledger. -/
theorem viewOf_of_record {s t : Memory.Store} {id : String} {r : Option Record}
    (hm : ∀ x, t.messages.lookup x = if x = id then r else s.messages.lookup x)
    (hl : SameLedger s t) (x : String) :
    viewOf t x = onlyAt id (fun v => { v with record := r }) x (viewOf s x) := by
  by_cases hx : x = id
  · subst hx
    simp [viewOf, hm, hl.letters, hl.history]
  · rw [onlyAt_of_ne hx]
    simp [viewOf, hm, hx, hl.letters, hl.history]

/-- How a call settles a message: the message it names and what it makes of it. -/
def settling : Call → Option (String × (Message → Message))
  | .acknowledge id now => some (id, fun msg => Memory.acknowledged msg now)
  | .scheduleRetry req => some (req.id, fun msg => Memory.retried msg req)
  | .release id now => some (id, fun msg => Memory.released msg now)
  | .markDeadLettered id reason now => some (id, fun msg => Memory.deadLettered msg reason now)
  | _ => none

/-- The store after a message was settled, or after that was refused. -/
structure SettledAs (s : Memory.Store) (id : String) (change : Message → Message)
    (succeeded : Prop) (t : Memory.Store) : Prop where
  done : ∀ e, s.messages.lookup id = some e → e.msg.state = .processing →
    succeeded ∧ SameLedger s t ∧ ∀ x, t.messages.lookup x =
      if x = id then some (Memory.unleased (change e.msg)) else s.messages.lookup x
  refused : ¬ (viewOf s id).Leased → ¬ succeeded ∧ t = s

theorem SettledAs.onLeased (handled : Except Storage.Error Unit → Prop) (hyes : handled (.ok ()))
    (hno : ∀ e, ¬ handled (.error e)) {s : Memory.Store} {id : String}
    {change : Message → Message} {target : Record → Memory.Store}
    (hl : ∀ e, SameLedger s (target e))
    (hm : ∀ e x, (target e).messages.lookup x =
      if x = id then some (Memory.unleased (change e.msg)) else s.messages.lookup x) :
    SettledAs s id change (handled (s.onLeased id target).1) (s.onLeased id target).2 where
  done := by
    intro e hr hp
    rw [Memory.Store.onLeased_of_processing hr hp]
    exact ⟨hyes, hl e, hm e⟩
  refused := by
    intro hnot
    obtain ⟨err, h⟩ := Memory.Store.onLeased_of_not (fun e hr hp => hnot ⟨e, hr, hp⟩) target
    rw [h]
    exact ⟨hno err, rfl⟩

/-- All four settling calls work on messages in processing only, since no message is stored
as failed. -/
theorem exec_settledAs {s : Memory.Store} {c : Call} {id : String} {change : Message → Message}
    (hc : settling c = some (id, change))
    (hf : ∀ e, s.messages.lookup id = some e → e.msg.state ≠ .failed) :
    SettledAs s id change (Handled c (Memory.exec c s).1 id) (Memory.exec c s).2 := by
  cases c with
  | acknowledge i now =>
    obtain ⟨rfl, rfl⟩ := Prod.mk.inj (Option.some.inj hc)
    simp only [Memory.exec, Memory.Store.acknowledge_eq]
    apply SettledAs.onLeased (fun reply => Handled (.acknowledge i now) reply i) rfl
      (fun _ => not_false)
    · exact fun e => ⟨rfl, rfl, rfl, rfl⟩
    · simp
  | scheduleRetry req =>
    obtain ⟨rfl, rfl⟩ := Prod.mk.inj (Option.some.inj hc)
    simp only [Memory.exec, Memory.Store.scheduleRetry_eq]
    apply SettledAs.onLeased (fun reply => Handled (.scheduleRetry req) reply req.id) rfl
      (fun _ => not_false)
    · exact fun e => ⟨rfl, rfl, rfl, rfl⟩
    · simp
  | release i now =>
    obtain ⟨rfl, rfl⟩ := Prod.mk.inj (Option.some.inj hc)
    simp only [Memory.exec, Memory.Store.release_eq]
    apply SettledAs.onLeased (fun reply => Handled (.release i now) reply i) rfl
      (fun _ => not_false)
    · exact fun e => ⟨rfl, rfl, rfl, rfl⟩
    · simp
  | markDeadLettered i reason now =>
    obtain ⟨rfl, rfl⟩ := Prod.mk.inj (Option.some.inj hc)
    simp only [Memory.exec, Memory.Store.markDeadLettered_eq]
    constructor
    · intro e hr hp
      simp only [hr, Memory.Doomable, hp, true_or, if_true]
      exact ⟨rfl, ⟨rfl, rfl, rfl, rfl⟩, by simp⟩
    · intro hnot
      cases hr : s.messages.lookup i with
      | none => exact ⟨not_false, rfl⟩
      | some e =>
        have hd : ¬ Memory.Doomable e.msg.state := by
          rintro (hp | hp)
          · exact hnot ⟨e, hr, hp⟩
          · exact hf e hr hp
        simp only [if_neg hd]
        exact ⟨not_false, trivial⟩
  | _ => cases hc

theorem SettledAs.view {s t : Memory.Store} {id : String} {change : Message → Message} {p : Prop}
    (h : SettledAs s id change p t) (x : String) :
    viewOf t x = onlyAt id (View.settled change []) x (viewOf s x) := by
  by_cases hp : (viewOf s id).Leased
  · obtain ⟨e, hr, hp⟩ := hp
    obtain ⟨-, hl, hm⟩ := h.done e hr hp
    rw [viewOf_of_record hm hl]
    by_cases hx : x = id
    · subst hx
      rw [onlyAt_self, onlyAt_self, View.settled_of_leased hr hp, List.append_nil]
    · rw [onlyAt_of_ne hx, onlyAt_of_ne hx]
  · rw [(h.refused hp).2]
    by_cases hx : x = id
    · subst hx
      rw [onlyAt_self, View.settled_of_not_leased hp]
    · rw [onlyAt_of_ne hx]

theorem SettledAs.succeeded_iff {s t : Memory.Store} {id : String} {change : Message → Message}
    {p : Prop} (h : SettledAs s id change p t) : p ↔ (viewOf s id).Leased := by
  constructor
  · intro hp
    by_contra hnot
    exact (h.refused hnot).1 hp
  · rintro ⟨e, hr, hp⟩
    exact (h.done e hr hp).1

theorem viewOf_appendHistory {s : Memory.Store} (ho : s.closed = false) (event : HistoryEvent)
    (x : String) :
    viewOf (Memory.exec (.appendHistory event) s).2 x =
      onlyAt event.messageID (View.recorded [event]) x (viewOf s x) := by
  simp only [Memory.exec, Memory.Store.appendHistory, Memory.Store.unlessClosed, ho,
    Bool.false_eq_true, if_false]
  by_cases hx : x = event.messageID
  · subst hx
    simp [viewOf, View.recorded]
  · rw [onlyAt_of_ne hx]
    simp [viewOf, Function.update_of_ne hx]

/-- A letter without an id is saved under the generated one, if it is not taken. -/
theorem saveDeadLetter_of_fresh {s : Memory.Store} (ho : s.closed = false) {entry : DeadLetter}
    (hid : entry.id = "") {newID : String} (hn : s.deadLetters.lookup newID = none) :
    (Memory.exec (.saveDeadLetter entry newID) s).1 = .ok () ∧
      ∀ x, viewOf (Memory.exec (.saveDeadLetter entry newID) s).2 x =
        onlyAt entry.messageID (View.filed { entry with id := newID }) x (viewOf s x) := by
  have hfree : s.deadLetters.lookup (Memory.filed entry newID).id = none := by
    rw [Memory.filed_of_unnamed hid]
    exact hn
  simp only [Memory.exec, Memory.Store.saveDeadLetter_eq, Memory.Store.unlessClosed, ho, hfree,
    Memory.filed_of_unnamed hid, Bool.false_eq_true, if_false, true_and]
  intro x
  by_cases hx : x = entry.messageID
  · rw [hx, onlyAt_self]
    refine View.ext rfl rfl (funext fun a => ?_)
    by_cases ha : a = newID
    · simp [viewOf, View.filed, ha]
    · simp [viewOf, View.filed, lookup_insert_eq, ha]
  · rw [onlyAt_of_ne hx]
    refine View.ext rfl rfl (funext fun a => ?_)
    by_cases ha : a = newID
    · simp [viewOf, ha, hn, Ne.symm hx]
    · simp [viewOf, lookup_insert_eq, ha]

/-- A claim changes the views of the messages it hands out. -/
theorem viewOf_claim {s : Memory.Store} (hk : s.Keyed) (req : ClaimRequest) :
    (∃ e, (Memory.exec (.claim req) s).1 = .error e ∧
      ∀ x, viewOf (Memory.exec (.claim req) s).2 x = viewOf s x) ∨
    ∃ claimed, (Memory.exec (.claim req) s).1 = .ok claimed ∧ (claimed.map Message.id).Nodup ∧
      (∀ msg ∈ claimed, ∃ e, s.messages.lookup msg.id = some e ∧
        Memory.claimable e.msg req.now = true ∧ msg = (Memory.takenOver req e).msg) ∧
      ∀ x, viewOf (Memory.exec (.claim req) s).2 x =
        if x ∈ claimed.map Message.id then (viewOf s x).takenOver req else viewOf s x := by
  obtain ⟨order, settled, ⟨e, h⟩ | ⟨picked, messages, hp, hm, h⟩⟩ := s.claim_cases req
  · left
    simp only [Memory.exec, h]
    exact ⟨e, rfl, fun x => rfl⟩
  · right
    have hids : (picked.filterMap (Memory.handedOut req s.messages)).map Message.id = picked :=
      Memory.map_id_handedOut hk hp.claimable
    simp only [Memory.exec, h]
    refine ⟨_, rfl, by rw [hids]; exact hp.nodup, ?_, ?_⟩
    · intro msg hmem
      obtain ⟨id, hid, hout⟩ := List.mem_filterMap.mp hmem
      obtain ⟨entry, hl, hc⟩ := Memory.claimableIn_iff.mp (hp.claimable id hid)
      simp only [Memory.handedOut, hl, Option.map_some, Option.some.injEq] at hout
      subst hout
      exact ⟨entry, (hk id entry hl).symm ▸ hl, hc, rfl⟩
    · intro x
      rw [hids]
      by_cases hx : x ∈ picked
      · simp [viewOf, View.takenOver, hm, hx]
      · simp [viewOf, hm, hx]

end RabbitmqLite.Engine
