import Mathlib.Algebra.Order.Floor.Semiring
import RabbitmqLite.Collections.SortedPrefix
import RabbitmqLite.Engine.Change
import RabbitmqLite.Engine.NoLoss

/-! # Passes of the lease reclaimer

A pass lists at most 256 expired leases, in the order of the message ids, and
works through the list. Every listed message leaves the processing state, so
the next pass starts where this one ended. All that is asked of the store is
that it is open, keeps each message under its own id, and has no dead letter
under an id that is still to be generated.
-/

namespace RabbitmqLite.Engine
open Broker Collections Storage Atomic
open Memory (Record Handled exec_letterStep)

variable {engine : Engine} {env : Env}

/-- The message is in its queue again, available from now on, and nobody holds it. -/
def Requeued (now : Time) (msg : Message) (v v' : View) : Prop :=
  v'.record = some ⟨{ msg with
    state := .queued
    updatedAt := now
    availableAt := now }, zeroTime, ""⟩ ∧ v'.letters = v.letters

/-- The message is given up and nobody holds it; among the letters about it there is one
more, under an id that was new. -/
def GivenUp (new : String → Prop) (now : Time) (msg : Message) (v v' : View) : Prop :=
  v'.record = some ⟨{ msg with
    state := .deadLettered
    updatedAt := now
    lastError := Cause.leaseExpired.text }, zeroTime, ""⟩ ∧
  ∃ letter : DeadLetter, new letter.id ∧ letter.messageID = msg.id ∧
    letter.errorKind = errorKindExpired ∧ letter.attempts = msg.attempts ∧
    v'.letters = Function.update v.letters letter.id (some letter)

/-- What a pass at this time makes of a world. -/
structure Pass (engine : Engine) (now : Time) (w w' : World) : Prop where
  listed : (overdue w now).length = min (Memory.expired w.store.messages now).length 256
  requeued : ∀ msg ∈ overdue w now, msg.attempts < engine.policy.maxAttempts →
    Requeued now msg (w.view msg.id) (w'.view msg.id)
  givenUp : ∀ msg ∈ overdue w now, engine.policy.maxAttempts ≤ msg.attempts →
    GivenUp (fun id => w.store.deadLetters.lookup id = none) now msg
      (w.view msg.id) (w'.view msg.id)
  others : ∀ id, id ∉ (overdue w now).map Message.id → w'.view id = w.view id

/-! ## Steps -/

/-- From a world to a serviceable one at the same time, in which every view has changed by a
function of it. -/
structure Turns (env : Env) (w w' : World) (f : String → View → View) : Prop where
  serviceable : Serviceable env w'
  ids : w.ids ≤ w'.ids
  ticks : w'.ticks = w.ticks
  view : ∀ x, w'.view x = f x (w.view x)

theorem Turns.trans {w w' w'' : World} {f g : String → View → View} (h : Turns env w w' f)
    (h' : Turns env w' w'' g) : Turns env w w'' (fun x v => g x (f x v)) where
  serviceable := h'.serviceable
  ids := h.ids.trans h'.ids
  ticks := h'.ticks.trans h.ticks
  view := by
    intro x
    rw [h'.view, h.view]

theorem Turns.trans_onlyAt {w w' w'' : World} {id : String} {f g : View → View}
    (h : Turns env w w' (onlyAt id f)) (h' : Turns env w' w'' (onlyAt id g)) :
    Turns env w w'' (onlyAt id (fun v => g (f v))) :=
  onlyAt_onlyAt id f g ▸ h.trans h'

theorem Serviceable.callStore {w : World} (h : Serviceable env w) {c : Call} (hc : c ≠ .close)
    (hsave : ∀ entry newID, c ≠ .saveDeadLetter entry newID) :
    Serviceable env (w.callStore c).2 where
  keyed := Memory.exec_keyed h.keyed c
  opened := (Memory.exec_closed hc w.store).trans h.opened
  fresh := by
    intro n hn
    have hs := exec_letterStep c w.store (env.newID n)
    rw [h.fresh n hn] at hs
    cases hl : (Memory.exec c w.store).2.deadLetters.lookup (env.newID n) with
    | none => exact hl
    | some letter =>
      rw [hl] at hs
      obtain ⟨entry, newID, rfl, -⟩ := hs.of_none
      exact absurd rfl (hsave entry newID)

theorem recordHistory_turns {w : World} (h : Serviceable env w) (event : HistoryEvent) :
    Runs env (recordHistory event) w
      (fun _ w' => Turns env w w' (onlyAt event.messageID (View.recorded [event]))) :=
  ⟨h.callStore (by simp) (by simp), le_rfl, rfl, viewOf_appendHistory h.opened event⟩

/-- A message in processing is settled. -/
theorem settle_turns {w : World} (h : Serviceable env w) {c : Call} {id : String}
    {change : Message → Message} (hc : settling c = some (id, change)) {e : Record}
    (hr : (w.view id).record = some e) (hp : e.msg.state = .processing) (party : Party)
    (attempt : ℤ) :
    Runs env (settle party attempt c) w (fun reply w' =>
      Turns env w w' (onlyAt id (View.settled change [])) ∧ Handled c reply id) := by
  have hs := exec_settledAs (s := w.store) hc (by
    intro e' hr'
    obtain rfl : e = e' := Option.some.inj (hr.symm.trans hr')
    simp [hp])
  refine ⟨⟨h.callStore ?_ ?_, le_rfl, rfl, hs.view⟩, hs.succeeded_iff.mpr ⟨e, hr, hp⟩⟩
  · rintro rfl
    cases hc
  · rintro entry newID rfl
    cases hc

/-- The store lists the message as in processing. -/
def InProcessing (w : World) (msg : Message) : Prop :=
  ∃ e, (w.view msg.id).record = some e ∧ e.msg = msg ∧ msg.state = .processing

theorem requeueExpired_turns {w : World} (h : Serviceable env w) {msg : Message}
    (hm : InProcessing w msg) (now : Time) :
    Runs env (requeueExpired msg now) w (fun _ w' => ∃ g, Turns env w w' (onlyAt msg.id g) ∧
      Requeued now msg (w.view msg.id) (g (w.view msg.id))) := by
  obtain ⟨e, hr, rfl, hp⟩ := hm
  apply (settle_turns h rfl hr hp _ _).bind
  rintro reply w₁ ⟨h₁, hok⟩
  cases reply with
  | error err => exact hok.elim
  | ok u =>
    apply (recordHistory_turns h₁.serviceable _).bind
    intro _ w₂ h₂
    refine Runs.pure ⟨_, h₁.trans_onlyAt h₂, ?_⟩
    rw [View.settled_of_leased hr hp]
    exact ⟨rfl, rfl⟩

/-- A new id is that of no letter, and it is not generated again. -/
theorem newID_turns (hinj : Function.Injective env.newID) {w : World} (h : Serviceable env w) :
    Runs env newID w (fun id w' => Turns env w w' still ∧ id = env.newID w.ids ∧
      w'.store.deadLetters.lookup id = none ∧ ∀ n, w'.ids ≤ n → env.newID n ≠ id) := by
  refine ⟨⟨⟨h.keyed, h.opened, ?_⟩, Nat.le_succ w.ids, rfl, fun _ => rfl⟩, rfl,
    h.fresh w.ids le_rfl, ?_⟩
  · intro n hn
    exact h.fresh n ((Nat.le_succ w.ids).trans hn)
  · intro n hn heq
    exact absurd (hinj heq) (Nat.ne_of_gt hn)

theorem saveDeadLetter_turns {w : World} (h : Serviceable env w) (letter : DeadLetter) {id : String}
    (hid : letter.id = "") (hn : w.store.deadLetters.lookup id = none)
    (hlast : ∀ n, w.ids ≤ n → env.newID n ≠ id) :
    Runs env (store (.saveDeadLetter letter id)) w (fun reply w' => reply = .ok () ∧
      Turns env w w' (onlyAt letter.messageID (View.filed { letter with id := id }))) := by
  obtain ⟨hok, hv⟩ := saveDeadLetter_of_fresh h.opened hid hn
  refine ⟨hok, ⟨Memory.exec_keyed h.keyed _, ?_, ?_⟩, le_rfl, rfl, hv⟩
  · exact (Memory.exec_closed (by simp) w.store).trans h.opened
  · intro n hle
    have hs := exec_letterStep (.saveDeadLetter letter id) w.store (env.newID n)
    rw [h.fresh n hle] at hs
    cases hl : (Memory.exec (.saveDeadLetter letter id) w.store).2.deadLetters.lookup
        (env.newID n) with
    | none => exact hl
    | some d =>
      rw [hl] at hs
      obtain ⟨entry, newID, hcall, heq⟩ := hs.of_none
      obtain ⟨rfl, rfl⟩ := Call.saveDeadLetter.inj hcall
      rw [Memory.filed_of_unnamed hid] at heq
      exact absurd heq.symm (hlast n hle)

/-- The ids that are generated from this world on. -/
def Upcoming (env : Env) (w : World) (id : String) : Prop := ∃ n, w.ids ≤ n ∧ env.newID n = id

theorem deadLetter_turns (hinj : Function.Injective env.newID) {w : World} (h : Serviceable env w)
    {msg : Message} (hm : InProcessing w msg) (party : Party) (consumer : String) (now : Time) :
    Runs env (deadLetter party consumer ⟨msg, msg.attempts, msg.queue⟩ .leaseExpired now) w
      (fun _ w' => ∃ g, Turns env w w' (onlyAt msg.id g) ∧
        GivenUp (Upcoming env w) now msg (w.view msg.id) (g (w.view msg.id))) := by
  obtain ⟨e, hr, rfl, hp⟩ := hm
  apply (firstFailureAt_runs w _ now).bind
  rintro firstFailedAt _ ⟨-, rfl⟩
  apply (newID_turns hinj h).bind
  rintro id w₁ ⟨h₁, rfl, hn, hlast⟩
  apply (saveDeadLetter_turns h₁.serviceable _ rfl hn hlast).bind
  rintro reply w₂ ⟨rfl, h₂⟩
  have h₁₂ : Turns env w w₂ (onlyAt e.msg.id (View.filed
      { letterOf ⟨e.msg, e.msg.attempts, e.msg.queue⟩ .leaseExpired firstFailedAt now with
        id := env.newID w.ids })) := h₁.trans h₂
  have hr₂ : (w₂.view e.msg.id).record = some e := by
    rw [h₁₂.view, onlyAt_self]
    exact hr
  apply (settle_turns h₂.serviceable rfl hr₂ hp _ _).bind
  rintro reply w₃ ⟨h₃, hok⟩
  cases reply with
  | error err => exact hok.elim
  | ok u =>
    apply (recordHistory_turns h₃.serviceable _).mono
    intro _ w₄ h₄
    refine ⟨_, (h₁₂.trans_onlyAt h₃).trans_onlyAt h₄, ?_⟩
    have hfiled : ∀ letter, ((w.view e.msg.id).filed letter).record = some e := fun _ => hr
    dsimp only
    rw [View.settled_of_leased (hfiled _) hp]
    exact ⟨rfl, _, ⟨w.ids, le_rfl, rfl⟩, rfl, rfl, rfl, rfl⟩

/-! ## The pass -/

/-- What the loop makes of a listed message. -/
def ReclaimedIn (engine : Engine) (new : String → Prop) (now : Time) (msg : Message)
    (v v' : View) : Prop :=
  if engine.policy.shouldRetry msg.attempts then Requeued now msg v v'
  else GivenUp new now msg v v'

theorem GivenUp.mono {new new' : String → Prop} (hnew : ∀ id, new id → new' id) {now : Time}
    {msg : Message} {v v' : View} (h : GivenUp new now msg v v') : GivenUp new' now msg v v' := by
  obtain ⟨hrecord, letter, hid, hrest⟩ := h
  exact ⟨hrecord, letter, hnew _ hid, hrest⟩

theorem ReclaimedIn.mono {new new' : String → Prop} (hnew : ∀ id, new id → new' id) {now : Time}
    {msg : Message} {v v' : View} (h : ReclaimedIn engine new now msg v v') :
    ReclaimedIn engine new' now msg v v' := by
  unfold ReclaimedIn at h ⊢
  split_ifs at h ⊢ with hr
  · exact h
  · exact h.mono hnew

/-- The messages have been reclaimed, and nothing else has happened. -/
structure WorkedOff (engine : Engine) (env : Env) (now : Time) (msgs : List Message)
    (w w' : World) : Prop where
  serviceable : Serviceable env w'
  ids : w.ids ≤ w'.ids
  ticks : w'.ticks = w.ticks
  each : ∀ msg ∈ msgs,
    ReclaimedIn engine (Upcoming env w) now msg (w.view msg.id) (w'.view msg.id)
  others : ∀ x, x ∉ msgs.map Message.id → w'.view x = w.view x

theorem WorkedOff.cons {now : Time} {msg : Message} {msgs : List Message} {g : View → View}
    {w w₁ w' : World} (hn : ((msg :: msgs).map Message.id).Nodup)
    (h₁ : Turns env w w₁ (onlyAt msg.id g))
    (hg : ReclaimedIn engine (Upcoming env w) now msg (w.view msg.id) (g (w.view msg.id)))
    (h : WorkedOff engine env now msgs w₁ w') :
    WorkedOff engine env now (msg :: msgs) w w' where
  serviceable := h.serviceable
  ids := h₁.ids.trans h.ids
  ticks := h.ticks.trans h₁.ticks
  each := by
    have hout : msg.id ∉ msgs.map Message.id := (List.nodup_cons.mp hn).1
    intro other ho
    rcases List.mem_cons.mp ho with rfl | ho
    · rw [h.others other.id hout, h₁.view, onlyAt_self]
      exact hg
    · have hne : other.id ≠ msg.id := fun heq => hout (heq ▸ List.mem_map_of_mem ho)
      have hsame : w₁.view other.id = w.view other.id := by rw [h₁.view, onlyAt_of_ne hne]
      rw [← hsame]
      apply (h.each other ho).mono
      rintro id ⟨n, hle, hid⟩
      exact ⟨n, h₁.ids.trans hle, hid⟩
  others := by
    intro x hx
    rw [List.map_cons, List.mem_cons, not_or] at hx
    rw [h.others x hx.2, h₁.view, onlyAt_of_ne hx.1]

theorem reclaimLoop_worksOff (hinj : Function.Injective env.newID) (now : Time)
    {msgs : List Message} (hn : (msgs.map Message.id).Nodup) (requeued : List String) {w : World}
    (h : Serviceable env w) (hm : ∀ msg ∈ msgs, InProcessing w msg) :
    Runs env (reclaimLoop engine now msgs requeued) w
      (fun _ w' => WorkedOff engine env now msgs w w') := by
  induction msgs generalizing requeued w with
  | nil => exact Runs.pure ⟨h, le_rfl, rfl, by simp, fun _ _ => rfl⟩
  | cons msg msgs ih =>
    obtain ⟨hout, hrest⟩ := List.nodup_cons.mp hn
    have hstep : ∀ g w₁ requeued', Turns env w w₁ (onlyAt msg.id g) →
        ReclaimedIn engine (Upcoming env w) now msg (w.view msg.id) (g (w.view msg.id)) →
        Runs env (reclaimLoop engine now msgs requeued') w₁
          (fun _ w' => WorkedOff engine env now (msg :: msgs) w w') := by
      intro g w₁ requeued' h₁ hg
      have hm₁ : ∀ other ∈ msgs, InProcessing w₁ other := by
        intro other ho
        have hne : other.id ≠ msg.id := fun heq => hout (heq ▸ List.mem_map_of_mem ho)
        unfold InProcessing
        rw [h₁.view, onlyAt_of_ne hne]
        exact hm other (List.mem_cons_of_mem msg ho)
      apply (ih hrest requeued' h₁.serviceable hm₁).mono
      intro _ w₂ h₂
      exact h₂.cons hn h₁ hg
    have hfirst : InProcessing w msg := hm msg List.mem_cons_self
    unfold reclaimLoop
    by_cases hr : engine.policy.shouldRetry msg.attempts = true
    · rw [if_pos hr]
      apply (requeueExpired_turns h hfirst now).bind
      rintro released w₁ ⟨g, h₁, hg⟩
      have hg' : ReclaimedIn engine (Upcoming env w) now msg (w.view msg.id)
          (g (w.view msg.id)) := by
        rw [ReclaimedIn, if_pos hr]
        exact hg
      split_ifs
      · exact hstep g w₁ _ h₁ hg'
      · exact hstep g w₁ _ h₁ hg'
    · rw [if_neg hr]
      apply (deadLetter_turns hinj h hfirst _ _ now).bind
      rintro _ w₁ ⟨g, h₁, hg⟩
      apply hstep g w₁ _ h₁
      rw [ReclaimedIn, if_neg hr]
      exact hg

theorem overdue_eq_take (w : World) (now : Time) :
    overdue w now = (Memory.expired w.store.messages now).take 256 := by
  unfold overdue Memory.limited reclaimBatchSize
  split_ifs with hlong
  · rfl
  · exact (List.take_of_length_le (by omega)).symm

theorem WorkedOff.of_store_eq {now : Time} {msgs : List Message} {w w' w'' : World}
    (h : WorkedOff engine env now msgs w w') (hs : w''.store = w'.store) (hi : w''.ids = w'.ids)
    (ht : w''.ticks = w'.ticks) : WorkedOff engine env now msgs w w'' where
  serviceable :=
    ⟨hs ▸ h.serviceable.keyed, hs ▸ h.serviceable.opened, hs ▸ hi ▸ h.serviceable.fresh⟩
  ids := hi ▸ h.ids
  ticks := ht.trans h.ticks
  each := by
    intro msg hm
    rw [World.view.eq_1 w'', hs]
    exact h.each msg hm
  others := by
    intro x hx
    rw [World.view.eq_1 w'', hs]
    exact h.others x hx

/-- A pass reads the clock once and works through the list of that moment. -/
theorem reclaim_worksOff (engine : Engine) (hinj : Function.Injective env.newID) {w : World}
    (h : Serviceable env w) :
    WorkedOff engine env (env.clock w.ticks) (overdue w (env.clock w.ticks))
      { w with ticks := w.ticks + 1 } (exec engine env .reclaim w).2 := by
  change Runs env (reclaim engine) w (fun _ w' => WorkedOff engine env (env.clock w.ticks)
    (overdue w (env.clock w.ticks)) { w with ticks := w.ticks + 1 } w')
  have hread : Runs env clock w (fun now w' =>
      now = env.clock w.ticks ∧ { w with ticks := w.ticks + 1 } = w') := ⟨rfl, rfl⟩
  apply hread.bind
  rintro now w₁ ⟨rfl, hw₁⟩
  have hlist : Runs env (store (.expiredLeases (env.clock w.ticks) reclaimBatchSize)) w₁
      (fun reply w' => reply = .ok (overdue w (env.clock w.ticks)) ∧ w₁ = w') :=
    ⟨by rw [← hw₁]; rfl, rfl⟩
  apply hlist.bind
  rintro _ _ ⟨rfl, rfl⟩
  rw [hw₁]
  have h₁ : Serviceable env w₁ := hw₁ ▸ ⟨h.keyed, h.opened, h.fresh⟩
  have hm : ∀ msg ∈ overdue w (env.clock w.ticks), InProcessing w₁ msg :=
    hw₁ ▸ fun msg hm => overdue_stored h.keyed hm
  apply (reclaimLoop_worksOff hinj _ (overdue_nodup h.keyed _) [] h₁ hm).bind
  intro requeued w₂ h₂
  exact h₂.of_store_eq rfl rfl rfl

/-! ## The next pass -/

/-- What was reclaimed is still stored, and no longer in processing. -/
theorem ReclaimedIn.not_expired {new : String → Prop} {now : Time} {msg : Message} {w : World}
    {v : View} (h : ReclaimedIn engine new now msg v (w.view msg.id)) :
    ∃ e, w.store.messages.lookup msg.id = some e ∧
      ∀ later, Memory.leaseExpired e later = false := by
  unfold ReclaimedIn at h
  split_ifs at h
  · exact ⟨_, h.1, fun _ => by simp [Memory.leaseExpired]⟩
  · exact ⟨_, h.1, fun _ => by simp [Memory.leaseExpired]⟩

/-- The messages a pass has worked off are not listed again, and the others still are. -/
theorem WorkedOff.expired_eq {now : Time} {w w' : World} (hk : w.store.Keyed)
    (h : WorkedOff engine env now (overdue w now) w w') :
    Memory.expired w'.store.messages now = (Memory.expired w.store.messages now).drop 256 := by
  have hsame : ∀ id, id ∉ (overdue w now).map Message.id →
      w'.store.messages.lookup id = w.store.messages.lookup id :=
    fun id hid => congrArg View.record (h.others id hid)
  have hkeys : sortedKeys w'.store.messages = sortedKeys w.store.messages := by
    apply sortedKeys_congr
    intro id
    rw [mem_iff_lookup, mem_iff_lookup]
    by_cases hid : id ∈ (overdue w now).map Message.id
    · obtain ⟨msg, hm, rfl⟩ := List.mem_map.mp hid
      obtain ⟨e, hl, -⟩ := overdue_stored hk hm
      obtain ⟨e', hl', -⟩ := (h.each msg hm).not_expired
      exact ⟨fun _ => ⟨e, hl⟩, fun _ => ⟨e', hl'⟩⟩
    · rw [hsame id hid]
  have hat : ∀ id, expiredAt w'.store.messages now id =
      (expiredAt w.store.messages now id).filter
        (fun msg => msg.id ∉ (overdue w now).map Message.id) := by
    intro id
    by_cases hid : id ∈ (overdue w now).map Message.id
    · have hnone : expiredAt w'.store.messages now id = none := by
        obtain ⟨msg, hm, rfl⟩ := List.mem_map.mp hid
        obtain ⟨e', hl', hexp⟩ := (h.each msg hm).not_expired
        simp [expiredAt, hl', hexp]
      rw [hnone]
      cases hx : expiredAt w.store.messages now id with
      | none => rfl
      | some msg =>
        obtain rfl : msg.id = id := id_of_expiredAt hk hx
        simp only [Option.filter_some, hid, not_true_eq_false, decide_false, Bool.false_eq_true,
          if_false]
    · rw [expiredAt, hsame id hid, ← expiredAt]
      cases hx : expiredAt w.store.messages now id with
      | none => rfl
      | some msg =>
        obtain rfl : msg.id = id := id_of_expiredAt hk hx
        simp only [Option.filter_some, hid, not_false_eq_true, decide_true, if_true]
  calc Memory.expired w'.store.messages now
      = (Memory.expired w.store.messages now).filter
          (fun msg => msg.id ∉ (overdue w now).map Message.id) := by
        rw [expired_eq_filterMap, expired_eq_filterMap, List.filter_filterMap, hkeys]
        exact List.filterMap_congr (fun id _ => hat id)
    _ = (Memory.expired w.store.messages now).drop 256 := by
        have hsplit := List.take_append_drop 256 (Memory.expired w.store.messages now)
        have hn := expired_nodup hk now
        rw [← hsplit, ← overdue_eq_take] at hn
        rw [← filter_notMem_append hn, overdue_eq_take, hsplit]

/-- The pass of a world at the time the clock shows. -/
theorem reclaim_pass (engine : Engine) (hinj : Function.Injective env.newID) {w : World}
    (h : Serviceable env w) :
    Pass engine (env.clock w.ticks) w (exec engine env .reclaim w).2 := by
  have hw := reclaim_worksOff engine hinj h
  have hretry : ∀ msg : Message, engine.policy.shouldRetry msg.attempts = true ↔
      msg.attempts < engine.policy.maxAttempts := fun msg => decide_eq_true_iff
  refine ⟨?_, ?_, ?_, hw.others⟩
  · rw [overdue_eq_take, List.length_take, min_comm]
  · intro msg hm hlt
    have heach := hw.each msg hm
    rw [ReclaimedIn, if_pos ((hretry msg).mpr hlt)] at heach
    exact heach
  · intro msg hm hle
    have heach := hw.each msg hm
    rw [ReclaimedIn, if_neg (mt (hretry msg).mp (not_lt.mpr hle))] at heach
    apply heach.mono
    rintro id ⟨n, hn, rfl⟩
    exact h.fresh n hn

/-- Each of the passes at one time takes the next 256 expired leases. -/
theorem expired_after_passes (engine : Engine) (hinj : Function.Injective env.newID) {w : World}
    (h : Serviceable env w) {now : Time} (k : ℕ) (hclock : ∀ i < k, env.clock (w.ticks + i) = now) :
    Serviceable env (after (exec engine env) w (List.replicate k .reclaim)) ∧
      (after (exec engine env) w (List.replicate k .reclaim)).ticks = w.ticks + k ∧
      Memory.expired (after (exec engine env) w (List.replicate k .reclaim)).store.messages now =
        (Memory.expired w.store.messages now).drop (256 * k) := by
  induction k with
  | zero => exact ⟨h, rfl, rfl⟩
  | succ k ih =>
    obtain ⟨hprep, hticks, hexp⟩ := ih (fun i hi => hclock i (Nat.lt_succ_of_lt hi))
    rw [List.replicate_succ', after_append, after_singleton]
    generalize after (exec engine env) w (List.replicate k .reclaim) = w₁ at hprep hticks hexp ⊢
    have hw := reclaim_worksOff engine hinj hprep
    have hnow : env.clock w₁.ticks = now := hticks ▸ hclock k (Nat.lt_succ_self k)
    rw [hnow] at hw
    refine ⟨hw.serviceable, ?_, ?_⟩
    · rw [hw.ticks, hticks]
      rfl
    · have hdrop := WorkedOff.expired_eq (w := { w₁ with ticks := w₁.ticks + 1 }) hprep.keyed hw
      rw [hdrop, hexp, List.drop_drop]
      rfl

/-- A pass takes the first 256 expired leases and no others; each of them goes back to its
queue or becomes a dead letter. After one pass for every 256 leases none is left. -/
theorem reclaim_makes_progress (engine : Engine) (env : Env)
    (hinj : Function.Injective env.newID) (w : World) (h : Serviceable env w) :
    Pass engine (env.clock w.ticks) w (exec engine env .reclaim w).2 ∧
      ∀ now k, (∀ i < k, env.clock (w.ticks + i) = now) →
        k = ⌈((Memory.expired w.store.messages now).length : ℚ) / 256⌉₊ →
        Memory.expired (after (exec engine env) w (List.replicate k .reclaim)).store.messages
          now = [] := by
  refine ⟨reclaim_pass engine hinj h, ?_⟩
  intro now k hclock hk
  obtain ⟨-, -, hexp⟩ := expired_after_passes engine hinj h k hclock
  have hceil : ((Memory.expired w.store.messages now).length : ℚ) / 256 ≤ k :=
    hk ▸ Nat.le_ceil _
  rw [div_le_iff₀ (by norm_num)] at hceil
  have hle : (Memory.expired w.store.messages now).length ≤ k * 256 := by exact_mod_cast hceil
  rw [hexp, List.drop_eq_nil_iff]
  omega

/-- Every world that operations lead to one after the other is serviceable. -/
theorem running_serviceable (engine : Engine) (hinj : Function.Injective env.newID)
    (registry : Registry) (ops : List Op) : Serviceable env (running engine env registry ops) :=
  (running_tidy engine hinj registry ops).healthy.serviceable hinj

/-- Three orders are out at the end. The first has been pulled twice and the second once, for ten
units each time, the third is pulled for a long time. -/
def heldTooLong : World :=
  running (ordersEngine 2 twoAttempts) (ordersEnv [0, 1, 20, 21, 22, 23, 24, 25])
    (ordersRegistry 2)
    [.publish order, .pull ⟨"orders", "c", 1, 10⟩, .reclaim, .pull ⟨"orders", "c", 1, 10⟩,
      .publish order, .pull ⟨"orders", "c", 1, 10⟩, .publish order,
      .pull ⟨"orders", "c", 1, 5000⟩]

/-- After a pass at time 1000. -/
def reclaimedAll : World :=
  after (exec (ordersEngine 2 twoAttempts) (ordersEnv [0, 1, 20, 21, 22, 23, 24, 25])) heldTooLong
    [.reclaim]

/-- The pass gives the first order up, puts the second one back and lets the third be. -/
theorem reclaim_makes_progress_heldTooLong :
    (Memory.expired heldTooLong.store.messages 1000).length = 2 ∧
      Memory.expired reclaimedAll.store.messages 1000 = [] ∧
      ["|", "||", "|||"].map (fun id =>
          (reclaimedAll.store.messages.lookup id).map (fun e => e.msg.state)) =
        [some .deadLettered, some .queued, some .processing] := by
  have htwo : (Memory.expired heldTooLong.store.messages 1000).length = 2 := by decide +kernel
  have hticks : heldTooLong.ticks = 8 := by decide +kernel
  have hprep : Serviceable (ordersEnv [0, 1, 20, 21, 22, 23, 24, 25]) heldTooLong :=
    running_serviceable _ (ordersEnv_injective _) _ _
  refine ⟨htwo, (reclaim_makes_progress (ordersEngine 2 twoAttempts)
    (ordersEnv [0, 1, 20, 21, 22, 23, 24, 25]) (ordersEnv_injective _) heldTooLong hprep).2 1000 1
      ?_ ?_, by decide +kernel⟩
  · intro i hi
    obtain rfl : i = 0 := by omega
    rw [hticks]
    rfl
  · rw [htwo]
    exact ((Nat.ceil_eq_iff one_ne_zero).mpr ⟨by norm_num, by norm_num⟩).symm

end RabbitmqLite.Engine
