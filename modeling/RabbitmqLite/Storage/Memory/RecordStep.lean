import RabbitmqLite.Storage.Memory.Effects

/-! # What one call can do to one record

The complete list of changes a call of the store can make to the record kept
under one id, together with the reply that goes with each. Every invariant of
the in-memory driver about single messages is a case analysis of this list.
-/

namespace RabbitmqLite.Storage.Memory
open Broker Collections

/-- The call succeeded for this id: it was appended, handed out or settled. -/
def Handled : (c : Call) → c.Reply → String → Prop
  | .append msgs, .ok _, id => id ∈ msgs.map Message.id
  | .claim _, .ok claimed, id => id ∈ claimed.map Message.id
  | .acknowledge i _, .ok _, id => i = id
  | .scheduleRetry req, .ok _, id => req.id = id
  | .release i _, .ok _, id => i = id
  | .markDeadLettered i _ _, .ok _, id => i = id
  | _, _, _ => False

inductive RecordStep : (c : Call) → c.Reply → String → Option Record → Option Record → Prop where
  | same {c : Call} {reply : c.Reply} {id : String} {r : Option Record}
      (h : ¬ Handled c reply id) : RecordStep c reply id r r
  | append {msgs : List Message} {msg : Message} (hm : msg ∈ msgs) :
      RecordStep (.append msgs) (.ok ()) msg.id none (some (unleased msg.clone))
  | claim {req : ClaimRequest} {claimed : List Message} {id : String} {entry : Record}
      (hc : claimable entry.msg req.now = true) (hm : (takenOver req entry).msg ∈ claimed)
      (hid : entry.msg.id = id) :
      RecordStep (.claim req) (.ok claimed) id (some entry) (some (takenOver req entry))
  | acknowledge {id : String} {now : Time} {entry : Record}
      (hp : entry.msg.state = .processing) :
      RecordStep (.acknowledge id now) (.ok ()) id (some entry)
        (some (unleased (acknowledged entry.msg now)))
  | scheduleRetry {req : RetryRequest} {entry : Record} (hp : entry.msg.state = .processing) :
      RecordStep (.scheduleRetry req) (.ok ()) req.id (some entry)
        (some (unleased (retried entry.msg req)))
  | release {id : String} {now : Time} {entry : Record} (hp : entry.msg.state = .processing) :
      RecordStep (.release id now) (.ok ()) id (some entry)
        (some (unleased (released entry.msg now)))
  | markDeadLettered {id reason : String} {now : Time} {entry : Record}
      (hd : Doomable entry.msg.state) :
      RecordStep (.markDeadLettered id reason now) (.ok ()) id (some entry)
        (some (unleased (deadLettered entry.msg reason now)))
  | purge {queue : String} {n : ℤ} {id : String} {entry : Record}
      (ht : entry.msg.state.terminal = false) :
      RecordStep (.purge queue) (.ok n) id (some entry) none
  | deleteQueue {name id : String} {entry : Record} :
      RecordStep (.deleteQueue name) (.ok ()) id (some entry) none

theorem append_recordStep (s : Store) (msgs : List Message) (id : String) :
    RecordStep (.append msgs) (s.append msgs).1 id (s.messages.lookup id)
      ((s.append msgs).2.messages.lookup id) := by
  rcases s.append_cases msgs with ⟨e, h⟩ | ⟨hfresh, h⟩
  · rw [h]
    exact .same not_false
  · rw [h]
    dsimp only
    by_cases hid : id ∈ msgs.map Message.id
    · obtain ⟨msg, hmsg, rfl, hl⟩ := storeAll_of_mem hid
      rw [hl, hfresh msg hmsg]
      exact .append hmsg
    · rw [storeAll_of_notMem hid]
      exact .same hid

theorem claim_recordStep {s : Store} (hk : s.Keyed) (req : ClaimRequest) (id : String) :
    RecordStep (.claim req) (s.claim req).1 id (s.messages.lookup id)
      ((s.claim req).2.messages.lookup id) := by
  obtain ⟨order, settled, ⟨e, h⟩ | ⟨picked, messages, hp, hm, h⟩⟩ := s.claim_cases req
  · rw [h]
    exact .same not_false
  · rw [h]
    dsimp only
    rw [hm id]
    split_ifs with hid
    · obtain ⟨entry, hl, hc⟩ := claimableIn_iff.mp (hp.claimable id hid)
      rw [hl]
      refine .claim hc ?_ (hk id entry hl)
      exact List.mem_filterMap.mpr ⟨id, hid, by simp [handedOut, hl]⟩
    · refine .same fun hmem => ?_
      obtain ⟨msg, hmsg, rfl⟩ := List.mem_map.mp hmem
      obtain ⟨x, hx, ho⟩ := List.mem_filterMap.mp hmsg
      obtain ⟨entry, hl, -⟩ := claimableIn_iff.mp (hp.claimable x hx)
      simp only [handedOut, hl, Option.map_some, Option.some.injEq] at ho
      subst ho
      have hxid : entry.msg.id = x := hk x entry hl
      exact hid (hxid ▸ hx)

/-- One record is replaced, and the call was about no other. -/
theorem put_recordStep {c : Call} {reply : c.Reply} {s t : Store} {i : String}
    {entry updated : Record} (hl : s.messages.lookup i = some entry) (ht : t.messages = s.messages)
    (hself : RecordStep c reply i (some entry) (some updated))
    (hother : ∀ x, i ≠ x → ¬ Handled c reply x) (id : String) :
    RecordStep c reply id (s.messages.lookup id) ((t.put i updated).messages.lookup id) := by
  rw [Store.put_messages_lookup, ht]
  split_ifs with hid
  · rw [hid, hl]
    exact hself
  · exact .same (hother id (Ne.symm hid))

theorem acknowledge_recordStep (s : Store) (i : String) (now : Time) (id : String) :
    RecordStep (.acknowledge i now) (s.acknowledge i now).1 id (s.messages.lookup id)
      ((s.acknowledge i now).2.messages.lookup id) := by
  rw [Store.acknowledge_eq]
  rcases s.onLeased_cases i (fun entry => (s.settle entry.msg.queue).put i
    (unleased (acknowledged entry.msg now))) with ⟨entry, hl, hp, h⟩ | ⟨e, h⟩ <;> rw [h]
  · exact put_recordStep hl (Store.settle_messages s _) (.acknowledge hp) (fun _ hne => hne) id
  · exact .same not_false

theorem scheduleRetry_recordStep (s : Store) (req : RetryRequest) (id : String) :
    RecordStep (.scheduleRetry req) (s.scheduleRetry req).1 id (s.messages.lookup id)
      ((s.scheduleRetry req).2.messages.lookup id) := by
  rw [Store.scheduleRetry_eq]
  rcases s.onLeased_cases req.id (fun entry => s.put req.id (unleased (retried entry.msg req)))
    with ⟨entry, hl, hp, h⟩ | ⟨e, h⟩ <;> rw [h]
  · exact put_recordStep hl rfl (.scheduleRetry hp) (fun _ hne => hne) id
  · exact .same not_false

theorem release_recordStep (s : Store) (i : String) (now : Time) (id : String) :
    RecordStep (.release i now) (s.release i now).1 id (s.messages.lookup id)
      ((s.release i now).2.messages.lookup id) := by
  rw [Store.release_eq]
  rcases s.onLeased_cases i (fun entry => s.put i (unleased (released entry.msg now)))
    with ⟨entry, hl, hp, h⟩ | ⟨e, h⟩ <;> rw [h]
  · exact put_recordStep hl rfl (.release hp) (fun _ hne => hne) id
  · exact .same not_false

theorem markDeadLettered_recordStep (s : Store) (i reason : String) (now : Time) (id : String) :
    RecordStep (.markDeadLettered i reason now) (s.markDeadLettered i reason now).1 id
      (s.messages.lookup id) ((s.markDeadLettered i reason now).2.messages.lookup id) := by
  rw [Store.markDeadLettered_eq]
  cases hl : s.messages.lookup i with
  | none => exact .same not_false
  | some entry =>
    by_cases hd : Doomable entry.msg.state
    · simp only [if_pos hd]
      exact put_recordStep hl (Store.settle_messages s _) (.markDeadLettered hd)
        (fun _ hne => hne) id
    · simp only [if_neg hd]
      exact .same not_false

theorem purge_recordStep (s : Store) (queue id : String) :
    RecordStep (.purge queue) (s.purge queue).1 id (s.messages.lookup id)
      ((s.purge queue).2.messages.lookup id) := by
  rcases s.purge_cases queue with h | ⟨n, order, settled, messages, hm, h⟩ <;> rw [h]
  · exact .same not_false
  · dsimp only
    rw [hm id]
    split_ifs with hid
    · obtain ⟨entry, hl, ht⟩ := isSettled_eq_false.mp hid.2
      rw [hl]
      exact .purge ht
    · exact .same not_false

theorem deleteQueue_recordStep (s : Store) (name id : String) :
    RecordStep (.deleteQueue name) (s.deleteQueue name).1 id (s.messages.lookup id)
      ((s.deleteQueue name).2.messages.lookup id) := by
  unfold Store.deleteQueue
  cases s.queues.lookup name with
  | none => exact .same not_false
  | some q =>
    dsimp only
    rw [lookup_eraseAll]
    split_ifs with hid
    · cases s.messages.lookup id with
      | none => exact .same not_false
      | some entry => exact .deleteQueue
    · exact .same not_false

/-- The calls that leave every message record and the index alone. -/
def Passive : Call → Prop
  | .append _ | .claim _ | .acknowledge _ _ | .scheduleRetry _ | .release _ _
  | .markDeadLettered _ _ _ | .purge _ | .deleteQueue _ => False
  | _ => True

theorem exec_passive {c : Call} (hc : Passive c) (s : Store) :
    (exec c s).2.messages = s.messages ∧ (exec c s).2.order = s.order ∧
      (exec c s).2.settled = s.settled := by
  cases c with
  | append | claim | acknowledge | scheduleRetry | release | markDeadLettered | purge
  | deleteQueue => exact hc.elim
  | saveExchange | saveQueue | saveBinding | appendHistory =>
    simp only [exec, Store.saveExchange, Store.saveQueue, Store.saveBinding, Store.appendHistory,
      Store.unlessClosed]
    split_ifs <;> exact ⟨rfl, rfl, rfl⟩
  | saveDeadLetter entry newID =>
    simp only [exec, Store.saveDeadLetter, Store.unlessClosed]
    split_ifs
    · exact ⟨rfl, rfl, rfl⟩
    all_goals split <;> exact ⟨rfl, rfl, rfl⟩
  | deleteBinding | deadLetter | markDeadLetterReplayed | deleteDeadLetter | message | depth =>
    simp only [exec, Store.deleteBinding, Store.deadLetter, Store.markDeadLetterReplayed,
      Store.deleteDeadLetter, Store.message, Store.depth]
    split <;> exact ⟨rfl, rfl, rfl⟩
  | exchanges | queues | bindings | expiredLeases | history | close => exact ⟨rfl, rfl, rfl⟩

/-- The inversion lemma of the driver. -/
theorem exec_recordStep {s : Store} (hk : s.Keyed) (c : Call) (id : String) :
    RecordStep c (exec c s).1 id (s.messages.lookup id) ((exec c s).2.messages.lookup id) := by
  by_cases hc : Passive c
  · rw [(exec_passive hc s).1]
    refine .same ?_
    cases c <;> simp_all [Handled, Passive]
  · cases c with
    | append msgs => exact append_recordStep s msgs id
    | claim req => exact claim_recordStep hk req id
    | acknowledge i now => exact acknowledge_recordStep s i now id
    | scheduleRetry req => exact scheduleRetry_recordStep s req id
    | release i now => exact release_recordStep s i now id
    | markDeadLettered i reason now => exact markDeadLettered_recordStep s i reason now id
    | purge queue => exact purge_recordStep s queue id
    | deleteQueue name => exact deleteQueue_recordStep s name id
    | _ => exact absurd trivial hc

/-- No call alters the content of a message. -/
theorem RecordStep.content_eq {c : Call} {reply : c.Reply} {id : String} {e e' : Record}
    (h : RecordStep c reply id (some e) (some e')) : e'.msg.content = e.msg.content := by
  cases h <;> rfl

/-- A record appears only by being appended. -/
theorem RecordStep.of_none {c : Call} {reply : c.Reply} {id : String} {e : Record}
    (h : RecordStep c reply id none (some e)) :
    ∃ msgs msg, c = .append msgs ∧ reply ≍ (Except.ok () : Except Error Unit) ∧ msg ∈ msgs ∧
      msg.id = id ∧ e = unleased msg.clone := by
  cases h with
  | append hm => exact ⟨_, _, rfl, HEq.rfl, hm, rfl, rfl⟩

theorem exec_keyed {s : Store} (hk : s.Keyed) (c : Call) : (exec c s).2.Keyed := by
  intro id entry hl
  have h := exec_recordStep hk c id
  rw [hl] at h
  cases ho : s.messages.lookup id with
  | none =>
    rw [ho] at h
    obtain ⟨msgs, msg, -, -, -, hid, rfl⟩ := h.of_none
    exact hid
  | some e =>
    rw [ho] at h
    calc entry.msg.id = e.msg.id := congrArg Content.id h.content_eq
      _ = id := hk id e ho

theorem new_keyed : Store.new.Keyed := by
  intro id entry h
  simp [Store.new] at h

end RabbitmqLite.Storage.Memory
