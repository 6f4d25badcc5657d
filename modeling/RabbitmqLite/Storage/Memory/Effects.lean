import RabbitmqLite.Storage.Memory.Store

/-! # What each method of the in-memory driver does

Every method is reduced to an equation in which the state checks that cannot
fail have disappeared, or to the list of ids that decides what it does.
-/

namespace RabbitmqLite.Storage.Memory
open Broker Collections

/-- Every record is stored under the id of its message. -/
def Store.Keyed (s : Store) : Prop :=
  ∀ id entry, s.messages.lookup id = some entry → entry.msg.id = id

/-! ## Settling a leased message -/

/-- The common shape of the methods that require the lease to be held. -/
def Store.onLeased (s : Store) (id : String) (change : Record → Store) : Outcome Unit :=
  match s.leased id with
  | .error e => (.error e, s)
  | .ok entry => (.ok (), change entry)

theorem Store.leased_eq_ok {s : Store} {id : String} {entry : Record} :
    s.leased id = .ok entry ↔
      s.messages.lookup id = some entry ∧ entry.msg.state = .processing := by
  unfold Store.leased
  cases h : s.messages.lookup id with
  | none => simp
  | some e =>
    by_cases hp : e.msg.state = .processing
    · simp only [hp, ne_eq, not_true_eq_false, if_false, Except.ok.injEq, Option.some.injEq]
      constructor
      · rintro rfl
        exact ⟨rfl, hp⟩
      · exact fun h => h.1
    · simp only [hp, ne_eq, not_false_eq_true, if_true, reduceCtorEq, Option.some.injEq, false_iff]
      rintro ⟨rfl, h⟩
      exact hp h

theorem Store.onLeased_of_processing {s : Store} {id : String} {entry : Record}
    (hl : s.messages.lookup id = some entry) (hp : entry.msg.state = .processing)
    (change : Record → Store) : s.onLeased id change = (.ok (), change entry) := by
  rw [Store.onLeased, Store.leased_eq_ok.mpr ⟨hl, hp⟩]

theorem Store.onLeased_of_not {s : Store} {id : String}
    (h : ∀ entry, s.messages.lookup id = some entry → entry.msg.state ≠ .processing)
    (change : Record → Store) : ∃ e, s.onLeased id change = (.error e, s) := by
  unfold Store.onLeased
  cases hl : s.leased id with
  | error e => exact ⟨e, rfl⟩
  | ok entry =>
    obtain ⟨hm, hp⟩ := Store.leased_eq_ok.mp hl
    exact absurd hp (h entry hm)

theorem Store.onLeased_cases (s : Store) (id : String) (change : Record → Store) :
    (∃ entry, s.messages.lookup id = some entry ∧ entry.msg.state = .processing ∧
      s.onLeased id change = (.ok (), change entry)) ∨
    ∃ e, s.onLeased id change = (.error e, s) := by
  by_cases h : ∃ entry, s.messages.lookup id = some entry ∧ entry.msg.state = .processing
  · obtain ⟨entry, hl, hp⟩ := h
    exact Or.inl ⟨entry, hl, hp, Store.onLeased_of_processing hl hp change⟩
  · exact Or.inr (Store.onLeased_of_not (fun entry hl hp => h ⟨entry, hl, hp⟩) change)

def acknowledged (msg : Message) (now : Time) : Message :=
  { msg with state := .acknowledged, updatedAt := now }

def retried (msg : Message) (req : RetryRequest) : Message :=
  { msg with
    state := .retrying
    updatedAt := req.now
    availableAt := req.availableAt
    lastError := req.reason }

def released (msg : Message) (now : Time) : Message :=
  { msg with state := .queued, updatedAt := now, availableAt := now }

def deadLettered (msg : Message) (reason : String) (now : Time) : Message :=
  { msg with state := .deadLettered, updatedAt := now, lastError := reason }

theorem Store.acknowledge_eq (s : Store) (id : String) (now : Time) :
    s.acknowledge id now = s.onLeased id (fun entry =>
      (s.settle entry.msg.queue).put id (unleased (acknowledged entry.msg now))) := by
  unfold Store.acknowledge Store.onLeased
  cases hl : s.leased id with
  | error e => rfl
  | ok entry =>
    obtain ⟨-, hp⟩ := Store.leased_eq_ok.mp hl
    simp [Message.transition_eq, hp, acknowledged, State.canTransitionTo_eq, State.valid_eq]

theorem Store.scheduleRetry_eq (s : Store) (req : RetryRequest) :
    s.scheduleRetry req = s.onLeased req.id (fun entry =>
      s.put req.id (unleased (retried entry.msg req))) := by
  unfold Store.scheduleRetry Store.onLeased
  cases hl : s.leased req.id with
  | error e => rfl
  | ok entry =>
    obtain ⟨-, hp⟩ := Store.leased_eq_ok.mp hl
    simp [Message.transition_eq, hp, retried, State.canTransitionTo_eq, State.valid_eq]

theorem Store.release_eq (s : Store) (id : String) (now : Time) :
    s.release id now = s.onLeased id (fun entry =>
      s.put id (unleased (released entry.msg now))) := by
  unfold Store.release Store.onLeased
  cases hl : s.leased id with
  | error e => rfl
  | ok entry =>
    obtain ⟨-, hp⟩ := Store.leased_eq_ok.mp hl
    simp [Message.transition_eq, hp, released, State.canTransitionTo_eq, State.valid_eq]

/-- The states from which a message can be dead-lettered in one call. -/
def Doomable (state : State) : Prop := state = .processing ∨ state = .failed

instance (state : State) : Decidable (Doomable state) := by unfold Doomable; infer_instance

@[simp] theorem Store.put_messages_lookup (s : Store) (id x : String) (entry : Record) :
    (s.put id entry).messages.lookup x = if x = id then some entry else s.messages.lookup x :=
  lookup_insert_eq s.messages id x entry

@[simp] theorem Store.settle_messages (s : Store) (queue : String) :
    (s.settle queue).messages = s.messages := rfl

theorem Store.put_self {s : Store} {id : String} {entry : Record}
    (h : s.messages.lookup id = some entry) : s.put id entry = s := by
  have hm : s.messages.insert id entry = s.messages := by
    apply Finmap.ext_lookup
    intro x
    rw [lookup_insert_eq]
    split_ifs with hx
    · rw [hx, h]
    · rfl
  rw [Store.put, hm]

theorem Store.markDeadLettered_eq (s : Store) (id reason : String) (now : Time) :
    s.markDeadLettered id reason now =
      match s.messages.lookup id with
      | none => (.error .notFound, s)
      | some entry =>
        if Doomable entry.msg.state then
          (.ok (), (s.settle entry.msg.queue).put id
            (unleased (deadLettered entry.msg reason now)))
        else (.error (.transition (.invalidTransition entry.msg.state .deadLettered)), s) := by
  unfold Store.markDeadLettered
  cases hl : s.messages.lookup id with
  | none => rfl
  | some entry =>
    have hput := Store.put_self hl
    cases hs : entry.msg.state <;>
      simp [hs, Message.transition_eq, Doomable, deadLettered, State.canTransitionTo_eq,
        State.valid_eq, hput]

/-! ## Claiming -/

/-- The record of a message a claim hands out. -/
def takenOver (req : ClaimRequest) (entry : Record) : Record :=
  ⟨{ entry.msg with
      state := .processing
      updatedAt := req.now
      attempts := entry.msg.attempts + 1 }, req.now + req.lease, req.consumer⟩

def claimableIn (messages : Messages) (now : Time) (id : String) : Bool :=
  match messages.lookup id with
  | none => false
  | some entry => claimable entry.msg now

theorem claimable_iff {msg : Message} {now : Time} :
    claimable msg now = true ↔
      (msg.state = .queued ∨ msg.state = .retrying) ∧ msg.availableAt ≤ now := by
  unfold claimable
  cases msg.state <;> simp

theorem terminal_of_claimable {msg : Message} {now : Time} (h : claimable msg now = true) :
    msg.state.terminal = false := by
  obtain ⟨hs | hs, -⟩ := claimable_iff.mp h <;> rw [hs] <;> rfl

theorem claimableIn_iff {messages : Messages} {now : Time} {id : String} :
    claimableIn messages now id = true ↔
      ∃ entry, messages.lookup id = some entry ∧ claimable entry.msg now = true := by
  unfold claimableIn
  cases messages.lookup id <;> simp

theorem lease_of_claimable {req : ClaimRequest} {entry : Record}
    (h : claimable entry.msg req.now = true) : lease req entry = .ok (takenOver req entry) := by
  obtain ⟨hs | hs, -⟩ := claimable_iff.mp h <;>
    simp [lease, takenOver, Message.transition_eq, hs, State.canTransitionTo_eq, State.valid_eq]

theorem takenOver_not_claimable (req : ClaimRequest) (entry : Record) (now : Time) :
    claimable (takenOver req entry).msg now = false := rfl

/-- The message handed out for an id, computed from the records before the claim. -/
def handedOut (req : ClaimRequest) (messages : Messages) (id : String) : Option Message :=
  (messages.lookup id).map (fun entry => (takenOver req entry).msg)

/-- What a claim does is determined by the list of ids it picks. -/
structure Picked (req : ClaimRequest) (ids : List String) (messages : Messages)
    (budget : ℤ) (picked : List String) : Prop where
  nodup : picked.Nodup
  sublist : picked.Sublist ids
  claimable : ∀ id ∈ picked, claimableIn messages req.now id = true
  first : ids.Nodup → picked = (ids.filter (claimableIn messages req.now)).take budget.toNat

private theorem claimableIn_insert_takenOver {req : ClaimRequest} {messages : Messages}
    {id x : String} {entry : Record} (h : claimableIn (messages.insert id (takenOver req entry))
      req.now x = true) : x ≠ id ∧ claimableIn messages req.now x = true := by
  unfold claimableIn at h ⊢
  rw [lookup_insert_eq] at h
  split_ifs at h with hx
  · exact absurd h (Bool.eq_false_iff.mp (takenOver_not_claimable req entry req.now))
  · exact ⟨hx, h⟩

section Picked
variable {req : ClaimRequest} {id : String} {ids picked : List String} {messages : Messages}
  {budget : ℤ}

theorem Picked.skip (hc : claimableIn messages req.now id = false)
    (hp : Picked req ids messages budget picked) :
    Picked req (id :: ids) messages budget picked where
  nodup := hp.nodup
  sublist := hp.sublist.cons id
  claimable := hp.claimable
  first hn := by
    rw [List.filter_cons_of_neg (by simp [hc])]
    exact hp.first (List.nodup_cons.mp hn).2

theorem Picked.not_again {entry : Record}
    (hp : Picked req ids (messages.insert id (takenOver req entry)) budget picked) :
    ∀ x ∈ picked, x ≠ id ∧ claimableIn messages req.now x = true :=
  fun x hx => claimableIn_insert_takenOver (hp.claimable x hx)

/-- The record is taken over, so that the rest of the loop cannot pick this id again. -/
theorem Picked.take {entry : Record} (hc : claimableIn messages req.now id = true)
    (hb : 0 < budget)
    (hp : Picked req ids (messages.insert id (takenOver req entry)) (budget - 1) picked) :
    Picked req (id :: ids) messages budget (id :: picked) where
  nodup := List.nodup_cons.mpr ⟨fun h => (hp.not_again id h).1 rfl, hp.nodup⟩
  sublist := hp.sublist.cons_cons id
  claimable x hx := by
    rcases List.mem_cons.mp hx with rfl | hx
    · exact hc
    · exact (hp.not_again x hx).2
  first hn := by
    obtain ⟨hid, hn⟩ := List.nodup_cons.mp hn
    have hbudget : budget.toNat = (budget - 1).toNat + 1 := by omega
    rw [List.filter_cons_of_pos hc, hbudget, List.take_succ_cons, hp.first hn]
    congr 2
    apply List.filter_congr
    intro x hx
    have hne : x ≠ id := fun h => hid (h ▸ hx)
    simp only [claimableIn, lookup_insert_eq, if_neg hne]

end Picked

theorem claimLoop_spec (req : ClaimRequest) (ids : List String) (messages : Messages)
    (claimed : List Message) :
    ∃ picked, Picked req ids messages (req.limit - claimed.length) picked ∧
      (claimLoop req ids messages claimed).1 =
        .ok (claimed ++ picked.filterMap (handedOut req messages)) ∧
      ∀ x, (claimLoop req ids messages claimed).2.lookup x =
        if x ∈ picked then (messages.lookup x).map (takenOver req) else messages.lookup x := by
  induction ids generalizing messages claimed with
  | nil => exact ⟨[], ⟨List.nodup_nil, List.Sublist.refl [], by simp, by simp⟩, by simp [claimLoop]⟩
  | cons id ids ih =>
    by_cases hb : (claimed.length : ℤ) ≥ req.limit
    · have h0 : (req.limit - claimed.length).toNat = 0 := by omega
      exact ⟨[], ⟨List.nodup_nil, List.nil_sublist _, by simp, by simp [h0]⟩,
        by simp [claimLoop, hb]⟩
    cases hl : messages.lookup id with
    | none =>
      obtain ⟨picked, hp, hr, hm⟩ := ih messages claimed
      refine ⟨picked, hp.skip (by simp [claimableIn, hl]), ?_, ?_⟩ <;>
        simpa only [claimLoop, if_neg hb, hl]
    | some entry =>
      by_cases hc : claimable entry.msg req.now = true
      · have hloop : claimLoop req (id :: ids) messages claimed =
            claimLoop req ids (messages.insert id (takenOver req entry))
              (claimed ++ [(takenOver req entry).msg]) := by
          simp [claimLoop, hb, hl, hc, lease_of_claimable hc]
        obtain ⟨picked, hp, hr, hm⟩ := ih (messages.insert id (takenOver req entry))
          (claimed ++ [(takenOver req entry).msg])
        have hbudget : req.limit - ((claimed ++ [(takenOver req entry).msg]).length : ℕ) =
            req.limit - claimed.length - 1 := by
          simp only [List.length_append, List.length_singleton]
          omega
        rw [hbudget] at hp
        refine ⟨id :: picked, hp.take (claimableIn_iff.mpr ⟨entry, hl, hc⟩) (by omega), ?_,
          fun x => ?_⟩
        · rw [hloop, hr]
          have hsame : picked.filterMap (handedOut req (messages.insert id (takenOver req entry))) =
              picked.filterMap (handedOut req messages) := by
            apply List.filterMap_congr
            intro x hx
            simp only [handedOut, lookup_insert_eq, if_neg (hp.not_again x hx).1]
          simp [hsame, handedOut, hl]
        · rw [hloop, hm x, lookup_insert_eq]
          by_cases hx : x = id
          · subst hx
            have hid : x ∉ picked := fun h => (hp.not_again x h).1 rfl
            simp [hid, hl]
          · simp [hx]
      · obtain ⟨picked, hp, hr, hm⟩ := ih messages claimed
        refine ⟨picked, hp.skip (by simp [claimableIn, hl, hc]), ?_, ?_⟩ <;>
          simpa [claimLoop, hb, hl, hc]

/-- The ids of the messages handed out are the ids that were picked. -/
theorem map_id_handedOut {req : ClaimRequest} {messages : Messages} {picked : List String}
    (hk : ∀ id entry, messages.lookup id = some entry → entry.msg.id = id)
    (hc : ∀ id ∈ picked, claimableIn messages req.now id = true) :
    (picked.filterMap (handedOut req messages)).map Message.id = picked := by
  induction picked with
  | nil => rfl
  | cons id picked ih =>
    obtain ⟨entry, hl, -⟩ := claimableIn_iff.mp (hc id List.mem_cons_self)
    have hout : handedOut req messages id = some (takenOver req entry).msg := by
      rw [handedOut, hl, Option.map_some]
    rw [List.filterMap_cons_some hout, List.map_cons,
      ih (fun x hx => hc x (List.mem_cons_of_mem id hx))]
    exact congrArg (· :: picked) (hk id entry hl)

theorem claimLoop_length {req : ClaimRequest} (ids : List String) (messages : Messages)
    {claimed msgs : List Message} (hc : (claimed.length : ℤ) ≤ req.limit)
    (h : (claimLoop req ids messages claimed).1 = .ok msgs) : (msgs.length : ℤ) ≤ req.limit := by
  induction ids generalizing messages claimed with
  | nil =>
    obtain rfl := Except.ok.inj h
    exact hc
  | cons id ids ih =>
    unfold claimLoop at h
    split_ifs at h with hfull
    · obtain rfl := Except.ok.inj h
      exact hc
    · split at h
      · exact ih messages hc h
      · split_ifs at h with hskip
        · exact ih messages hc h
        · split at h
          · cases h
          · refine ih _ ?_ h
            rw [List.length_append, List.length_singleton]
            push_cast
            omega

/-- Compaction touches nothing but the index and its counter. -/
theorem Store.compactLocked_frame (s : Store) (queue : String) :
    ∃ order settled, (s.compactLocked queue).2 = { s with order := order, settled := settled } := by
  have ht : ∃ order settled, s.trimHead queue = { s with order := order, settled := settled } := by
    unfold Store.trimHead
    dsimp only
    split_ifs
    · exact ⟨_, _, rfl⟩
    · exact ⟨s.order, s.settled, rfl⟩
  obtain ⟨order, settled, ht⟩ := ht
  unfold Store.compactLocked Store.rebuild
  rw [ht]
  split_ifs
  · exact ⟨_, _, rfl⟩
  · exact ⟨_, _, rfl⟩
  · exact ⟨_, _, rfl⟩

/-- A claim either fails before it has touched a message or hands out what it picked. -/
theorem Store.claim_cases (s : Store) (req : ClaimRequest) :
    ∃ order settled,
      (∃ e, s.claim req = (.error e, { s with order := order, settled := settled })) ∨
      ∃ picked messages, Picked req (order req.queue) s.messages req.limit picked ∧
        (∀ x, messages.lookup x =
          if x ∈ picked then (s.messages.lookup x).map (takenOver req) else s.messages.lookup x) ∧
        s.claim req = (.ok (picked.filterMap (handedOut req s.messages)),
          { s with order := order, settled := settled, messages := messages }) := by
  unfold Store.claim Store.unlessClosed
  by_cases hc : s.closed = true
  · exact ⟨s.order, s.settled, Or.inl ⟨.closed, by rw [if_pos hc]⟩⟩
  obtain ⟨order, settled, hf⟩ := s.compactLocked_frame req.queue
  refine ⟨order, settled, ?_⟩
  rw [if_neg hc]
  rcases hcl : s.compactLocked req.queue with ⟨reply, t⟩
  rw [hcl] at hf
  dsimp only at hf
  subst hf
  cases reply with
  | error e => exact Or.inl ⟨e, rfl⟩
  | ok u =>
    by_cases hneg : req.limit < 0
    · exact Or.inl ⟨.makeSlice, by simp [hneg]⟩
    · obtain ⟨picked, hp, hr, hm⟩ := claimLoop_spec req (order req.queue) s.messages []
      refine Or.inr ⟨picked, (claimLoop req (order req.queue) s.messages []).2,
        by simpa using hp, hm, ?_⟩
      simp only [if_neg hneg, hr, List.nil_append]

theorem Store.claim_nodup {s : Store} (hk : s.Keyed) {req : ClaimRequest} {msgs : List Message}
    (h : (s.claim req).1 = .ok msgs) : (msgs.map Message.id).Nodup := by
  obtain ⟨order, settled, ⟨e, hs⟩ | ⟨picked, messages, hp, -, hs⟩⟩ := s.claim_cases req <;>
    rw [hs] at h
  · cases h
  · obtain rfl := Except.ok.inj h
    rw [map_id_handedOut hk hp.claimable]
    exact hp.nodup

theorem Store.claim_length {s : Store} {req : ClaimRequest} {msgs : List Message}
    (h : (s.claim req).1 = .ok msgs) : (msgs.length : ℤ) ≤ req.limit := by
  unfold Store.claim Store.unlessClosed at h
  split_ifs at h with hclosed hneg <;> split at h
  · cases h
  · cases h
  · cases h
  · exact claimLoop_length _ _ (by simpa using not_lt.mp hneg) h

/-! ## Appending and purging -/

theorem Store.append_cases (s : Store) (msgs : List Message) :
    (∃ e, s.append msgs = (.error e, s)) ∨
      (∀ msg ∈ msgs, s.messages.lookup msg.id = none) ∧
        s.append msgs = (.ok (), { s with
          messages := Store.storeAll s.messages msgs
          order := Store.appendOrder s.order msgs }) := by
  unfold Store.append Store.unlessClosed
  by_cases hc : s.closed = true
  · exact Or.inl ⟨.closed, by rw [if_pos hc]⟩
  by_cases ha : msgs.any (fun msg => (s.messages.lookup msg.id).isSome) = true
  · exact Or.inl ⟨.conflict, by rw [if_neg hc, if_pos ha]⟩
  · refine Or.inr ⟨?_, by rw [if_neg hc, if_neg ha]⟩
    simpa using ha

theorem append_of_stored {s : Store} (ho : s.closed = false) {msgs : List Message} {msg : Message}
    (hm : msg ∈ msgs) (hl : s.messages.lookup msg.id ≠ none) :
    s.append msgs = (.error .conflict, s) := by
  have hany : msgs.any (fun msg => (s.messages.lookup msg.id).isSome) = true :=
    List.any_eq_true.mpr ⟨msg, hm, Option.isSome_iff_ne_none.mpr hl⟩
  simp [Store.append, Store.unlessClosed, ho, hany]

theorem append_of_fresh {s : Store} (ho : s.closed = false) {msgs : List Message}
    (hfresh : ∀ msg ∈ msgs, s.messages.lookup msg.id = none) :
    s.append msgs = (.ok (), { s with
      messages := Store.storeAll s.messages msgs
      order := Store.appendOrder s.order msgs }) := by
  have hany : msgs.any (fun msg => (s.messages.lookup msg.id).isSome) = false := by
    simpa using hfresh
  simp [Store.append, Store.unlessClosed, ho, hany]

private theorem map_id_unleased (msgs : List Message) :
    (msgs.map (fun msg => unleased msg.clone)).map (fun entry => entry.msg.id) =
      msgs.map Message.id := by
  simp [unleased, Function.comp_def]

theorem storeAll_of_notMem {messages : Messages} {msgs : List Message} {id : String}
    (h : id ∉ msgs.map Message.id) :
    (Store.storeAll messages msgs).lookup id = messages.lookup id :=
  lookup_insertAll_of_notMem _ _ _ _ (by rwa [map_id_unleased])

theorem storeAll_of_mem {messages : Messages} {msgs : List Message} {id : String}
    (h : id ∈ msgs.map Message.id) :
    ∃ msg ∈ msgs, msg.id = id ∧
      (Store.storeAll messages msgs).lookup id = some (unleased msg.clone) := by
  obtain ⟨entry, hm, hk, hl⟩ := lookup_insertAll_of_mem (fun entry : Record => entry.msg.id)
    messages (msgs.map (fun msg => unleased msg.clone)) id (by rwa [map_id_unleased])
  obtain ⟨msg, hmsg, rfl⟩ := List.mem_map.mp hm
  exact ⟨msg, hmsg, hk, hl⟩

theorem storeAll_of_nodup {messages : Messages} {msgs : List Message}
    (hn : (msgs.map Message.id).Nodup) {msg : Message} (hm : msg ∈ msgs) :
    (Store.storeAll messages msgs).lookup msg.id = some (unleased msg.clone) := by
  obtain ⟨msg', hm', hid, hl⟩ := storeAll_of_mem (List.mem_map_of_mem (f := Message.id) hm)
  rw [hl, List.inj_on_of_nodup_map hn hm' hm hid]

theorem isSettled_eq_false {messages : Messages} {id : String} :
    isSettled messages id = false ↔
      ∃ entry, messages.lookup id = some entry ∧ entry.msg.state.terminal = false := by
  unfold isSettled
  cases messages.lookup id <;> simp

/-- The purge loop deletes exactly the listed messages that are not settled. -/
theorem purgeLoop_lookup (ids : List String) (messages : Messages) (remaining : List String)
    (purged : ℤ) (x : String) :
    (purgeLoop ids messages remaining purged).2.1.lookup x =
      if x ∈ ids ∧ isSettled messages x = false then none else messages.lookup x := by
  induction ids generalizing messages remaining purged with
  | nil => simp [purgeLoop]
  | cons id ids ih =>
    cases hl : messages.lookup id with
    | none =>
      have hs : isSettled messages id = true := by simp [isSettled, hl]
      simp only [purgeLoop, hl, ih, List.mem_cons]
      by_cases hx : x = id <;> simp [hx, hs]
    | some entry =>
      by_cases ht : entry.msg.state.terminal = true
      · have hs : isSettled messages id = true := by simp [isSettled, hl, ht]
        simp only [purgeLoop, hl, ht, if_true, ih, List.mem_cons]
        by_cases hx : x = id <;> simp [hx, hs]
      · simp only [purgeLoop, hl, ht, Bool.false_eq_true, if_false, ih, List.mem_cons]
        by_cases hx : x = id
        · subst hx
          simp [isSettled, hl, ht]
        · simp [hx, isSettled]

theorem Store.purge_cases (s : Store) (queue : String) :
    s.purge queue = (.error .notFound, s) ∨
      ∃ n order settled messages,
        (∀ x, messages.lookup x =
          if x ∈ s.order queue ∧ isSettled s.messages x = false then none
          else s.messages.lookup x) ∧
        s.purge queue = (.ok n,
          { s with messages := messages, order := order, settled := settled }) := by
  unfold Store.purge
  cases s.queues.lookup queue with
  | none => exact Or.inl rfl
  | some q => exact Or.inr ⟨_, _, _, _, purgeLoop_lookup (s.order queue) s.messages [] 0, rfl⟩

/-! ## Expired leases -/

theorem leaseExpired_iff {entry : Record} {now : Time} :
    leaseExpired entry now = true ↔
      entry.msg.state = .processing ∧ entry.lease ≠ zeroTime ∧ entry.lease ≤ now := by
  simp [leaseExpired, and_assoc]

theorem mem_expired {messages : Messages} {now : Time} {msg : Message} :
    msg ∈ expired messages now ↔
      ∃ id entry, messages.lookup id = some entry ∧ leaseExpired entry now = true ∧
        entry.msg = msg := by
  unfold expired
  simp only [List.mem_filterMap, mem_sortedKeys, mem_iff_lookup]
  constructor
  · rintro ⟨id, ⟨entry, hl⟩, h⟩
    rw [hl] at h
    dsimp only at h
    split_ifs at h with he
    exact ⟨id, entry, hl, he, Option.some.inj h⟩
  · rintro ⟨id, entry, hl, he, rfl⟩
    exact ⟨id, ⟨entry, hl⟩, by simp [hl, he]⟩

theorem limited_sublist {α : Type} (limit : ℤ) (found : List α) :
    (limited limit found).Sublist found := by
  unfold limited
  split_ifs
  · exact List.take_sublist _ _
  · exact List.Sublist.refl _

end RabbitmqLite.Storage.Memory
