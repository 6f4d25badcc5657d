import RabbitmqLite.Storage.Memory.RecordStep
import RabbitmqLite.Atomic.Machine
import RabbitmqLite.Collections.Compaction

/-! # The per-queue index and its settled counter

Every message that is not settled is listed in the index of its queue, and the
counter of a queue never exceeds the number of settled ids in its index. The
methods that serve messages keep this, and compaction loses no live id.
-/

namespace RabbitmqLite.Storage.Memory
open Broker Collections Atomic

/-- What the index and the counter have to do with the stored messages. -/
structure Indexed (s : Store) : Prop where
  keyed : s.Keyed
  nodup : ∀ q, (s.order q).Nodup
  listed : ∀ q, ∀ id ∈ s.order q,
    ∃ entry, s.messages.lookup id = some entry ∧ entry.msg.queue = q
  complete : ∀ id entry, s.messages.lookup id = some entry →
    entry.msg.state.terminal = false → id ∈ s.order entry.msg.queue
  counted : ∀ q, 0 ≤ s.settled q ∧
    s.settled q ≤ ((s.order q).countP (isSettled s.messages) : ℕ)

/-- The ids a queue can still deliver. -/
def live (messages : Messages) (id : String) : Bool := !isSettled messages id

theorem new_indexed : Indexed Store.new where
  keyed := new_keyed
  nodup := fun _ => List.nodup_nil
  listed := fun _ _ h => absurd h List.not_mem_nil
  complete := fun id entry h => by simp [Store.new] at h
  counted := fun _ => ⟨le_rfl, by simp [Store.new]⟩

theorem Indexed.not_listed {s : Store} (h : Indexed s) {id q : String} {entry : Record}
    (hl : s.messages.lookup id = some entry) (hq : entry.msg.queue ≠ q) : id ∉ s.order q := by
  intro hm
  obtain ⟨e, he, rfl⟩ := h.listed q id hm
  rw [hl] at he
  exact hq (Option.some.inj he ▸ rfl)

theorem Indexed.not_listed_of_none {s : Store} (h : Indexed s) {id : String}
    (hnone : s.messages.lookup id = none) (q : String) : id ∉ s.order q := by
  intro hm
  obtain ⟨e, he, -⟩ := h.listed q id hm
  cases hnone.symm.trans he

/-! ## Messages change without being settled -/

/-- The records of two message maps agree in what the index depends on. -/
def Refreshed (m m' : Messages) : Prop :=
  ∀ id, Option.Rel (fun e e' => e'.msg.id = e.msg.id ∧ e'.msg.queue = e.msg.queue ∧
    e'.msg.state.terminal = e.msg.state.terminal) (m.lookup id) (m'.lookup id)

theorem Refreshed.lookup {m m' : Messages} (h : Refreshed m m') {id : String} {e' : Record}
    (hl : m'.lookup id = some e') : ∃ e, m.lookup id = some e ∧ e'.msg.id = e.msg.id ∧
      e'.msg.queue = e.msg.queue ∧ e'.msg.state.terminal = e.msg.state.terminal := by
  have hr := h id
  rw [hl] at hr
  cases hm : m.lookup id with
  | none => rw [hm] at hr; cases hr
  | some e => rw [hm] at hr; cases hr with | some hr => exact ⟨e, rfl, hr⟩

theorem Refreshed.isSettled_eq {m m' : Messages} (h : Refreshed m m') :
    isSettled m' = isSettled m := by
  funext id
  have hr := h id
  unfold isSettled
  cases hm : m.lookup id <;> cases hm' : m'.lookup id <;> rw [hm, hm'] at hr
  · cases hr
  · cases hr
  · cases hr with | some hr => exact hr.2.2

theorem refreshed_insert {m : Messages} {id : String} {e e' : Record} (hl : m.lookup id = some e)
    (hid : e'.msg.id = e.msg.id) (hq : e'.msg.queue = e.msg.queue)
    (ht : e'.msg.state.terminal = e.msg.state.terminal) : Refreshed m (m.insert id e') := by
  intro x
  rw [lookup_insert_eq]
  split_ifs with hx
  · subst hx
    rw [hl]
    exact .some ⟨hid, hq, ht⟩
  · cases m.lookup x with
    | none => exact .none
    | some e => exact .some ⟨rfl, rfl, rfl⟩

/-- A claim takes records over without settling any. -/
theorem refreshed_takenOver {m m' : Messages} {req : ClaimRequest} {picked : List String}
    (hc : ∀ id ∈ picked, claimableIn m req.now id = true)
    (h : ∀ id, m'.lookup id =
      if id ∈ picked then (m.lookup id).map (takenOver req) else m.lookup id) :
    Refreshed m m' := by
  intro id
  rw [h id]
  split_ifs with hid
  · obtain ⟨e, hl, he⟩ := claimableIn_iff.mp (hc id hid)
    rw [hl]
    refine .some ⟨rfl, rfl, ?_⟩
    rw [terminal_of_claimable he]
    rfl
  · cases m.lookup id with
    | none => exact .none
    | some e => exact .some ⟨rfl, rfl, rfl⟩

theorem Indexed.refresh {s : Store} (h : Indexed s) {m : Messages}
    (hr : Refreshed s.messages m) : Indexed { s with messages := m } where
  keyed := by
    intro id e' hl
    obtain ⟨e, he, hid, -⟩ := hr.lookup hl
    rw [hid, h.keyed id e he]
  nodup := h.nodup
  listed := by
    intro q id hm
    obtain ⟨e, he, rfl⟩ := h.listed q id hm
    have hrel := hr id
    rw [he] at hrel
    cases hl : m.lookup id with
    | none => rw [hl] at hrel; cases hrel
    | some e' => rw [hl] at hrel; cases hrel with | some hrel => exact ⟨e', rfl, hrel.2.1⟩
  complete := by
    intro id e' hl ht
    obtain ⟨e, he, -, hq, hterm⟩ := hr.lookup hl
    rw [hq]
    exact h.complete id e he (by rw [← hterm, ht])
  counted := by
    intro q
    rw [hr.isSettled_eq]
    exact h.counted q

/-! ## A message is settled -/

theorem isSettled_insert (m : Messages) (id x : String) (e : Record) :
    isSettled (m.insert id e) x = if x = id then e.msg.state.terminal else isSettled m x := by
  unfold isSettled
  rw [lookup_insert_eq]
  split_ifs <;> rfl

/-- Settling one message counts one more settled id in the index of its queue. -/
theorem Indexed.settle_put {s : Store} (h : Indexed s) {id : String} {e e' : Record}
    (hl : s.messages.lookup id = some e) (hlive : e.msg.state.terminal = false)
    (hid : e'.msg.id = e.msg.id) (hq : e'.msg.queue = e.msg.queue)
    (ht : e'.msg.state.terminal = true) : Indexed ((s.settle e.msg.queue).put id e') where
  keyed := by
    intro x entry hx
    rw [Store.put_messages_lookup] at hx
    split_ifs at hx with hxid
    · obtain rfl := Option.some.inj hx
      rw [hid, h.keyed id e hl, hxid]
    · exact h.keyed x entry hx
  nodup := h.nodup
  listed := by
    intro q x hx
    obtain ⟨entry, he, hqe⟩ := h.listed q x hx
    rw [Store.put_messages_lookup]
    split_ifs with hxid
    · subst hxid
      rw [hl] at he
      obtain rfl := Option.some.inj he
      exact ⟨e', rfl, by rw [hq, hqe]⟩
    · exact ⟨entry, he, hqe⟩
  complete := by
    intro x entry hx hterm
    rw [Store.put_messages_lookup] at hx
    split_ifs at hx with hxid
    · obtain rfl := Option.some.inj hx
      simp [ht] at hterm
    · exact h.complete x entry hx hterm
  counted := by
    intro q
    have hc := h.counted q
    have hsettled : ∀ x, x ≠ id → isSettled (s.messages.insert id e') x = isSettled s.messages x :=
      fun x hx => by rw [isSettled_insert, if_neg hx]
    change 0 ≤ Function.update s.settled e.msg.queue (s.settled e.msg.queue + 1) q ∧
      Function.update s.settled e.msg.queue (s.settled e.msg.queue + 1) q ≤
        ((s.order q).countP (isSettled (s.messages.insert id e')) : ℕ)
    by_cases hqe : q = e.msg.queue
    · subst hqe
      have hone := countP_of_dies (h.nodup _) (h.complete id e hl hlive)
        (isSettled_eq_false.mpr ⟨e, hl, hlive⟩)
        (show isSettled (s.messages.insert id e') id = true by
          rw [isSettled_insert, if_pos rfl, ht]) hsettled
      rw [Function.update_self, hone]
      push_cast
      omega
    · have hnot : id ∉ s.order q := h.not_listed hl (Ne.symm hqe)
      rw [Function.update_of_ne hqe, List.countP_congr
        (fun x hx => by rw [hsettled x (fun hxid => hnot (hxid ▸ hx))])]
      exact hc

/-! ## Compaction -/

/-- A store that differs in its index only, and there in settled ids only. -/
structure Compacted (s t : Store) : Prop where
  indexed : Indexed t
  frame : t = { s with order := t.order, settled := t.settled }
  live_eq : ∀ p, (t.order p).filter (live s.messages) = (s.order p).filter (live s.messages)

theorem Compacted.messages_eq {s t : Store} (h : Compacted s t) : t.messages = s.messages := by
  rw [h.frame]

theorem Compacted.trans {s t u : Store} (h : Compacted s t) (h' : Compacted t u) :
    Compacted s u where
  indexed := h'.indexed
  frame := by
    conv_lhs => rw [h'.frame, h.frame]
  live_eq := by
    intro p
    have hu := h'.live_eq p
    rw [h.messages_eq] at hu
    rw [hu, h.live_eq p]

/-- The index of one queue is replaced by a part of it that keeps every live id. -/
theorem Indexed.reindex {s : Store} (h : Indexed s) {q : String} {index : List String} {n : ℤ}
    (hsub : index.Sublist (s.order q))
    (hlive : index.filter (live s.messages) = (s.order q).filter (live s.messages))
    (hn : 0 ≤ n) (hc : n ≤ (index.countP (isSettled s.messages) : ℕ)) :
    Compacted s { s with
      order := Function.update s.order q index
      settled := Function.update s.settled q n } := by
  have hkeep : ∀ p, (Function.update s.order q index p).filter (live s.messages) =
      (s.order p).filter (live s.messages) := by
    intro p
    by_cases hp : p = q
    · subst hp
      simpa using hlive
    · simp [hp]
  have hsub' : ∀ p, (Function.update s.order q index p).Sublist (s.order p) := by
    intro p
    by_cases hp : p = q
    · subst hp
      simpa using hsub
    · simp [hp]
  refine ⟨⟨h.keyed, fun p => (hsub' p).nodup (h.nodup p),
    fun p id hm => h.listed p id ((hsub' p).subset hm), ?_, ?_⟩, rfl, hkeep⟩
  · intro id entry hl ht
    have hin : id ∈ (s.order entry.msg.queue).filter (live s.messages) :=
      List.mem_filter.mpr ⟨h.complete id entry hl ht,
        by simp [live, isSettled_eq_false.mpr ⟨entry, hl, ht⟩]⟩
    rw [← hkeep] at hin
    exact (List.mem_filter.mp hin).1
  · intro p
    by_cases hp : p = q
    · subst hp
      simpa using ⟨hn, hc⟩
    · simpa [hp] using h.counted p

theorem Store.trimHead_eq {s : Store} {q : String} (h : 0 ≤ s.settled q) :
    s.trimHead q = { s with
      order := Function.update s.order q ((s.order q).dropWhile (isSettled s.messages))
      settled := Function.update s.settled q
        (max (s.settled q - ((s.order q).takeWhile (isSettled s.messages)).length) 0) } := by
  unfold Store.trimHead
  dsimp only
  rw [drop_takeWhile_length]
  split_ifs with hh
  · rfl
  · have hnil : ((s.order q).takeWhile (isSettled s.messages)).length = 0 := by omega
    have hdrop := drop_takeWhile_length (isSettled s.messages) (s.order q)
    rw [hnil, List.drop_zero] at hdrop
    simp [hnil, ← hdrop, max_eq_left h]

theorem Indexed.trimHead {s : Store} (h : Indexed s) (q : String) :
    Compacted s (s.trimHead q) := by
  obtain ⟨h0, hc⟩ := h.counted q
  rw [Store.trimHead_eq h0]
  apply h.reindex (List.dropWhile_sublist _) (filter_dropWhile _ _) (le_max_right _ _)
  have hdrop := countP_dropWhile (isSettled s.messages) (s.order q)
  omega

theorem Indexed.retainedCapacity_nonneg {s : Store} (h : Indexed s) (q : String) :
    0 ≤ s.retainedCapacity q := by
  have hc := (h.counted q).2
  have hle := List.countP_le_length (p := isSettled s.messages) (l := s.order q)
  unfold Store.retainedCapacity
  omega

theorem Indexed.rebuild {s : Store} (h : Indexed s) (q : String) :
    ∃ t, s.rebuild q = (.ok (), t) ∧ Compacted s t := by
  have hcap := h.retainedCapacity_nonneg q
  unfold Store.rebuild
  split_ifs with hkeep hneg
  · exact ⟨s, rfl, h, rfl, fun _ => rfl⟩
  · omega
  · refine ⟨_, rfl, h.reindex List.filter_sublist ?_ le_rfl (by positivity)⟩
    rw [List.filter_filter]
    apply List.filter_congr
    simp [live]

/-- Compaction succeeds, keeps the invariant and loses no live id. -/
theorem Indexed.compactLocked {s : Store} (h : Indexed s) (q : String) :
    ∃ t, s.compactLocked q = (.ok (), t) ∧ Compacted s t := by
  have ht := h.trimHead q
  obtain ⟨t, hr, hc⟩ := ht.indexed.rebuild q
  exact ⟨t, hr, ht.trans hc⟩

/-- An unclosed store with a sound index serves every claim with a legal limit. -/
theorem Indexed.claim {s : Store} (h : Indexed s) (ho : s.closed = false) {req : ClaimRequest}
    (hlim : 0 ≤ req.limit) :
    ∃ t messages, Compacted s t ∧
      (∀ x, messages.lookup x =
        if x ∈ ((t.order req.queue).filter (claimableIn s.messages req.now)).take req.limit.toNat
        then (s.messages.lookup x).map (takenOver req) else s.messages.lookup x) ∧
      s.claim req = (.ok ((((t.order req.queue).filter
        (claimableIn s.messages req.now)).take req.limit.toNat).filterMap
          (handedOut req s.messages)), { t with messages := messages }) := by
  obtain ⟨t, hcl, hc⟩ := h.compactLocked req.queue
  obtain ⟨picked, hp, hr, hm⟩ := claimLoop_spec req (t.order req.queue) t.messages []
  have hfirst := hp.first (hc.indexed.nodup req.queue)
  simp only [List.length_nil, Nat.cast_zero, sub_zero, hc.messages_eq] at hfirst
  rw [hc.messages_eq, hfirst] at hm hr
  refine ⟨t, (claimLoop req (t.order req.queue) s.messages []).2, hc, hm, ?_⟩
  unfold Store.claim Store.unlessClosed
  rw [ho, if_neg (by simp), hcl]
  simp only [not_lt.mpr hlim, if_false, hc.messages_eq, hr, List.nil_append]

/-! ## Appending -/

theorem appendOrder_apply (order : String → List String) (msgs : List Message) (q : String) :
    Store.appendOrder order msgs q =
      order q ++ (msgs.filter (fun msg => msg.queue = q)).map Message.id := by
  induction msgs generalizing order with
  | nil => simp [Store.appendOrder]
  | cons msg msgs ih =>
    rw [Store.appendOrder, ih]
    by_cases hq : msg.queue = q
    · subst hq
      simp
    · simp [hq, Function.update_of_ne (Ne.symm hq)]

theorem Indexed.append {s : Store} (h : Indexed s) {msgs : List Message}
    (hn : (msgs.map Message.id).Nodup) : Indexed (s.append msgs).2 := by
  rcases s.append_cases msgs with ⟨e, he⟩ | ⟨hfresh, he⟩
  · rw [he]
    exact h
  rw [he]
  have hunlisted : ∀ q, ∀ id ∈ s.order q, id ∉ msgs.map Message.id := by
    intro q id hid hm
    obtain ⟨msg, hmsg, rfl⟩ := List.mem_map.mp hm
    exact h.not_listed_of_none (hfresh msg hmsg) q hid
  refine ⟨?_, fun q => ?_, fun q id hm => ?_, fun id entry hl ht => ?_, fun q => ?_⟩
  · have hk := exec_keyed h.keyed (.append msgs)
    simpa only [exec, he] using hk
  · dsimp only
    rw [appendOrder_apply]
    refine (h.nodup q).append (hn.sublist (List.filter_sublist.map _)) ?_
    intro id hm hid
    exact hunlisted q id hm ((List.filter_sublist.map _).subset hid)
  · dsimp only at hm ⊢
    rw [appendOrder_apply] at hm
    rcases List.mem_append.mp hm with hm | hm
    · rw [storeAll_of_notMem (hunlisted q id hm)]
      exact h.listed q id hm
    · obtain ⟨msg, hmsg, rfl⟩ := List.mem_map.mp hm
      obtain ⟨hmsg, hq⟩ := List.mem_filter.mp hmsg
      exact ⟨unleased msg.clone, storeAll_of_nodup hn hmsg, by simpa [unleased] using hq⟩
  · dsimp only at hl ⊢
    rw [appendOrder_apply, List.mem_append]
    by_cases hid : id ∈ msgs.map Message.id
    · obtain ⟨msg, hmsg, rfl⟩ := List.mem_map.mp hid
      rw [storeAll_of_nodup hn hmsg] at hl
      obtain rfl := Option.some.inj hl
      exact Or.inr (List.mem_map_of_mem (List.mem_filter.mpr ⟨hmsg, by simp [unleased]⟩))
    · rw [storeAll_of_notMem hid] at hl
      exact Or.inl (h.complete id entry hl ht)
  · have hc := h.counted q
    have hsame : (s.order q).countP (isSettled (Store.storeAll s.messages msgs)) =
        (s.order q).countP (isSettled s.messages) :=
      List.countP_congr (fun id hm => by
        rw [isSettled, storeAll_of_notMem (hunlisted q id hm), isSettled])
    refine ⟨hc.1, ?_⟩
    dsimp only
    rw [appendOrder_apply, List.countP_append, hsame]
    push_cast
    omega

/-! ## Purging -/

/-- The purge loop keeps the stored ids that are settled. -/
theorem purgeLoop_kept (ids : List String) (m : Messages) (remaining : List String) (n : ℤ) :
    (purgeLoop ids m remaining n).1 =
      remaining ++ ids.filter (fun id => (m.lookup id).isSome && isSettled m id) := by
  induction ids generalizing m remaining n with
  | nil => simp [purgeLoop]
  | cons id ids ih =>
    cases hl : m.lookup id with
    | none => simp [purgeLoop, hl, ih]
    | some entry =>
      by_cases ht : entry.msg.state.terminal = true
      · have hs : isSettled m id = true := by simp [isSettled, hl, ht]
        simp [purgeLoop, hl, ht, ih, hs]
      · have hs : isSettled m id = false := by simp [isSettled, hl, ht]
        have herase : ids.filter (fun x => ((m.erase id).lookup x).isSome &&
            isSettled (m.erase id) x) =
            ids.filter (fun x => (m.lookup x).isSome && isSettled m x) := by
          apply List.filter_congr
          intro x _
          by_cases hx : x = id
          · subst hx
            simp [hs]
          · simp [isSettled, hx]
        simp [purgeLoop, hl, ht, ih, hs, herase]

/-- It counts the live ids. -/
theorem purgeLoop_count {ids : List String} (hn : ids.Nodup) (m : Messages)
    (remaining : List String) (n : ℤ) :
    (purgeLoop ids m remaining n).2.2 = n + (ids.filter (live m)).length := by
  induction ids generalizing m remaining n with
  | nil => simp [purgeLoop]
  | cons id ids ih =>
    obtain ⟨hid, hn⟩ := List.nodup_cons.mp hn
    cases hl : m.lookup id with
    | none => simp [purgeLoop, hl, ih hn, live, isSettled]
    | some entry =>
      by_cases ht : entry.msg.state.terminal = true
      · simp [purgeLoop, hl, ht, ih hn, live, isSettled]
      · have herase : ids.filter (live (m.erase id)) = ids.filter (live m) := by
          apply List.filter_congr
          intro x hx
          have hne : x ≠ id := fun h => hid (h ▸ hx)
          simp [live, isSettled, hne]
        have hs : live m id = true := by simp [live, isSettled, hl, ht]
        simp only [purgeLoop, hl, ht, Bool.false_eq_true, if_false, ih hn, herase,
          List.filter_cons_of_pos hs, List.length_cons]
        push_cast
        ring

/-- A purge of a declared queue deletes its live messages and keeps the settled ids. -/
theorem Indexed.purge_eq {s : Store} (h : Indexed s) {q : String} {queue : Queue}
    (hq : s.queues.lookup q = some queue) :
    ∃ messages,
      (∀ x, messages.lookup x =
        if x ∈ (s.order q).filter (live s.messages) then none else s.messages.lookup x) ∧
      s.purge q = (.ok ((s.order q).filter (live s.messages)).length, { s with
        messages := messages
        order := Function.update s.order q ((s.order q).filter (isSettled s.messages))
        settled := Function.update s.settled q
          ((s.order q).filter (isSettled s.messages)).length }) := by
  have hkept : (purgeLoop (s.order q) s.messages [] 0).1 =
      (s.order q).filter (isSettled s.messages) := by
    rw [purgeLoop_kept, List.nil_append]
    apply List.filter_congr
    intro id hm
    obtain ⟨entry, hl, -⟩ := h.listed q id hm
    simp [hl]
  refine ⟨(purgeLoop (s.order q) s.messages [] 0).2.1, fun x => ?_, ?_⟩
  · rw [purgeLoop_lookup]
    simp only [List.mem_filter, live, Bool.not_eq_true']
  · unfold Store.purge
    rw [hq]
    dsimp only
    rw [hkept, purgeLoop_count (h.nodup q), zero_add]

theorem Indexed.purge {s : Store} (h : Indexed s) (q : String) : Indexed (s.purge q).2 := by
  cases hq : s.queues.lookup q with
  | none =>
    rw [Store.purge, hq]
    exact h
  | some queue =>
  obtain ⟨messages, hm, hp⟩ := h.purge_eq hq
  rw [hp]
  have hkeep : ∀ p id, id ∈ s.order p → (p = q → isSettled s.messages id = true) →
      messages.lookup id = s.messages.lookup id := by
    intro p id hid hs
    rw [hm, if_neg]
    intro hin
    obtain ⟨hin, hlive⟩ := List.mem_filter.mp hin
    obtain ⟨e, he, hpe⟩ := h.listed p id hid
    obtain ⟨e', he', hqe⟩ := h.listed q id hin
    rw [he] at he'
    obtain rfl := Option.some.inj he'
    simp [live, hs (hpe.symm.trans hqe)] at hlive
  -- A listed id of the new index is settled if the index is the purged one.
  have hindex : ∀ p id, id ∈ Function.update s.order q ((s.order q).filter
      (isSettled s.messages)) p → id ∈ s.order p ∧ (p = q → isSettled s.messages id = true) := by
    intro p id hid
    by_cases hpq : p = q
    · subst hpq
      rw [Function.update_self] at hid
      exact ⟨(List.mem_filter.mp hid).1, fun _ => (List.mem_filter.mp hid).2⟩
    · rw [Function.update_of_ne hpq] at hid
      exact ⟨hid, fun hc => absurd hc hpq⟩
  refine ⟨?_, fun p => ?_, fun p id hid => ?_, fun id entry hl ht => ?_, fun p => ?_⟩
  · have hk := exec_keyed h.keyed (.purge q)
    simpa only [exec, hp] using hk
  · by_cases hpq : p = q
    · subst hpq
      simpa using (h.nodup p).filter _
    · simpa [hpq] using h.nodup p
  · obtain ⟨hid, hs⟩ := hindex p id hid
    dsimp only
    rw [hkeep p id hid hs]
    exact h.listed p id hid
  · dsimp only at hl ⊢
    rw [hm] at hl
    split_ifs at hl with hin
    have hid := h.complete id entry hl ht
    by_cases hpq : entry.msg.queue = q
    · refine absurd (List.mem_filter.mpr ⟨hpq ▸ hid, ?_⟩) hin
      simp [live, isSettled_eq_false.mpr ⟨entry, hl, ht⟩]
    · rwa [Function.update_of_ne hpq]
  · have hsame : ∀ id ∈ Function.update s.order q ((s.order q).filter (isSettled s.messages)) p,
        isSettled messages id = isSettled s.messages id := by
      intro id hid
      obtain ⟨hid, hs⟩ := hindex p id hid
      unfold isSettled
      rw [hkeep p id hid hs]
    dsimp only
    rw [List.countP_congr (fun id hid => by rw [hsame id hid])]
    by_cases hpq : p = q
    · subst hpq
      simp only [Function.update_self, List.countP_filter, Bool.and_self]
      rw [List.countP_eq_length_filter]
      exact ⟨by positivity, le_rfl⟩
    · simpa [hpq] using h.counted p

/-! ## All methods that serve messages -/

theorem Indexed.onLeased {s : Store} (h : Indexed s) (id : String) (change : Record → Store)
    (hc : ∀ entry, s.messages.lookup id = some entry → entry.msg.state = .processing →
      Indexed (change entry)) : Indexed (s.onLeased id change).2 := by
  rcases s.onLeased_cases id change with ⟨entry, hl, hp, he⟩ | ⟨e, he⟩ <;> rw [he]
  · exact hc entry hl hp
  · exact h

theorem Indexed.serveClaim {s : Store} (h : Indexed s) (req : ClaimRequest) :
    Indexed (s.claim req).2 := by
  by_cases ho : s.closed = true
  · rw [Store.claim, Store.unlessClosed, if_pos ho]
    exact h
  rw [Bool.not_eq_true] at ho
  by_cases hlim : req.limit < 0
  · obtain ⟨t, hcl, hc⟩ := h.compactLocked req.queue
    simp only [Store.claim, Store.unlessClosed, ho, hcl, hlim, Bool.false_eq_true, if_false,
      if_true]
    exact hc.indexed
  · obtain ⟨t, messages, hc, hm, he⟩ := h.claim ho (not_lt.mp hlim)
    rw [he]
    apply hc.indexed.refresh
    rw [hc.messages_eq]
    refine refreshed_takenOver (fun id hid => ?_) hm
    exact (List.mem_filter.mp (List.mem_of_mem_take hid)).2

/-- With a queue go all messages its index lists. -/
theorem Indexed.deleteQueue {s : Store} (h : Indexed s) (name : String) :
    Indexed (s.deleteQueue name).2 := by
  unfold Store.deleteQueue
  cases s.queues.lookup name with
  | none => exact h
  | some queue =>
  have hother : ∀ q, q ≠ name → ∀ id ∈ s.order q, id ∉ s.order name := by
    intro q hq id hid hin
    obtain ⟨e, he, rfl⟩ := h.listed q id hid
    exact h.not_listed he hq hin
  refine ⟨?_, fun q => ?_, fun q id hid => ?_, fun id entry hl ht => ?_, fun q => ?_⟩
  · intro id entry hl
    rw [lookup_eraseAll] at hl
    split_ifs at hl
    exact h.keyed id entry hl
  · by_cases hq : q = name
    · simp [hq]
    · simpa [hq] using h.nodup q
  · by_cases hq : q = name
    · simp [hq] at hid
    · simp only [Function.update_of_ne hq] at hid
      rw [lookup_eraseAll, if_neg (hother q hq id hid)]
      exact h.listed q id hid
  · rw [lookup_eraseAll] at hl
    split_ifs at hl with hin
    have hid := h.complete id entry hl ht
    by_cases hq : entry.msg.queue = name
    · exact absurd (hq ▸ hid) hin
    · dsimp only
      rwa [Function.update_of_ne hq]
  · by_cases hq : q = name
    · simp [hq]
    · have hsame : ∀ id ∈ s.order q,
          isSettled (eraseAll s.messages (s.order name)) id = isSettled s.messages id := by
        intro id hid
        unfold isSettled
        rw [lookup_eraseAll, if_neg (hother q hq id hid)]
      dsimp only
      rw [Function.update_of_ne hq, Function.update_of_ne hq,
        List.countP_congr (fun id hid => by rw [hsame id hid])]
      exact h.counted q

/-- Every method of the interface keeps the index sound. -/
theorem exec_indexed {s : Store} (h : Indexed s) (c : Call) (hn : c.appendedIds.Nodup) :
    Indexed (exec c s).2 := by
  by_cases hp : Passive c
  · obtain ⟨hm, horder, hsettled⟩ := exec_passive hp s
    constructor
    · exact exec_keyed h.keyed c
    all_goals simp only [horder, hsettled, hm]
    · exact h.nodup
    · exact h.listed
    · exact h.complete
    · exact h.counted
  cases c with
  | append msgs => exact h.append hn
  | claim req => exact h.serveClaim req
  | purge queue => exact h.purge queue
  | deleteQueue name => exact h.deleteQueue name
  | acknowledge id now =>
    simp only [exec, Store.acknowledge_eq]
    exact h.onLeased id _ (fun entry hl hp =>
      h.settle_put hl (by rw [hp]; rfl) rfl rfl rfl)
  | scheduleRetry req =>
    simp only [exec, Store.scheduleRetry_eq]
    exact h.onLeased req.id _ (fun entry hl hp =>
      h.refresh (refreshed_insert hl rfl rfl (by rw [hp]; rfl)))
  | release id now =>
    simp only [exec, Store.release_eq]
    exact h.onLeased id _ (fun entry hl hp =>
      h.refresh (refreshed_insert hl rfl rfl (by rw [hp]; rfl)))
  | markDeadLettered id reason now =>
    simp only [exec, Store.markDeadLettered_eq]
    cases hl : s.messages.lookup id with
    | none => exact h
    | some entry =>
      dsimp only
      split_ifs with hd
      · exact h.settle_put hl (by rcases hd with hd | hd <;> rw [hd] <;> rfl) rfl rfl rfl
      · exact h
  | _ => exact absurd trivial hp

/-- The index is sound after every run in which no batch names an id twice. -/
theorem after_indexed {cs : List Call} (hn : ∀ c ∈ cs, c.appendedIds.Nodup) :
    Indexed (after exec Store.new cs) := by
  induction cs using List.reverseRecOn with
  | nil => exact new_indexed
  | append_singleton cs c ih =>
    rw [after_append, after_singleton]
    apply exec_indexed
    · apply ih
      intro d hd
      exact hn d (List.mem_append_left [c] hd)
    · exact hn c (by simp)

end RabbitmqLite.Storage.Memory
