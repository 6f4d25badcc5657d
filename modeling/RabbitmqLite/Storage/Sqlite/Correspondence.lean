import RabbitmqLite.Storage.Memory.QueueContents
import RabbitmqLite.Storage.Sqlite.Rows

/-! # Corresponding states of the two drivers

The drivers correspond if the table of messages represents the map of records
and lists, for every queue, the same live ids in the same order as the index
of the queue. Every method but a claim keeps this and answers alike.
-/

namespace RabbitmqLite.Storage.Sqlite
open Broker Collections Sql
open Memory (Record Messages unleased live isSettled Indexed Compacted holds holds_iff pending
  pending_iff awaiting)

variable {json : JsonMaps}

structure Corresponds (json : JsonMaps) (s : Memory.Store) (db : Db) : Prop where
  queues : ∀ name, name ∈ db.queues.map QueueRow.name ↔ ∃ queue, s.queues.lookup name = some queue
  rows : RowsOf json s.messages db.messages
  ordered : (db.messages.map Row.seq).Pairwise (· < ·)
  fresh : ∀ n ∈ db.messages.map Row.seq, n < db.nextSeq
  listed : ∀ q, (db.messages.map Row.id).filter (pending s.messages q) =
    (s.order q).filter (pending s.messages q)

theorem new_corresponds : Corresponds json Memory.Store.new Db.new where
  queues := by simp [Memory.Store.new, Db.new]
  rows := by
    refine ⟨by simp [Db.new], by simp [Db.new], ?_, ?_⟩ <;> intro id entry h <;>
      simp [Memory.Store.new] at h
  ordered := by simp [Db.new]
  fresh := by simp [Db.new]
  listed := fun _ => rfl

/-- Compaction keeps the correspondence. -/
theorem Corresponds.compacted {s t : Memory.Store} {db : Db} (h : Corresponds json s db)
    (hc : Compacted s t) : Corresponds json t db where
  queues := by
    rw [hc.frame]
    exact h.queues
  rows := by
    rw [hc.messages_eq]
    exact h.rows
  ordered := h.ordered
  fresh := h.fresh
  listed := by
    intro q
    rw [hc.messages_eq, h.listed q]
    refine filter_eq_of_imp (hc.live_eq q).symm (fun id hid => ?_)
    obtain ⟨entry, he, -, ht⟩ := pending_iff.mp hid
    simp [live, isSettled, he, ht]

/-! ## Settling one message -/

/-- One record changes, and its row with it. -/
theorem Corresponds.update {s s' : Memory.Store} {db : Db} (h : Corresponds json s db) {id : String}
    {entry entry' : Record} (hl : s.messages.lookup id = some entry) (hd : Regular entry')
    (hs : s' = { s with messages := s.messages.insert id entry', settled := s'.settled })
    (hid : entry'.msg.id = entry.msg.id) (hq : entry'.msg.queue = entry.msg.queue)
    (hlive : entry.msg.state.terminal = false) {set : Row → Row}
    (hset : ∀ seq, set (encodeRow json seq entry) = encodeRow json seq entry') :
    Corresponds json s'
      { db with messages := Sql.update (fun row => row.id = id) set db.messages } := by
  have hm : s'.messages = s.messages.insert id entry' := by rw [hs]
  have hseqs : (Sql.update (fun row => row.id = id) set db.messages).map Row.seq =
      db.messages.map Row.seq := h.rows.map_update hl hset (fun _ => rfl)
  have hids : (Sql.update (fun row => row.id = id) set db.messages).map Row.id =
      db.messages.map Row.id := h.rows.map_update hl hset (fun _ => hid)
  refine ⟨?_, ?_, ?_, ?_, fun q => ?_⟩
  · rw [hs]
    exact h.queues
  · rw [hm]
    exact h.rows.update hl hd hid hset
  · simpa only [hseqs] using h.ordered
  · simpa only [hseqs] using h.fresh
  · have hord : s'.order = s.order := by rw [hs]
    simp only [hids, hord, hm]
    refine filter_eq_of_imp (h.listed q) (fun x hx => ?_)
    obtain ⟨e, he, heq, ht⟩ := pending_iff.mp hx
    rw [lookup_insert_eq] at he
    split_ifs at he with hxid
    · obtain rfl := Option.some.inj he
      exact pending_iff.mpr ⟨entry, hxid ▸ hl, hq ▸ heq, hlive⟩
    · exact pending_iff.mpr ⟨e, he, heq, ht⟩

theorem inYears_zeroTime : InYears zeroTime := by decide

/-- The methods that settle a leased message. -/
theorem Corresponds.onLeased {s : Memory.Store} {db : Db} (h : Corresponds json s db) (id : String)
    {change : Record → Memory.Store} (target : Message → Message)
    {apply : Message → Except TransitionError (Row → Row)}
    (hchange : ∀ entry, change entry = { s with
      messages := s.messages.insert id (unleased (target entry.msg))
      settled := (change entry).settled })
    (hid : ∀ msg, (target msg).id = msg.id) (hq : ∀ msg, (target msg).queue = msg.queue)
    (hd : ∀ entry, Regular entry → Regular (unleased (target entry.msg)))
    (happly : ∀ entry : Record, entry.msg.state = .processing → ∃ set, apply entry.msg = .ok set ∧
      ∀ seq, set (encodeRow json seq entry) = encodeRow json seq (unleased (target entry.msg))) :
    (s.onLeased id change).1 = (db.transitionLeased json id apply).1 ∧
      Corresponds json (s.onLeased id change).2 (db.transitionLeased json id apply).2 := by
  unfold Memory.Store.onLeased Memory.Store.leased Db.transitionLeased
  rw [h.rows.loadMessage]
  cases hl : s.messages.lookup id with
  | none => exact ⟨rfl, h⟩
  | some entry =>
    by_cases hp : entry.msg.state = .processing
    · obtain ⟨set, hset, henc⟩ := happly entry hp
      simp only [hp, ne_eq, not_true_eq_false, if_false, hset, h.rows.keyed hl]
      exact ⟨trivial, h.update hl (hd entry (h.rows.regular id entry hl)) (hchange entry)
        (hid entry.msg) (hq entry.msg) (by rw [hp]; rfl) henc⟩
    · simp only [hp, ne_eq, not_false_eq_true, if_true]
      exact ⟨trivial, h⟩

theorem Corresponds.acknowledge {s : Memory.Store} {db : Db} (h : Corresponds json s db)
    (id : String) {now : Time} (hn : InYears now) :
    (s.acknowledge id now).1 = (db.acknowledge json id now).1 ∧
      Corresponds json (s.acknowledge id now).2 (db.acknowledge json id now).2 := by
  rw [Memory.Store.acknowledge_eq]
  apply h.onLeased id (fun msg => Memory.acknowledged msg now) (fun _ => rfl) (fun _ => rfl)
    (fun _ => rfl)
  · exact fun entry hd => ⟨hd.copied, hd.created, hn, hd.available, inYears_zeroTime⟩
  · intro entry hp
    simp only [Message.transition_eq, hp, State.canTransitionTo_eq, State.valid_eq, if_true]
    exact ⟨_, rfl, fun _ => rfl⟩

theorem Corresponds.scheduleRetry {s : Memory.Store} {db : Db} (h : Corresponds json s db)
    {req : RetryRequest} (hn : InYears req.now) (ha : InYears req.availableAt) :
    (s.scheduleRetry req).1 = (db.scheduleRetry json req).1 ∧
      Corresponds json (s.scheduleRetry req).2 (db.scheduleRetry json req).2 := by
  rw [Memory.Store.scheduleRetry_eq]
  apply h.onLeased req.id (fun msg => Memory.retried msg req) (fun _ => rfl) (fun _ => rfl)
    (fun _ => rfl)
  · exact fun entry hd => ⟨hd.copied, hd.created, hn, ha, inYears_zeroTime⟩
  · intro entry hp
    simp only [Message.transition_eq, hp, State.canTransitionTo_eq, State.valid_eq, if_true]
    exact ⟨_, rfl, fun _ => rfl⟩

theorem Corresponds.release {s : Memory.Store} {db : Db} (h : Corresponds json s db)
    (id : String) {now : Time} (hn : InYears now) :
    (s.release id now).1 = (db.release json id now).1 ∧
      Corresponds json (s.release id now).2 (db.release json id now).2 := by
  rw [Memory.Store.release_eq]
  apply h.onLeased id (fun msg => Memory.released msg now) (fun _ => rfl) (fun _ => rfl)
    (fun _ => rfl)
  · exact fun entry hd => ⟨hd.copied, hd.created, hn, hn, inYears_zeroTime⟩
  · intro entry hp
    simp only [Message.transition_eq, hp, State.canTransitionTo_eq, State.valid_eq, if_true]
    exact ⟨_, rfl, fun _ => rfl⟩

/-- The columns a dead-lettered message gets. -/
def deadRow (reason : String) (now : Time) (row : Row) : Row :=
  { row with
    state := .deadLettered
    updatedAt := formatTime now
    lastError := reason
    leaseExpiresAt := none
    consumer := "" }

theorem RowsOf.markDeadLettered {m : Messages} {db : Db} (h : RowsOf json m db.messages)
    (id reason : String) (now : Time) :
    db.markDeadLettered json id reason now =
      match m.lookup id with
      | none => (.error .notFound, db)
      | some entry =>
        if Memory.Doomable entry.msg.state then
          (.ok (), { db with
            messages := Sql.update (fun row => row.id = id) (deadRow reason now) db.messages })
        else (.error (.transition (.invalidTransition entry.msg.state .deadLettered)), db) := by
  unfold Db.markDeadLettered
  rw [h.loadMessage]
  cases hl : m.lookup id with
  | none => rfl
  | some entry =>
    have hid := h.keyed hl
    cases hs : entry.msg.state <;>
      simp [hs, hid, Message.transition_eq, Memory.Doomable, State.canTransitionTo_eq,
        State.valid_eq] <;> rfl

theorem Corresponds.markDeadLettered {s : Memory.Store} {db : Db} (h : Corresponds json s db)
    (id reason : String) {now : Time} (hn : InYears now) :
    (s.markDeadLettered id reason now).1 = (db.markDeadLettered json id reason now).1 ∧
      Corresponds json (s.markDeadLettered id reason now).2
        (db.markDeadLettered json id reason now).2 := by
  rw [Memory.Store.markDeadLettered_eq, h.rows.markDeadLettered]
  cases hl : s.messages.lookup id with
  | none => exact ⟨rfl, h⟩
  | some entry =>
    dsimp only
    split_ifs with hd
    · have ht : entry.msg.state.terminal = false := by
        rcases hd with hd | hd <;> rw [hd] <;> rfl
      have hregular := h.rows.regular id entry hl
      have hdead : Regular (unleased (Memory.deadLettered entry.msg reason now)) :=
        ⟨hregular.copied, hregular.created, hn, hregular.available, inYears_zeroTime⟩
      exact ⟨rfl, h.update hl hdead rfl rfl rfl ht (fun _ => rfl)⟩
    · exact ⟨rfl, h⟩

/-! ## Declaring queues and appending messages -/

theorem Corresponds.saveQueue {s : Memory.Store} {db : Db} (h : Corresponds json s db)
    (ho : s.closed = false) (queue : Queue) :
    (s.saveQueue queue).1 = (db.saveQueue queue).1 ∧
      Corresponds json (s.saveQueue queue).2 (db.saveQueue queue).2 := by
  simp only [Memory.Store.saveQueue, Memory.Store.unlessClosed, ho, Bool.false_eq_true, if_false,
    Db.saveQueue]
  refine ⟨trivial, fun name => ?_, h.rows, h.ordered, h.fresh, h.listed⟩
  rw [mem_keys_upsert (fun _ => rfl), h.queues name, lookup_insert_eq]
  by_cases hn : name = queue.name <;> simp [hn]

/-- One message is appended to the index and to the table. -/
theorem Corresponds.insert {s : Memory.Store} {db : Db} (h : Corresponds json s db) {msg : Message}
    (hfresh : s.messages.lookup msg.id = none) (hunlisted : ∀ q, msg.id ∉ s.order q)
    (hd : Regular (unleased msg.clone)) :
    Corresponds json
      { s with
        messages := s.messages.insert msg.id (unleased msg.clone)
        order := Function.update s.order msg.queue (s.order msg.queue ++ [msg.id]) }
      { db with
        messages := db.messages ++ [insertedRow json db.nextSeq msg]
        nextSeq := db.nextSeq + 1 } := by
  have hrow : insertedRow json db.nextSeq msg =
      encodeRow json db.nextSeq (unleased msg.clone) := by
    simp [encodeRow, insertedRow, unleased, Message.clone]
  refine ⟨h.queues, ?_, ?_, ?_, fun q => ?_⟩
  · rw [hrow]
    exact h.rows.insert hfresh hd db.nextSeq
  · rw [List.map_append, List.pairwise_append]
    refine ⟨h.ordered, List.pairwise_singleton _ _, fun a ha b hb => ?_⟩
    obtain rfl : b = db.nextSeq := by simpa [insertedRow] using hb
    exact h.fresh a ha
  · intro n hn
    rw [List.map_append, List.mem_append] at hn
    rcases hn with hn | hn
    · exact (h.fresh n hn).trans (Nat.lt_succ_self _)
    · obtain rfl : n = db.nextSeq := by simpa [insertedRow] using hn
      exact Nat.lt_succ_self _
  · have hold : ∀ l : List String, msg.id ∉ l →
        l.filter (pending (s.messages.insert msg.id (unleased msg.clone)) q) =
          l.filter (pending s.messages q) := by
      intro l hl
      apply List.filter_congr
      intro id hid
      have hne : id ≠ msg.id := fun hc => hl (hc ▸ hid)
      simp only [pending, holds, lookup_insert_eq, if_neg hne]
    have hnew : msg.id ∉ db.messages.map Row.id := by
      rw [h.rows.mem_ids]
      simp [hfresh]
    dsimp only
    rw [List.map_append, List.filter_append, hold _ hnew, h.listed q, ← hold _ (hunlisted q)]
    by_cases hq : msg.queue = q
    · subst hq
      rw [Function.update_self, List.filter_append]
      rfl
    · have hdead : pending (s.messages.insert msg.id (unleased msg.clone)) q msg.id = false := by
        simp [pending, holds, unleased, hq]
      rw [Function.update_of_ne (Ne.symm hq)]
      simp [insertedRow, hdead]

theorem Corresponds.insertLoop {s : Memory.Store} {db : Db} (h : Corresponds json s db)
    {msgs : List Message} (hn : (msgs.map Message.id).Nodup)
    (hfresh : ∀ msg ∈ msgs, s.messages.lookup msg.id = none)
    (hunlisted : ∀ msg ∈ msgs, ∀ q, msg.id ∉ s.order q)
    (hp : ∀ msg ∈ msgs, msg.payload ≠ none) (hd : ∀ msg ∈ msgs, Regular (unleased msg.clone)) :
    ∃ rows seq, Sqlite.insertLoop json msgs db.messages db.nextSeq = .ok (rows, seq) ∧
      Corresponds json
        { s with
          messages := Memory.Store.storeAll s.messages msgs
          order := Memory.Store.appendOrder s.order msgs }
        { db with messages := rows, nextSeq := seq } := by
  induction msgs generalizing s db with
  | nil => exact ⟨db.messages, db.nextSeq, rfl, h⟩
  | cons msg msgs ih =>
    obtain ⟨hid, hn⟩ := List.nodup_cons.mp hn
    have hne : ∀ other ∈ msgs, other.id ≠ msg.id :=
      fun other ho hc => hid (hc ▸ List.mem_map_of_mem ho)
    have hone := h.insert (hfresh msg List.mem_cons_self) (hunlisted msg List.mem_cons_self)
      (hd msg List.mem_cons_self)
    obtain ⟨rows, seq, hloop, hc⟩ := ih hone hn
      (fun other ho => by
        dsimp only
        rw [lookup_insert_eq, if_neg (hne other ho)]
        exact hfresh other (List.mem_cons_of_mem msg ho))
      (fun other ho q => by
        have hnot := hunlisted other (List.mem_cons_of_mem msg ho)
        by_cases hq : q = msg.queue
        · subst hq
          simpa [hne other ho] using hnot msg.queue
        · simpa [hq] using hnot q)
      (fun other ho => hp other (List.mem_cons_of_mem msg ho))
      (fun other ho => hd other (List.mem_cons_of_mem msg ho))
    refine ⟨rows, seq, ?_, hc⟩
    have hnew : insertUnique Row.id (insertedRow json db.nextSeq msg) db.messages =
        some (db.messages ++ [insertedRow json db.nextSeq msg]) := by
      rw [insertUnique, if_neg]
      intro hany
      obtain ⟨row, hr, hid⟩ := List.any_eq_true.mp hany
      have hmem : ∃ entry, s.messages.lookup msg.id = some entry := h.rows.mem_ids.mp
        (List.mem_map.mpr ⟨row, hr, of_decide_eq_true hid⟩)
      simp [hfresh msg List.mem_cons_self] at hmem
    rw [Sqlite.insertLoop, if_neg (hp msg List.mem_cons_self), hnew]
    exact hloop

theorem Corresponds.append {s : Memory.Store} {db : Db} (h : Corresponds json s db)
    (ho : s.closed = false) {msgs : List Message} (hn : (msgs.map Message.id).Nodup)
    (hfresh : ∀ msg ∈ msgs, s.messages.lookup msg.id = none)
    (hunlisted : ∀ msg ∈ msgs, ∀ q, msg.id ∉ s.order q)
    (hp : ∀ msg ∈ msgs, msg.payload ≠ none) (hd : ∀ msg ∈ msgs, Regular (unleased msg.clone)) :
    (s.append msgs).1 = (db.append json msgs).1 ∧
      Corresponds json (s.append msgs).2 (db.append json msgs).2 := by
  obtain ⟨rows, seq, hloop, hc⟩ := h.insertLoop hn hfresh hunlisted hp hd
  rw [Memory.append_of_fresh ho hfresh, Db.append, hloop]
  exact ⟨rfl, hc⟩

/-! ## Counting and purging -/

/-- Live rows of a queue are counted by the index of the queue. -/
theorem Corresponds.countP_eq {s : Memory.Store} {db : Db} (h : Corresponds json s db)
    (hi : Indexed s) (q : String) (cond : State → Bool)
    (hc : ∀ state, cond state = true → state.terminal = false) :
    (db.messages.filter (fun row => row.queue = q)).countP (fun row => cond row.state) =
      (s.order q).countP (holds s.messages q cond) := by
  have hrows : (db.messages.filter (fun row => row.queue = q)).countP (fun row => cond row.state) =
      ((db.messages.map Row.id).filter (pending s.messages q)).countP
        (holds s.messages q cond) := by
    rw [List.countP_filter, List.countP_filter, List.countP_map]
    apply List.countP_congr
    intro row hr
    obtain ⟨entry, hl, hq, hs, -⟩ := h.rows.columns hr
    simp only [Function.comp_apply, Bool.and_eq_true, holds_iff, pending_iff, hl, hq, hs,
      decide_eq_true_eq, Option.some.injEq, exists_eq_left']
    constructor
    · rintro ⟨hcond, hqe⟩
      exact ⟨⟨hqe, hcond⟩, hqe, hc _ hcond⟩
    · rintro ⟨⟨hqe, hcond⟩, -⟩
      exact ⟨hcond, hqe⟩
  rw [hrows, h.listed q, List.countP_filter]
  apply List.countP_congr
  intro id hid
  obtain ⟨entry, hl, hq⟩ := hi.listed q id hid
  simp only [Bool.and_eq_true, holds_iff, pending_iff, hl, Option.some.injEq, exists_eq_left', hq,
    true_and, and_iff_left_iff_imp]
  exact hc _

theorem foldl_addGroup (groups : List (State × ℕ)) (d : Depth) :
    groups.foldl addGroup d =
      { d with
        ready := d.ready + ((groups.filter (fun g => g.1 == .queued)).map Prod.snd).sum
        inFlight := d.inFlight +
          ((groups.filter (fun g => g.1 == .processing)).map Prod.snd).sum
        scheduled := d.scheduled + ((groups.filter (fun g =>
          awaiting g.1)).map Prod.snd).sum } := by
  induction groups generalizing d with
  | nil => simp
  | cons g groups ih =>
    rw [List.foldl_cons, ih]
    obtain ⟨state, n⟩ := g
    cases state <;> simp [addGroup, awaiting, add_assoc]

theorem depth_groups (rows : List Row) :
    (groupCount Row.state rows).foldl addGroup ⟨0, 0, 0, 0⟩ =
      ⟨0 + rows.countP (fun row => row.state == .queued),
        0 + rows.countP (fun row => row.state == .processing),
        0 + rows.countP (fun row => awaiting row.state), 0⟩ := by
  rw [foldl_addGroup, sum_groupCount Row.state rows (· == .queued),
    sum_groupCount Row.state rows (· == .processing),
    sum_groupCount Row.state rows awaiting]

theorem Corresponds.queueCount_eq_zero {s : Memory.Store} {db : Db} (h : Corresponds json s db)
    (q : String) : db.queueCount q = 0 ↔ s.queues.lookup q = none := by
  have hq := h.queues q
  rw [Db.queueCount, List.countP_eq_zero]
  cases hl : s.queues.lookup q with
  | none =>
    simp only [hl, reduceCtorEq, exists_false, iff_false] at hq
    simp only [decide_eq_true_eq, iff_true]
    exact fun row hr hn => hq (List.mem_map.mpr ⟨row, hr, hn⟩)
  | some queue =>
    obtain ⟨row, hr, hn⟩ := List.mem_map.mp (hq.mpr ⟨queue, hl⟩)
    simp only [decide_eq_true_eq, reduceCtorEq, iff_false, not_forall, not_not]
    exact ⟨row, hr, hn⟩

theorem Corresponds.depth {s : Memory.Store} {db : Db} (h : Corresponds json s db)
    (hi : Indexed s) (q : String) : (s.depth q).1 = (db.depth q).1 := by
  unfold Memory.Store.depth Db.depth
  cases hl : s.queues.lookup q with
  | none => rw [if_pos ((h.queueCount_eq_zero q).mpr hl)]
  | some queue =>
    rw [if_neg (by rw [h.queueCount_eq_zero q, hl]; simp)]
    rw [depth_groups, h.countP_eq hi q (· == .queued) (fun _ => Memory.terminal_of_queued),
      h.countP_eq hi q (· == .processing) (fun _ => Memory.terminal_of_processing),
      h.countP_eq hi q awaiting (fun _ => Memory.terminal_of_awaiting)]
    simp only [Memory.depthLoop_eq (hi.listed q), Memory.Depth.withTotal]

theorem filter_pending {s : Memory.Store} (hi : Indexed s) (q : String) :
    (s.order q).filter (pending s.messages q) = (s.order q).filter (live s.messages) := by
  apply List.filter_congr
  intro id hid
  obtain ⟨entry, hl, hq⟩ := hi.listed q id hid
  simp [pending, holds, live, isSettled, hl, hq]

/-- All messages of a queue have one of the declared states. -/
def DeclaredIn (m : Messages) (q : String) : Prop :=
  ∀ id entry, m.lookup id = some entry → entry.msg.queue = q → entry.msg.state.valid = true

theorem RowsOf.purged_eq {m : Messages} {rows : List Row} (h : RowsOf json m rows) {q : String}
    (hd : DeclaredIn m q) : ∀ row ∈ rows, Db.purged q row = pending m q row.id := by
  intro row hr
  obtain ⟨entry, hl, hq, hs, -⟩ := h.columns hr
  rw [Bool.eq_iff_iff, pending_iff]
  simp only [Db.purged, hq, hs, hl, Bool.and_eq_true, decide_eq_true_eq, Bool.not_eq_true',
    decide_eq_false_iff_not, Option.some.injEq, exists_eq_left']
  refine and_congr_right (fun hqueue => ?_)
  rw [← State.terminal_of_valid (hd row.id entry hl hqueue), Bool.not_eq_true]

/-- A purge deletes the same messages and counts them alike. A state that is not declared would
count as terminal in memory and as live in the table. -/
theorem Corresponds.purge {s : Memory.Store} {db : Db} (h : Corresponds json s db)
    (hi : Indexed s) {q : String} (hd : DeclaredIn s.messages q) :
    (s.purge q).1 = (db.purge q).1 ∧ Corresponds json (s.purge q).2 (db.purge q).2 := by
  unfold Db.purge
  cases hl : s.queues.lookup q with
  | none =>
    rw [if_pos ((h.queueCount_eq_zero q).mpr hl), Memory.Store.purge, hl]
    exact ⟨rfl, h⟩
  | some queue =>
    rw [if_neg (by rw [h.queueCount_eq_zero q, hl]; simp)]
    obtain ⟨messages, hm, hp⟩ := hi.purge_eq hl
    rw [hp]
    have hdoomed : (s.order q).filter (live s.messages) =
        (db.messages.map Row.id).filter (pending s.messages q) := by
      rw [h.listed q, filter_pending hi q]
    have hmem : ∀ row ∈ db.messages, Db.purged q row = true ↔
        row.id ∈ (s.order q).filter (live s.messages) := by
      intro row hr
      rw [hdoomed, h.rows.purged_eq hd row hr, List.mem_filter]
      exact ⟨fun hlive => ⟨List.mem_map_of_mem hr, hlive⟩, fun hin => hin.2⟩
    have hsub : (Sql.delete (Db.purged q) db.messages).Sublist db.messages := List.filter_sublist
    refine ⟨?_, h.queues, h.rows.delete hmem hm, h.ordered.sublist (hsub.map _),
      fun n hn => h.fresh n ((hsub.map _).subset hn), fun p => ?_⟩
    · rw [hdoomed, ← map_id_filter _ (h.rows.purged_eq hd), List.length_map,
        List.countP_eq_length_filter]
    · -- Nothing that is live after the purge was dropped from the table or the index.
      have hkeep : ∀ id, pending messages p id = true →
          id ∉ (s.order q).filter (live s.messages) ∧ pending s.messages p id = true := by
        intro id hid
        obtain ⟨entry, he, hrest⟩ := pending_iff.mp hid
        rw [hm] at he
        split_ifs at he with hin
        exact ⟨hin, pending_iff.mpr ⟨entry, he, hrest⟩⟩
      have hboth := filter_eq_of_imp (h.listed p) (fun id hid => (hkeep id hid).2)
      dsimp only
      have htable : ((Sql.delete (Db.purged q) db.messages).map Row.id).filter
          (pending messages p) = (db.messages.map Row.id).filter (pending messages p) := by
        have hcond : ∀ row ∈ db.messages, (!Db.purged q row) = !pending s.messages q row.id :=
          fun row hr => by rw [h.rows.purged_eq hd row hr]
        rw [Sql.delete, map_id_filter (fun id => !pending s.messages q id) hcond,
          List.filter_filter]
        apply List.filter_congr
        intro id hid
        cases hlive : pending messages p id with
        | false => rfl
        | true =>
          have hnot := (hkeep id hlive).1
          rw [hdoomed, List.mem_filter, not_and] at hnot
          simp [hnot hid]
      have hindex : (Function.update s.order q ((s.order q).filter (isSettled s.messages)) p).filter
          (pending messages p) = (s.order p).filter (pending messages p) := by
        by_cases hpq : p = q
        · subst hpq
          rw [Function.update_self, List.filter_filter]
          apply List.filter_congr
          intro id hid
          cases hlive : pending messages p id with
          | false => rfl
          | true =>
            have hnot := (hkeep id hlive).1
            rw [List.mem_filter, not_and] at hnot
            simpa [live] using hnot hid
        · rw [Function.update_of_ne hpq]
      rw [htable, hindex, hboth]

/-! ## Expired leases -/

/-- The message is stored and its lease has ended. -/
def expiredIn (m : Messages) (now : Time) (id : String) : Bool :=
  match m.lookup id with
  | none => false
  | some entry => Memory.leaseExpired entry now

theorem RowsOf.leaseEnded_eq {m : Messages} {rows : List Row} (h : RowsOf json m rows) {now : Time}
    (hn : InYears now) : ∀ row ∈ rows, Db.leaseEnded now row = expiredIn m now row.id := by
  intro row hr
  obtain ⟨entry, hl, henc⟩ := h.encodes row hr
  have hs : row.state = entry.msg.state := congrArg Row.state henc
  have hlease : row.leaseExpiresAt =
      if entry.lease = zeroTime then none else some (formatTime entry.lease) :=
    congrArg Row.leaseExpiresAt henc
  rw [Db.leaseEnded, expiredIn, hl, hs, hlease, Bool.eq_iff_iff, Memory.leaseExpired_iff]
  by_cases hz : entry.lease = zeroTime
  · simp [hz]
  · simp only [hz, if_false, Bool.and_eq_true, decide_eq_true_eq, ne_eq, not_false_eq_true,
      true_and, formatTime_le_formatTime (h.regular row.id entry hl).lease hn]

/-- The ids of a table are an enumeration of the keys of the map. -/
theorem RowsOf.perm_sortedKeys {m : Messages} {rows : List Row} (h : RowsOf json m rows) :
    (rows.map Row.id).Perm (sortedKeys m) := by
  rw [List.perm_ext_iff_of_nodup h.nodup (sortedKeys_nodup m)]
  intro id
  rw [h.mem_ids, mem_sortedKeys, mem_iff_lookup]

theorem expired_eq (m : Messages) (now : Time) :
    Memory.expired m now =
      ((sortedKeys m).filter (expiredIn m now)).filterMap (storedMessage m) := by
  rw [Memory.expired, List.filterMap_filter]
  apply List.filterMap_congr
  intro id _
  cases hl : m.lookup id <;> simp [expiredIn, storedMessage, hl]

/-- Without a limit both drivers list the same expired leases, each in its own order. -/
theorem Corresponds.expiredLeases {s : Memory.Store} {db : Db} (h : Corresponds json s db)
    {now : Time} (hn : InYears now) :
    ∃ listed listed', (s.expiredLeases now 0).1 = .ok listed ∧
      (db.expiredLeases json now 0).1 = .ok listed' ∧ listed.Perm listed' := by
  have hperm := List.perm_insertionSort (fun a b : Row => a.seq ≤ b.seq)
    (db.messages.filter (Db.leaseEnded now))
  have hscan := h.rows.scanMessages (fun row hr =>
    (List.mem_filter.mp (hperm.mem_iff.mp hr)).1)
  refine ⟨Memory.expired s.messages now, _, ?_, hscan, ?_⟩
  · simp [Memory.Store.expiredLeases, Memory.limited]
  · rw [expired_eq]
    refine List.Perm.filterMap _ (List.Perm.trans ?_ (hperm.map Row.id).symm)
    rw [map_id_filter _ (h.rows.leaseEnded_eq hn)]
    exact (h.rows.perm_sortedKeys.filter _).symm

end RabbitmqLite.Storage.Sqlite
