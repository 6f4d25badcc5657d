import RabbitmqLite.Storage.Sqlite.Claiming
import RabbitmqLite.Storage.Sqlite.Driver

/-! # The table of messages

What a call of the driver does to the table of messages: it leaves the table
alone, adds the rows of a batch at its end, removes rows, or rewrites columns
of rows. Along every run the ids are therefore unique and the automatic keys
increase, and every row can be read back if all instants that were written lie
in the years 0 to 9999.
-/

namespace RabbitmqLite.Storage
open Atomic Sql

/-- The instants a call writes into the table of messages, the ends of leases apart. -/
def Call.instants : Call → List Time
  | .append msgs => msgs.flatMap (fun msg => [msg.createdAt, msg.updatedAt, msg.availableAt])
  | .claim req => [req.now]
  | .scheduleRetry req => [req.now, req.availableAt]
  | .acknowledge _ now | .release _ now | .markDeadLettered _ _ now => [now]
  | _ => []

namespace Sqlite
variable {json : JsonMaps} {c : Call}

/-! ## Inserting a batch -/

/-- The rows a batch becomes, with the keys that follow. -/
def insertedRows (json : JsonMaps) (seq : ℕ) (msgs : List Message) : List Row :=
  (msgs.zipIdx seq).map (fun numbered => insertedRow json numbered.2 numbered.1)

@[simp] theorem insertedRows_cons (seq : ℕ) (msg : Message) (msgs : List Message) :
    insertedRows json seq (msg :: msgs) =
      insertedRow json seq msg :: insertedRows json (seq + 1) msgs := rfl

theorem map_id_insertedRows (seq : ℕ) (msgs : List Message) :
    (insertedRows json seq msgs).map Row.id = msgs.map Message.id := by
  induction msgs generalizing seq with
  | nil => rfl
  | cons msg msgs ih => simp [ih, insertedRow]

theorem map_seq_insertedRows (seq : ℕ) (msgs : List Message) :
    (insertedRows json seq msgs).map Row.seq = List.range' seq msgs.length := by
  induction msgs generalizing seq with
  | nil => rfl
  | cons msg msgs ih => simp [ih, insertedRow, List.range'_succ]

/-- The ids of the batch are distinct and none of them is in the table. -/
def Insertable (rows : List Row) (msgs : List Message) : Prop :=
  (msgs.map Message.id).Nodup ∧ ∀ msg ∈ msgs, msg.id ∉ rows.map Row.id

theorem insertable_cons (json : JsonMaps) (seq : ℕ) {rows : List Row} {msg : Message}
    {msgs : List Message} :
    Insertable rows (msg :: msgs) ↔
      msg.id ∉ rows.map Row.id ∧ Insertable (rows ++ [insertedRow json seq msg]) msgs := by
  simp only [Insertable, List.map_cons, List.nodup_cons, List.forall_mem_cons, List.map_append,
    List.map_nil, List.mem_append, List.mem_singleton, not_or]
  have hid : (insertedRow json seq msg).id = msg.id := rfl
  rw [hid]
  constructor
  · rintro ⟨⟨hnot, hn⟩, hnew, hrest⟩
    refine ⟨hnew, hn, fun other ho => ⟨hrest other ho, fun heq => ?_⟩⟩
    exact hnot (heq ▸ List.mem_map_of_mem ho)
  · rintro ⟨hnew, hn, hrest⟩
    refine ⟨⟨fun hmem => ?_, hn⟩, hnew, fun other ho => (hrest other ho).1⟩
    obtain ⟨other, ho, heq⟩ := List.mem_map.mp hmem
    exact (hrest other ho).2 heq

theorem insertUnique_eq {row : Row} {rows : List Row} :
    insertUnique Row.id row rows =
      if row.id ∈ rows.map Row.id then none else some (rows ++ [row]) := by
  have hany : (rows.any (fun other => other.id = row.id) = true) ↔ row.id ∈ rows.map Row.id := by
    simp
  unfold insertUnique
  exact if_congr hany rfl rfl

/-- The rows go in one by one, and all of them only if the table refuses none. -/
theorem insertLoop_eq_ok {msgs : List Message} {rows : List Row} {seq : ℕ} {done : List Row × ℕ} :
    insertLoop json msgs rows seq = .ok done ↔
      (∀ msg ∈ msgs, msg.payload ≠ none) ∧ Insertable rows msgs ∧
        done = (rows ++ insertedRows json seq msgs, seq + msgs.length) := by
  induction msgs generalizing rows seq with
  | nil => simp [insertLoop, Insertable, insertedRows, eq_comm]
  | cons msg msgs ih =>
    rw [insertLoop, insertUnique_eq, insertable_cons json seq, List.forall_mem_cons]
    have hid : (insertedRow json seq msg).id = msg.id := rfl
    rw [hid]
    split_ifs with hpayload hstored
    · simp [hpayload]
    · simp [hstored]
    · dsimp only
      rw [ih]
      have hrows : rows ++ [insertedRow json seq msg] ++ insertedRows json (seq + 1) msgs =
          rows ++ insertedRows json seq (msg :: msgs) := by simp
      have hseq : seq + 1 + msgs.length = seq + (msg :: msgs).length := by
        rw [List.length_cons]
        omega
      rw [hrows, hseq]
      tauto

/-! ## What a call does -/

/-- A row with other texts in some columns. The instants are those of the call. -/
structure Rewritten (c : Call) (old new : Row) : Prop where
  id : new.id = old.id
  seq : new.seq = old.seq
  headers : new.headers = old.headers
  created : new.createdAt = old.createdAt
  updated : new.updatedAt = old.updatedAt ∨ ∃ t ∈ c.instants, new.updatedAt = formatTime t
  available : new.availableAt = old.availableAt ∨ ∃ t ∈ c.instants, new.availableAt = formatTime t

theorem Rewritten.refl (c : Call) (row : Row) : Rewritten c row row :=
  ⟨rfl, rfl, rfl, rfl, Or.inl rfl, Or.inl rfl⟩

theorem Rewritten.trans {a b d : Row} (h : Rewritten c a b) (h' : Rewritten c b d) :
    Rewritten c a d where
  id := h'.id.trans h.id
  seq := h'.seq.trans h.seq
  headers := h'.headers.trans h.headers
  created := h'.created.trans h.created
  updated := h'.updated.elim (fun heq => heq ▸ h.updated) Or.inr
  available := h'.available.elim (fun heq => heq ▸ h.available) Or.inr

/-- What a call does to the table. -/
inductive TableStep (json : JsonMaps) (c : Call) (db db' : Db) : Prop where
  | inserted {msgs : List Message} (hc : c = .append msgs) (hi : Insertable db.messages msgs)
      (hrows : db'.messages = db.messages ++ insertedRows json db.nextSeq msgs)
      (hseq : db'.nextSeq = db.nextSeq + msgs.length)
  | removed (hrows : db'.messages.Sublist db.messages) (hseq : db'.nextSeq = db.nextSeq)
  | rewritten (hrows : List.Forall₂ (Rewritten c) db.messages db'.messages)
      (hseq : db'.nextSeq = db.nextSeq)

theorem TableStep.same {db db' : Db} (hrows : db'.messages = db.messages)
    (hseq : db'.nextSeq = db.nextSeq) : TableStep json c db db' :=
  .removed (hrows ▸ List.Sublist.refl _) hseq

theorem TableStep.refl (db : Db) : TableStep json c db db := .same rfl rfl

theorem forall₂_update (cond : Row → Bool) {set : Row → Row}
    (hset : ∀ row, Rewritten c row (set row)) (rows : List Row) :
    List.Forall₂ (Rewritten c) rows (Sql.update cond set rows) := by
  rw [Sql.update, List.forall₂_map_right_iff, List.forall₂_same]
  intro row _
  split_ifs
  · exact hset row
  · exact Rewritten.refl c row

theorem forall₂_trans {a b d : List Row} (h : List.Forall₂ (Rewritten c) a b)
    (h' : List.Forall₂ (Rewritten c) b d) : List.Forall₂ (Rewritten c) a d := by
  induction h generalizing d with
  | nil => exact h'
  | cons hrow _ ih =>
    cases h' with
    | cons hrow' hrest => exact .cons (hrow.trans hrow') (ih hrest)

theorem updatedAt_of_transition {msg msg' : Message} {next : State} {now : Time}
    (h : msg.transition next now = .ok msg') : msg'.updatedAt = now := by
  unfold Message.transition at h
  split_ifs at h
  exact (Except.ok.inj h) ▸ rfl

theorem updatedAt_of_leaseCandidate {req : ClaimRequest} {msg msg' : Message}
    (h : leaseCandidate req msg = .ok msg') : msg'.updatedAt = req.now := by
  unfold leaseCandidate at h
  dsimp only at h
  split at h
  · cases h
  · split at h
    · cases h
    · rename_i processing hprocessing
      obtain rfl := Except.ok.inj h
      have hupdated : processing.updatedAt = req.now := updatedAt_of_transition hprocessing
      exact hupdated

theorem claimLoop_rewrites {req : ClaimRequest} {msgs claimed : List Message}
    {rows rows' : List Row} (h : claimLoop req msgs rows = .ok (claimed, rows')) :
    List.Forall₂ (Rewritten (.claim req)) rows rows' := by
  induction msgs generalizing rows claimed with
  | nil =>
    obtain ⟨-, rfl⟩ := Prod.mk.inj (Except.ok.inj h)
    exact List.forall₂_same.mpr (fun row _ => Rewritten.refl _ row)
  | cons msg msgs ih =>
    rw [claimLoop] at h
    split at h
    · cases h
    · rename_i leased hleased
      dsimp only at h
      cases hrest : claimLoop req msgs (Sql.update (fun row => row.id = leased.id)
          (leaseRow req leased) rows) with
      | error e => simp [hrest, Except.map] at h
      | ok done =>
        rw [hrest] at h
        obtain ⟨-, rfl⟩ := Prod.mk.inj (Except.ok.inj h)
        have hset : ∀ row, Rewritten (.claim req) row (leaseRow req leased row) := fun row =>
          ⟨rfl, rfl, rfl, rfl, Or.inr ⟨req.now, by simp [Call.instants],
            congrArg formatTime (updatedAt_of_leaseCandidate hleased)⟩, Or.inl rfl⟩
        exact forall₂_trans (forall₂_update _ hset rows) (ih hrest)

theorem claim_step (db : Db) (req : ClaimRequest) :
    TableStep json (.claim req) db (db.claim json req).2 := by
  unfold Db.claim
  split_ifs
  · exact .refl db
  · split
    · exact .refl db
    · split
      · exact .refl db
      · rename_i hloop
        exact .rewritten (claimLoop_rewrites hloop) rfl

theorem transitionLeased_step (db : Db) (id : String)
    {apply : Message → Except TransitionError (Row → Row)}
    (happly : ∀ msg set, apply msg = .ok set → ∀ row, Rewritten c row (set row)) :
    TableStep json c db (db.transitionLeased json id apply).2 := by
  unfold Db.transitionLeased
  split
  · exact .refl db
  · split_ifs
    · exact .refl db
    · split
      · exact .refl db
      · rename_i hset
        exact .rewritten (forall₂_update _ (happly _ _ hset) _) rfl

theorem markDeadLettered_step (db : Db) (id reason : String) (now : Time) :
    TableStep json (.markDeadLettered id reason now) db
      (db.markDeadLettered json id reason now).2 := by
  unfold Db.markDeadLettered
  split
  · exact .refl db
  · dsimp only
    split
    · exact .refl db
    · split
      · exact .refl db
      · rename_i dead hdead
        refine .rewritten (forall₂_update _ (fun row => ?_) _) rfl
        exact ⟨rfl, rfl, rfl, rfl, Or.inr ⟨now, by simp [Call.instants],
          congrArg formatTime (updatedAt_of_transition hdead)⟩, Or.inl rfl⟩

/-- A batch is inserted whole, or not at all. -/
theorem Db.append_cases (json : JsonMaps) (db : Db) (msgs : List Message) :
    (∃ e, db.append json msgs = (.error e, db)) ∨
      Insertable db.messages msgs ∧ db.append json msgs = (.ok (), { db with
        messages := db.messages ++ insertedRows json db.nextSeq msgs
        nextSeq := db.nextSeq + msgs.length }) := by
  unfold Db.append
  cases hloop : insertLoop json msgs db.messages db.nextSeq with
  | error e => exact Or.inl ⟨e, rfl⟩
  | ok done =>
    obtain ⟨-, hi, rfl⟩ := insertLoop_eq_ok.mp hloop
    exact Or.inr ⟨hi, rfl⟩

theorem serve_step (db : Database) (c : Call) :
    TableStep json c db.toDb (serve json c db).2.toDb := by
  cases c with
  | append msgs =>
    simp only [serve, onMessages]
    rcases Db.append_cases json db.toDb msgs with ⟨e, heq⟩ | ⟨hi, heq⟩ <;> rw [heq]
    · exact .refl _
    · exact .inserted rfl hi rfl rfl
  | claim req => exact claim_step db.toDb req
  | acknowledge id now =>
    refine transitionLeased_step db.toDb id (fun msg set hset row => ?_)
    obtain ⟨acked, hacked, hset⟩ := exists_of_bind_eq_ok hset
    obtain rfl := Except.ok.inj hset
    exact ⟨rfl, rfl, rfl, rfl, Or.inr ⟨now, by simp [Call.instants],
      congrArg formatTime (updatedAt_of_transition hacked)⟩, Or.inl rfl⟩
  | scheduleRetry req =>
    refine transitionLeased_step db.toDb req.id (fun msg set hset row => ?_)
    obtain ⟨_, _, hset⟩ := exists_of_bind_eq_ok hset
    obtain ⟨retried, hretried, hset⟩ := exists_of_bind_eq_ok hset
    obtain rfl := Except.ok.inj hset
    exact ⟨rfl, rfl, rfl, rfl, Or.inr ⟨req.now, by simp [Call.instants],
      congrArg formatTime (updatedAt_of_transition hretried)⟩,
      Or.inr ⟨req.availableAt, by simp [Call.instants], rfl⟩⟩
  | release id now =>
    refine transitionLeased_step db.toDb id (fun msg set hset row => ?_)
    obtain ⟨released, hreleased, hset⟩ := exists_of_bind_eq_ok hset
    obtain rfl := Except.ok.inj hset
    exact ⟨rfl, rfl, rfl, rfl, Or.inr ⟨now, by simp [Call.instants],
      congrArg formatTime (updatedAt_of_transition hreleased)⟩,
      Or.inr ⟨now, by simp [Call.instants], rfl⟩⟩
  | markDeadLettered id reason now => exact markDeadLettered_step db.toDb id reason now
  | purge queue =>
    simp only [serve, onMessages, Db.purge]
    split_ifs
    · exact .refl _
    · exact .removed List.filter_sublist rfl
  | deleteQueue name =>
    simp only [serve, Database.deleteQueue]
    split_ifs
    · exact .refl _
    · exact .removed List.filter_sublist rfl
  | saveQueue queue => exact .same rfl rfl
  | depth | deleteBinding | markDeadLetterReplayed | deleteDeadLetter =>
    simp only [serve, onMessages, Db.depth, Database.deleteBinding,
      Database.markDeadLetterReplayed, Database.deleteDeadLetter]
    split_ifs <;> exact .refl _
  | deadLetter | saveDeadLetter =>
    simp only [serve, Database.deadLetter, Database.saveDeadLetter]
    repeat' split
    all_goals exact .refl _
  | saveExchange | exchanges | queues | saveBinding | bindings | message | expiredLeases
  | appendHistory | history | close => exact .refl _

theorem call_step (db : Database) (c : Call) :
    TableStep json c db.toDb (call json c db).2.toDb := by
  unfold call
  split_ifs
  · exact .refl _
  · exact serve_step db c

/-! ## Keys -/

/-- Ids are unique, and the automatic keys increase. -/
structure Numbered (db : Db) : Prop where
  distinct : (db.messages.map Row.id).Nodup
  ordered : (db.messages.map Row.seq).Pairwise (· < ·)
  fresh : ∀ n ∈ db.messages.map Row.seq, n < db.nextSeq

theorem new_numbered : Numbered Db.new := by
  constructor <;> simp [Db.new]

theorem Numbered.append {db : Db} (h : Numbered db) {msgs : List Message}
    (hi : Insertable db.messages msgs) :
    Numbered { db with
      messages := db.messages ++ insertedRows json db.nextSeq msgs
      nextSeq := db.nextSeq + msgs.length } where
  distinct := by
    rw [List.map_append, map_id_insertedRows]
    refine h.distinct.append hi.1 (fun id hid hnew => ?_)
    obtain ⟨msg, hm, rfl⟩ := List.mem_map.mp hnew
    exact hi.2 msg hm hid
  ordered := by
    rw [List.map_append, map_seq_insertedRows, List.pairwise_append]
    refine ⟨h.ordered, List.pairwise_lt_range', fun a ha b hb => ?_⟩
    have hlt := h.fresh a ha
    have hle := (List.mem_range'_1.mp hb).1
    omega
  fresh := by
    intro n hn
    rw [List.map_append, map_seq_insertedRows, List.mem_append] at hn
    rcases hn with hn | hn
    · have hlt := h.fresh n hn
      dsimp only
      omega
    · exact (List.mem_range'_1.mp hn).2

theorem map_eq_of_rewritten {rows rows' : List Row} (h : List.Forall₂ (Rewritten c) rows rows') :
    rows'.map Row.id = rows.map Row.id ∧ rows'.map Row.seq = rows.map Row.seq := by
  induction h with
  | nil => exact ⟨rfl, rfl⟩
  | cons hrow _ ih => simp [hrow.id, hrow.seq, ih]

theorem Numbered.step {db db' : Db} (h : Numbered db) (hs : TableStep json c db db') :
    Numbered db' := by
  obtain ⟨queues, messages, nextSeq⟩ := db'
  cases hs with
  | inserted hc hi hrows hseq =>
    have happend : Numbered { db with
        messages := db.messages ++ insertedRows json db.nextSeq _
        nextSeq := db.nextSeq + _ } := h.append hi
    rw [← hrows, ← hseq] at happend
    exact ⟨happend.distinct, happend.ordered, happend.fresh⟩
  | removed hrows hseq =>
    refine ⟨h.distinct.sublist (hrows.map Row.id), h.ordered.sublist (hrows.map Row.seq),
      fun n hn => ?_⟩
    rw [hseq]
    exact h.fresh n ((hrows.map Row.seq).subset hn)
  | rewritten hrows hseq =>
    obtain ⟨hid, hkeys⟩ := map_eq_of_rewritten hrows
    refine ⟨by rw [hid]; exact h.distinct, by rw [hkeys]; exact h.ordered, fun n hn => ?_⟩
    rw [hkeys] at hn
    rw [hseq]
    exact h.fresh n hn

/-! ## Reading back -/

/-- The text of an instant in the years 0 to 9999. -/
def IsDate (text : String) : Prop := ∃ t, InYears t ∧ text = formatTime t

theorem isDate_formatTime {t : Time} (h : InYears t) : IsDate (formatTime t) := ⟨t, h, rfl⟩

/-- All that is read of a row was written as it is read. -/
structure Readable (json : JsonMaps) (row : Row) : Prop where
  headers : (decodeHeaders json row.headers).isSome
  created : IsDate row.createdAt
  updated : IsDate row.updatedAt
  available : IsDate row.availableAt

/-- A row reads as a message that is in its queue and its state, and available at its instant. -/
structure ReadAs (json : JsonMaps) (row : Row) (msg : Message) : Prop where
  scanned : scanMessage json row = .ok msg
  queue : msg.queue = row.queue
  state : msg.state = row.state
  inYears : InYears msg.availableAt
  available : row.availableAt = formatTime msg.availableAt

theorem state_of_scanMessage {row : Row} {msg : Message} (h : scanMessage json row = .ok msg) :
    msg.state = row.state := by
  unfold scanMessage at h
  split at h
  · obtain rfl := Except.ok.inj h
    rfl
  · cases h

theorem IsDate.parsed {text : String} (h : IsDate text) :
    ∃ t, parseTime text = some t ∧ InYears t ∧ text = formatTime t := by
  obtain ⟨t, ht, rfl⟩ := h
  exact ⟨t, parseTime_formatTime ht, ht, rfl⟩

theorem Readable.readAs {row : Row} (h : Readable json row) : ∃ msg, ReadAs json row msg := by
  obtain ⟨headers, hheaders⟩ := Option.isSome_iff_exists.mp h.headers
  obtain ⟨created, hcreated, -⟩ := h.created.parsed
  obtain ⟨updated, hupdated, -⟩ := h.updated.parsed
  obtain ⟨available, havailable, hyears, htext⟩ := h.available.parsed
  have hscan : ∃ msg, scanMessage json row = .ok msg ∧ msg.queue = row.queue ∧
      msg.state = row.state ∧ msg.availableAt = available := by
    simp only [scanMessage, hheaders, hcreated, hupdated, havailable]
    exact ⟨_, rfl, rfl, rfl, rfl⟩
  obtain ⟨msg, hmsg, hqueue, hstate, rfl⟩ := hscan
  exact ⟨msg, hmsg, hqueue, hstate, hyears, htext⟩

theorem Readable.rewritten {old new : Row} (h : Readable json old) (hr : Rewritten c old new)
    (hc : ∀ t ∈ c.instants, InYears t) : Readable json new where
  headers := hr.headers ▸ h.headers
  created := hr.created ▸ h.created
  updated := by
    rcases hr.updated with heq | ⟨t, ht, heq⟩ <;> rw [heq]
    · exact h.updated
    · exact isDate_formatTime (hc t ht)
  available := by
    rcases hr.available with heq | ⟨t, ht, heq⟩ <;> rw [heq]
    · exact h.available
    · exact isDate_formatTime (hc t ht)

/-- All instants of a message lie in the years 0 to 9999. -/
structure DatedMessage (msg : Message) : Prop where
  created : InYears msg.createdAt
  updated : InYears msg.updatedAt
  available : InYears msg.availableAt

/-- A row is read back as the message it was inserted for. -/
theorem scanMessage_insertedRow {msg : Message} (h : DatedMessage msg) (seq : ℕ) :
    scanMessage json (insertedRow json seq msg) = .ok msg.clone := by
  simp only [scanMessage, insertedRow, decodeHeaders_encodeHeaders,
    parseTime_formatTime h.created, parseTime_formatTime h.updated,
    parseTime_formatTime h.available, Payload.copied_some_bytes]
  rfl

theorem readable_insertedRow {msg : Message} (h : DatedMessage msg) (seq : ℕ) :
    Readable json (insertedRow json seq msg) where
  headers := by simp [insertedRow, decodeHeaders_encodeHeaders]
  created := isDate_formatTime h.created
  updated := isDate_formatTime h.updated
  available := isDate_formatTime h.available

theorem exists_of_mem_insertedRows {row : Row} {seq : ℕ} {msgs : List Message}
    (h : row ∈ insertedRows json seq msgs) : ∃ msg ∈ msgs, ∃ n, row = insertedRow json n msg := by
  obtain ⟨⟨msg, n⟩, hm, rfl⟩ := List.mem_map.mp h
  exact ⟨msg, List.fst_mem_of_mem_zipIdx hm, n, rfl⟩

theorem exists_insertedRow_mem (json : JsonMaps) (seq : ℕ) {msg : Message} {msgs : List Message}
    (h : msg ∈ msgs) : ∃ n, insertedRow json n msg ∈ insertedRows json seq msgs := by
  obtain ⟨i, hi, rfl⟩ := List.getElem_of_mem h
  refine ⟨seq + i, List.mem_map.mpr ⟨(msgs[i], seq + i), ?_, rfl⟩⟩
  exact List.mk_add_mem_zipIdx_iff_getElem?.mpr (List.getElem?_eq_getElem hi)

theorem datedMessage_of_append {msgs : List Message}
    (h : ∀ t ∈ (Call.append msgs).instants, InYears t) : ∀ msg ∈ msgs, DatedMessage msg := by
  intro msg hm
  have hyears : ∀ t ∈ [msg.createdAt, msg.updatedAt, msg.availableAt], InYears t :=
    fun t ht => h t (List.mem_flatMap.mpr ⟨msg, hm, ht⟩)
  exact ⟨hyears _ (by simp), hyears _ (by simp), hyears _ (by simp)⟩

theorem readable_step {db db' : Db} (h : ∀ row ∈ db.messages, Readable json row)
    (hs : TableStep json c db db') (hc : ∀ t ∈ c.instants, InYears t) :
    ∀ row ∈ db'.messages, Readable json row := by
  intro row hr
  cases hs with
  | inserted hcall hi hrows hseq =>
    subst hcall
    rw [hrows] at hr
    rcases List.mem_append.mp hr with hr | hr
    · exact h row hr
    · obtain ⟨msg, hm, n, rfl⟩ := exists_of_mem_insertedRows hr
      exact readable_insertedRow (datedMessage_of_append hc msg hm) n
  | removed hrows hseq => exact h row (hrows.subset hr)
  | rewritten hrows hseq =>
    obtain ⟨i, hi, rfl⟩ := List.getElem_of_mem hr
    have hi' : i < db.messages.length := hrows.length_eq ▸ hi
    exact (h _ (List.getElem_mem hi')).rewritten (hrows.get hi' hi) hc

/-- The keys of the table are in order after every run. -/
theorem after_numbered (json : JsonMaps) (cs : List Call) :
    Numbered (after (call json) Database.new cs).toDb := by
  induction cs using List.reverseRecOn with
  | nil => exact new_numbered
  | append_singleton cs c ih =>
    rw [after_append, after_singleton]
    exact ih.step (call_step _ c)

/-- Every row can be read back after a run of calls with such instants. -/
theorem after_readable (json : JsonMaps) {cs : List Call}
    (hc : ∀ c ∈ cs, ∀ t ∈ c.instants, InYears t) :
    ∀ row ∈ (after (call json) Database.new cs).messages, Readable json row := by
  induction cs using List.reverseRecOn with
  | nil => exact fun row hr => absurd hr List.not_mem_nil
  | append_singleton cs c ih =>
    rw [after_append, after_singleton]
    exact readable_step (ih (fun d hd => hc d (by simp [hd]))) (call_step _ c)
      (hc c (by simp))

end Sqlite
end RabbitmqLite.Storage
