import RabbitmqLite.Collections.SortedPrefix
import RabbitmqLite.Storage.Memory.Index
import RabbitmqLite.Storage.Sqlite.Agreement
import RabbitmqLite.Storage.Sqlite.MessageTable

/-! # Appending a batch, in both drivers

The in-memory driver checks a batch against the store and then inserts it. The
SQLite driver inserts row by row, and the unique key of the table decides. Both
store a batch of new messages whole and in order, and refuse one that names a
stored id. Only the table also notices an id that occurs twice in the batch.
-/

namespace RabbitmqLite.Storage
open Broker Collections Atomic Sql

/-! ## In memory -/

namespace Memory

/-- A batch is stored whole, behind everything that was there, exactly if its ids are new and
distinct; otherwise it is refused and nothing has changed. -/
structure AppendsExactly (s : Store) (msgs : List Message) : Prop where
  accepted : (s.append msgs).1 = .ok () ↔
    (msgs.map Message.id).Nodup ∧ ∀ msg ∈ msgs, s.messages.lookup msg.id = none
  stored : (s.append msgs).1 = .ok () → ∀ id, (s.append msgs).2.messages.lookup id =
    match msgs.find? (fun msg => msg.id = id) with
    | some msg => some (unleased msg.clone)
    | none => s.messages.lookup id
  line : (s.append msgs).1 = .ok () → ∀ q, (s.append msgs).2.order q =
    s.order q ++ (msgs.filter (fun msg => msg.queue = q)).map Message.id
  once : (s.append msgs).1 = .ok () → ∀ q, ((s.append msgs).2.order q).Nodup
  refused : (s.append msgs).1 ≠ .ok () → s.append msgs = (.error .conflict, s)

theorem Indexed.appendsExactly_of_fresh {s : Store} (h : Indexed s) (ho : s.closed = false)
    {msgs : List Message} (hn : (msgs.map Message.id).Nodup)
    (hfresh : ∀ msg ∈ msgs, s.messages.lookup msg.id = none) : AppendsExactly s msgs := by
  have hindexed := h.append hn
  have heq := append_of_fresh ho hfresh
  refine ⟨⟨fun _ => ⟨hn, hfresh⟩, fun _ => by rw [heq]⟩, fun _ id => ?_, fun _ q => ?_,
    fun _ => hindexed.nodup, fun hr => absurd (by rw [heq]) hr⟩
  · rw [heq]
    cases hf : msgs.find? (fun msg => msg.id = id) with
    | none =>
      apply storeAll_of_notMem
      simpa using hf
    | some msg =>
      have hid : msg.id = id := by simpa using List.find?_some hf
      rw [← hid]
      exact storeAll_of_nodup hn (List.mem_of_find?_eq_some hf)
  · rw [heq]
    exact appendOrder_apply s.order msgs q

theorem appendsExactly_of_stored {s : Store} (ho : s.closed = false) {msgs : List Message}
    (hstored : ∃ msg ∈ msgs, s.messages.lookup msg.id ≠ none) : AppendsExactly s msgs := by
  obtain ⟨msg, hm, hl⟩ := hstored
  have heq := append_of_stored ho hm hl
  have hrefused : (s.append msgs).1 ≠ .ok () := by simp [heq]
  exact ⟨⟨fun hr => absurd hr hrefused, fun hr => absurd (hr.2 msg hm) hl⟩,
    fun hr => absurd hr hrefused, fun hr => absurd hr hrefused, fun hr => absurd hr hrefused,
    fun _ => heq⟩

/-- The in-memory driver serves exactly the batches that name no id twice or name a stored one. -/
theorem Indexed.appendsExactly_iff {s : Store} (h : Indexed s) (ho : s.closed = false)
    {msgs : List Message} :
    AppendsExactly s msgs ↔
      (msgs.map Message.id).Nodup ∨ ∃ msg ∈ msgs, s.messages.lookup msg.id ≠ none := by
  by_cases hstored : ∃ msg ∈ msgs, s.messages.lookup msg.id ≠ none
  · exact iff_of_true (appendsExactly_of_stored ho hstored) (Or.inr hstored)
  · have hfresh : ∀ msg ∈ msgs, s.messages.lookup msg.id = none := by simpa using hstored
    constructor
    · intro hexact
      exact Or.inl (hexact.accepted.mp (by rw [append_of_fresh ho hfresh])).1
    · intro hn
      exact h.appendsExactly_of_fresh ho (hn.resolve_right hstored) hfresh

end Memory

/-! ## In SQLite -/

namespace Sqlite
variable {json : JsonMaps}

/-- A message without payload comes only after one that the table refuses. -/
def Filled (rows : List Row) (msgs : List Message) : Prop :=
  ∀ before msg later, msgs = before ++ msg :: later → msg.payload = none → ¬ Insertable rows before

theorem filled_cons (json : JsonMaps) (seq : ℕ) {rows : List Row} {msg : Message}
    {msgs : List Message} :
    Filled rows (msg :: msgs) ↔
      msg.payload ≠ none ∧
        (msg.id ∉ rows.map Row.id → Filled (rows ++ [insertedRow json seq msg]) msgs) := by
  constructor
  · intro h
    constructor
    · intro hpayload
      exact h [] msg msgs rfl hpayload ⟨List.nodup_nil, by simp⟩
    · intro hnew before other later hmsgs hpayload hi
      rw [hmsgs] at h
      exact h (msg :: before) other later rfl hpayload ((insertable_cons json seq).mpr ⟨hnew, hi⟩)
  · rintro ⟨hpayload, hrest⟩ before other later hmsgs hother hi
    cases before with
    | nil => exact hpayload ((List.cons.inj hmsgs).1 ▸ hother)
    | cons first before =>
      obtain ⟨rfl, hrest'⟩ := List.cons.inj hmsgs
      obtain ⟨hnew, hi⟩ := (insertable_cons json seq).mp hi
      exact hrest hnew before other later hrest' hother hi

theorem Filled.payload_ne_none {rows : List Row} {msgs : List Message} (h : Filled rows msgs)
    (hi : Insertable rows msgs) {msg : Message} (hm : msg ∈ msgs) : msg.payload ≠ none := by
  obtain ⟨before, later, rfl⟩ := List.append_of_mem hm
  intro hpayload
  refine h before msg later rfl hpayload ⟨?_, fun other ho => hi.2 other (by simp [ho])⟩
  exact hi.1.sublist ((List.sublist_append_left before (msg :: later)).map Message.id)

/-- The other reason to refuse a batch is a missing payload. -/
theorem insertLoop_eq_notNull {msgs : List Message} {rows : List Row} {seq : ℕ} {e : Error}
    (h : insertLoop json msgs rows seq = .error e) : e = .conflict ↔ Filled rows msgs := by
  induction msgs generalizing rows seq with
  | nil => cases h
  | cons msg msgs ih =>
    have hid : (insertedRow json seq msg).id = msg.id := rfl
    rw [insertLoop, insertUnique_eq, hid] at h
    rw [filled_cons json seq]
    split_ifs at h with hpayload hstored
    · cases h
      simp [hpayload]
    · cases h
      simp [hpayload, hstored]
    · rw [ih h]
      simp [hpayload, hstored]

/-! ### The line of a queue -/

/-- The states in which `Claim` selects a row. -/
def Waiting (s : State) : Prop := s = .queued ∨ s = .retrying

instance : DecidablePred Waiting := fun _ => inferInstanceAs (Decidable (_ ∨ _))

/-- The rows of a queue that wait for their delivery, as `Claim` orders them. -/
def queueRows (rows : List Row) (q : String) : List Row :=
  orderBy deliveredBefore (rows.filter (fun row => row.queue = q ∧ Waiting row.state))

theorem mem_queueRows {rows : List Row} {q : String} {row : Row} :
    row ∈ queueRows rows q ↔ row ∈ rows ∧ row.queue = q ∧ Waiting row.state := by
  rw [queueRows, orderBy, List.mem_insertionSort, List.mem_filter, decide_eq_true_eq]

/-- All messages of a batch wait, and none of them became available before an earlier one of the
batch or a waiting one of the table that is in the same queue. -/
structure InTurn (json : JsonMaps) (rows : List Row) (msgs : List Message) : Prop where
  waiting : ∀ msg ∈ msgs, Waiting msg.state
  among : msgs.Pairwise (fun a b => a.queue = b.queue → a.availableAt ≤ b.availableAt)
  behind : ∀ row ∈ rows, ∀ old, scanMessage json row = .ok old → Waiting old.state →
    ∀ msg ∈ msgs, old.queue = msg.queue → old.availableAt ≤ msg.availableAt

/-- The same of the table: a batch becomes the last rows of the table and of its queues. -/
structure AppendsExactly (json : JsonMaps) (db : Database) (msgs : List Message) : Prop where
  accepted : (call json (.append msgs) db).1 = .ok () ↔
    (msgs.map Message.id).Nodup ∧ ∀ msg ∈ msgs, msg.id ∉ db.messages.map Row.id
  stored : (call json (.append msgs) db).1 = .ok () →
    (call json (.append msgs) db).2.messages = db.messages ++ insertedRows json db.nextSeq msgs
  readBack : (call json (.append msgs) db).1 = .ok () → ∀ msg ∈ msgs,
    (call json (.append msgs) db).2.loadMessage json msg.id = .ok msg.clone
  once : (call json (.append msgs) db).1 = .ok () →
    ((call json (.append msgs) db).2.messages.map Row.id).Nodup
  line : (call json (.append msgs) db).1 = .ok () → ∀ q,
    queueRows (call json (.append msgs) db).2.messages q =
      queueRows db.messages q ++
        (insertedRows json db.nextSeq msgs).filter (fun row => row.queue = q)
  refused : (call json (.append msgs) db).1 ≠ .ok () →
    call json (.append msgs) db = (.error .conflict, db)

/-- The rows of a batch come in turn as far as the texts of the columns tell. -/
structure RowsInTurn (rows new : List Row) : Prop where
  waiting : ∀ row ∈ new, Waiting row.state
  among : new.Pairwise (fun a b => a.queue = b.queue → a.availableAt ≤ b.availableAt)
  behind : ∀ a ∈ rows, Waiting a.state → ∀ b ∈ new, a.queue = b.queue →
    a.availableAt ≤ b.availableAt

theorem forall_mem_insertedRows {P : Row → Prop} {Q : Message → Prop} {seq : ℕ}
    {msgs : List Message} (h : ∀ msg ∈ msgs, ∀ n, P (insertedRow json n msg) ↔ Q msg) :
    (∀ row ∈ insertedRows json seq msgs, P row) ↔ ∀ msg ∈ msgs, Q msg := by
  induction msgs generalizing seq with
  | nil => simp [insertedRows]
  | cons msg msgs ih =>
    rw [List.forall_mem_cons] at h
    rw [insertedRows_cons, List.forall_mem_cons, List.forall_mem_cons, h.1, ih h.2]

theorem pairwise_insertedRows {R : Row → Row → Prop} {S : Message → Message → Prop} {seq : ℕ}
    {msgs : List Message} (h : ∀ a ∈ msgs, ∀ b ∈ msgs, ∀ m n,
      R (insertedRow json m a) (insertedRow json n b) ↔ S a b) :
    (insertedRows json seq msgs).Pairwise R ↔ msgs.Pairwise S := by
  induction msgs generalizing seq with
  | nil => simp [insertedRows]
  | cons msg msgs ih =>
    rw [insertedRows_cons, List.pairwise_cons, List.pairwise_cons]
    refine and_congr (forall_mem_insertedRows (fun other ho n => ?_)) (ih (fun a ha b hb => ?_))
    · exact h msg List.mem_cons_self other (List.mem_cons_of_mem msg ho) seq n
    · exact h a (List.mem_cons_of_mem msg ha) b (List.mem_cons_of_mem msg hb)

/-- If all instants lie in the years 0 to 9999, the texts tell the same as the instants. -/
theorem rowsInTurn_iff {rows : List Row} {msgs : List Message} {seq : ℕ}
    (hrows : ∀ row ∈ rows, Readable json row) (hmsgs : ∀ msg ∈ msgs, DatedMessage msg) :
    RowsInTurn rows (insertedRows json seq msgs) ↔ InTurn json rows msgs := by
  have hwaiting : (∀ row ∈ insertedRows json seq msgs, Waiting row.state) ↔
      ∀ msg ∈ msgs, Waiting msg.state := forall_mem_insertedRows (fun _ _ _ => Iff.rfl)
  have hamong : (insertedRows json seq msgs).Pairwise
        (fun a b => a.queue = b.queue → a.availableAt ≤ b.availableAt) ↔
      msgs.Pairwise (fun a b => a.queue = b.queue → a.availableAt ≤ b.availableAt) := by
    apply pairwise_insertedRows
    intro a ha b hb m n
    exact imp_congr_right (fun _ =>
      formatTime_le_formatTime (hmsgs a ha).available (hmsgs b hb).available)
  have hbehind (row : Row) (old : Message) (hread : ReadAs json row old) :
      (∀ b ∈ insertedRows json seq msgs, row.queue = b.queue → row.availableAt ≤ b.availableAt) ↔
        ∀ msg ∈ msgs, old.queue = msg.queue → old.availableAt ≤ msg.availableAt := by
    apply forall_mem_insertedRows
    intro msg hm n
    rw [hread.queue, hread.available]
    exact imp_congr_right (fun _ => formatTime_le_formatTime hread.inYears (hmsgs msg hm).available)
  constructor
  · intro h
    refine ⟨hwaiting.mp h.waiting, hamong.mp h.among, fun row hr old hold hw => ?_⟩
    obtain ⟨msg, hread⟩ := (hrows row hr).readAs
    obtain rfl := Except.ok.inj (hread.scanned.symm.trans hold)
    exact (hbehind row msg hread).mp (h.behind row hr (hread.state ▸ hw))
  · intro h
    refine ⟨hwaiting.mpr h.waiting, hamong.mpr h.among, fun row hr hw => ?_⟩
    obtain ⟨old, hread⟩ := (hrows row hr).readAs
    exact (hbehind row old hread).mpr (h.behind row hr old hread.scanned (hread.state ▸ hw))

/-! ### The batch in its queues -/

theorem mem_insertedRows {row : Row} {seq : ℕ} {msgs : List Message}
    (h : row ∈ insertedRows json seq msgs) : seq ≤ row.seq := by
  have hseq : row.seq ∈ (insertedRows json seq msgs).map Row.seq := List.mem_map_of_mem h
  rw [map_seq_insertedRows] at hseq
  exact (List.mem_range'_1.mp hseq).1

theorem deliveredBefore_iff {a b : Row} :
    deliveredBefore a b ↔ toLex (a.availableAt, a.seq) ≤ toLex (b.availableAt, b.seq) := by
  rw [Prod.Lex.toLex_le_toLex]
  rfl

instance : Std.Total deliveredBefore :=
  ⟨fun _ _ => by simpa only [deliveredBefore_iff] using le_total _ _⟩

instance : IsTrans Row deliveredBefore :=
  ⟨fun _ _ _ hab hbc => deliveredBefore_iff.mpr
    ((deliveredBefore_iff.mp hab).trans (deliveredBefore_iff.mp hbc))⟩

theorem deliveredBefore_of_le {a b : Row} (ha : a.availableAt ≤ b.availableAt)
    (hs : a.seq ≤ b.seq) : deliveredBefore a b := by
  rcases lt_or_eq_of_le ha with hlt | heq
  · exact Or.inl hlt
  · exact Or.inr ⟨heq, hs⟩

/-- What comes in turn is delivered after everything that was there, in the order of the batch. -/
theorem Numbered.queueRows_append {db : Db} (h : Numbered db) {msgs : List Message}
    (ht : RowsInTurn db.messages (insertedRows json db.nextSeq msgs)) (q : String) :
    queueRows (db.messages ++ insertedRows json db.nextSeq msgs) q =
      queueRows db.messages q ++
        (insertedRows json db.nextSeq msgs).filter (fun row => row.queue = q) := by
  have hseq : (insertedRows json db.nextSeq msgs).Pairwise (fun a b => a.seq < b.seq) := by
    rw [← List.pairwise_map, map_seq_insertedRows]
    exact List.pairwise_lt_range'
  have hwaiting : (insertedRows json db.nextSeq msgs).filter
      (fun row => row.queue = q ∧ Waiting row.state) =
        (insertedRows json db.nextSeq msgs).filter (fun row => row.queue = q) :=
    List.filter_congr (fun row hr => by simp [ht.waiting row hr])
  unfold queueRows orderBy
  rw [List.filter_append, hwaiting]
  apply insertionSort_append
  · have hboth := (ht.among.and hseq).filter (fun row => decide (row.queue = q))
    refine hboth.imp_of_mem (fun ha hb hab => ?_)
    have hqa : _ = q := of_decide_eq_true (List.mem_filter.mp ha).2
    have hqb : _ = q := of_decide_eq_true (List.mem_filter.mp hb).2
    exact deliveredBefore_of_le (hab.1 (hqa.trans hqb.symm)) hab.2.le
  · intro a ha b hb
    obtain ⟨ha, hqa⟩ := List.mem_filter.mp ha
    obtain ⟨hb, hqb⟩ := List.mem_filter.mp hb
    obtain ⟨hqa, hwa⟩ := of_decide_eq_true hqa
    have hlt := h.fresh a.seq (List.mem_map_of_mem ha)
    have hle := mem_insertedRows hb
    apply deliveredBefore_of_le
    · exact ht.behind a ha hwa b hb (hqa.trans (of_decide_eq_true hqb).symm)
    · omega

/-- Only what comes in turn is delivered last. -/
theorem rowsInTurn_of_queueRows {rows new : List Row}
    (h : ∀ q, queueRows (rows ++ new) q =
      queueRows rows q ++ new.filter (fun row => row.queue = q)) : RowsInTurn rows new := by
  have hsorted (q : String) := List.pairwise_insertionSort deliveredBefore
    ((rows ++ new).filter (fun row => decide (row.queue = q ∧ Waiting row.state)))
  have hline (q : String) :
      (queueRows rows q ++ new.filter (fun row => row.queue = q)).Pairwise deliveredBefore :=
    h q ▸ hsorted q
  simp only [List.pairwise_append] at hline
  refine ⟨fun row hr => ?_, ?_, fun a ha hw b hb hq => ?_⟩
  · have hmem : row ∈ queueRows (rows ++ new) row.queue := by
      rw [h]
      exact List.mem_append_right _ (List.mem_filter.mpr ⟨hr, by simp⟩)
    exact (mem_queueRows.mp hmem).2.2
  · refine List.pairwise_iff_forall_sublist.mpr (fun {a b} hab hq => ?_)
    have hkept := hab.filter (fun row => decide (row.queue = b.queue))
    rw [List.filter_eq_self.mpr (by simp [hq])] at hkept
    have hle := List.pairwise_iff_forall_sublist.mp (hline b.queue).2.1 hkept
    exact hle.elim le_of_lt (fun hsame => hsame.1.le)
  · have hle := (hline b.queue).2.2 a (mem_queueRows.mpr ⟨ha, hq, hw⟩) b
      (List.mem_filter.mpr ⟨hb, by simp⟩)
    exact hle.elim le_of_lt (fun hsame => hsame.1.le)

/-- What was inserted is read back. -/
theorem Numbered.loadMessage_append {db : Db} (h : Numbered db) {msgs : List Message}
    (hi : Insertable db.messages msgs) (hmsgs : ∀ msg ∈ msgs, DatedMessage msg) {msg : Message}
    (hm : msg ∈ msgs) {queues : List QueueRow} {seq : ℕ} :
    Db.loadMessage json ⟨queues, db.messages ++ insertedRows json db.nextSeq msgs, seq⟩ msg.id =
      .ok msg.clone := by
  obtain ⟨n, hn⟩ := exists_insertedRow_mem json db.nextSeq hm
  have hnodup : ((db.messages ++ insertedRows json db.nextSeq msgs).map Row.id).Nodup :=
    (h.append hi).distinct
  have hrow : byKey Row.id msg.id (db.messages ++ insertedRows json db.nextSeq msgs) =
      some (insertedRow json n msg) :=
    (byKey_eq_some hnodup).mpr ⟨List.mem_append_right _ hn, rfl⟩
  rw [Db.loadMessage]
  dsimp only
  rw [hrow]
  exact scanMessage_insertedRow (hmsgs msg hm) n

theorem Numbered.appendsExactly_of_insertable {db : Database} (h : Numbered db.toDb)
    (ho : db.closed = false) {msgs : List Message} (hi : Insertable db.messages msgs)
    (hp : Filled db.messages msgs) (hmsgs : ∀ msg ∈ msgs, DatedMessage msg) :
    AppendsExactly json db msgs ↔ RowsInTurn db.messages (insertedRows json db.nextSeq msgs) := by
  have heq : db.toDb.append json msgs = (.ok (), { db.toDb with
      messages := db.messages ++ insertedRows json db.nextSeq msgs
      nextSeq := db.nextSeq + msgs.length }) := by
    rw [Db.append, insertLoop_eq_ok.mpr ⟨fun msg hm => hp.payload_ne_none hi hm, hi, rfl⟩]
  have hcall : call json (.append msgs) db = onMessages db (db.toDb.append json msgs) :=
    call_of_open json ho _
  rw [heq] at hcall
  have hok : (call json (.append msgs) db).1 = .ok () := by rw [hcall]; rfl
  have hrows : (call json (.append msgs) db).2.messages =
      db.messages ++ insertedRows json db.nextSeq msgs := by rw [hcall]; rfl
  constructor
  · intro hexact
    apply rowsInTurn_of_queueRows
    rw [← hrows]
    exact hexact.line hok
  · intro ht
    refine ⟨⟨fun _ => hi, fun _ => hok⟩, fun _ => hrows, fun _ msg hm => ?_, fun _ => ?_,
      fun _ q => ?_, fun hr => absurd hok hr⟩
    · rw [hcall]
      exact h.loadMessage_append hi hmsgs hm
    · rw [hcall]
      exact (h.append hi).distinct
    · rw [hrows]
      exact h.queueRows_append ht q

theorem appendsExactly_of_refused {db : Database} (ho : db.closed = false) {msgs : List Message}
    {e : Error} (hloop : insertLoop json msgs db.messages db.nextSeq = .error e) :
    AppendsExactly json db msgs ↔ ¬ Insertable db.messages msgs ∧ Filled db.messages msgs := by
  have hcall : call json (.append msgs) db = (.error e, db) := by
    rw [call_of_open json ho]
    simp [serve, onMessages, Db.append, hloop]
  have hrefused : (call json (.append msgs) db).1 ≠ .ok () := by simp [hcall]
  constructor
  · intro hexact
    have hconflict := hexact.refused hrefused
    rw [hcall] at hconflict
    refine ⟨fun hi => hrefused (hexact.accepted.mpr hi), ?_⟩
    exact (insertLoop_eq_notNull hloop).mp (Except.error.inj (Prod.mk.inj hconflict).1)
  · rintro ⟨hi, hp⟩
    rw [(insertLoop_eq_notNull hloop).mpr hp] at hcall
    exact ⟨⟨fun hr => absurd hr hrefused, fun hr => absurd hr hi⟩, fun hr => absurd hr hrefused,
      fun hr => absurd hr hrefused, fun hr => absurd hr hrefused, fun hr => absurd hr hrefused,
      fun _ => hcall⟩

/-- The table serves exactly the batches that reach no missing payload and, if they are stored,
come in turn. -/
theorem Numbered.appendsExactly_iff {db : Database} (h : Numbered db.toDb) (ho : db.closed = false)
    (hrows : ∀ row ∈ db.messages, Readable json row) {msgs : List Message}
    (hmsgs : ∀ msg ∈ msgs, DatedMessage msg) :
    AppendsExactly json db msgs ↔ Filled db.messages msgs ∧
      (Insertable db.messages msgs → InTurn json db.messages msgs) := by
  rw [← rowsInTurn_iff hrows hmsgs]
  cases hloop : insertLoop json msgs db.messages db.nextSeq with
  | error e =>
    rw [appendsExactly_of_refused ho hloop]
    constructor
    · rintro ⟨hi, hp⟩
      exact ⟨hp, fun hr => absurd hr hi⟩
    · rintro ⟨hp, -⟩
      refine ⟨fun hi => ?_, hp⟩
      have hdone := hloop.symm.trans
        (insertLoop_eq_ok.mpr ⟨fun msg hm => hp.payload_ne_none hi hm, hi, rfl⟩)
      cases hdone
  | ok done =>
    obtain ⟨hpayload, hi, -⟩ := insertLoop_eq_ok.mp hloop
    have hp : Filled db.messages msgs := by
      rintro before msg later rfl hnull -
      exact hpayload msg (by simp) hnull
    rw [h.appendsExactly_of_insertable ho hi hp hmsgs]
    exact ⟨fun ht => ⟨hp, fun _ => ht⟩, fun ht => ht.2 hi⟩

end Sqlite

/-! ## Both -/

/-- After every run, both drivers append a batch whole and last or not at all: the in-memory one
exactly if the batch names no id twice or a stored one, the SQLite one, for instants in the years 0
to 9999, exactly if it comes upon no missing payload and the batch, if it is stored, comes in
turn. -/
theorem appends_exactly_iff (json : Sqlite.JsonMaps) (cs : List Call) (msgs : List Message)
    (hn : ∀ c ∈ cs, c.appendedIds.Nodup) :
    let s := after Memory.exec Memory.Store.new cs
    let db := after (Sqlite.call json) Sqlite.Database.new cs
    (s.closed = false → (Memory.AppendsExactly s msgs ↔
      (msgs.map Message.id).Nodup ∨ ∃ msg ∈ msgs, s.messages.lookup msg.id ≠ none)) ∧
    (db.closed = false → (∀ c ∈ .append msgs :: cs, ∀ t ∈ c.instants, Sqlite.InYears t) →
      (Sqlite.AppendsExactly json db msgs ↔
        Sqlite.Filled db.messages msgs ∧
          (Sqlite.Insertable db.messages msgs → Sqlite.InTurn json db.messages msgs))) := by
  intro s db
  constructor
  · intro ho
    exact (Memory.after_indexed hn).appendsExactly_iff ho
  · intro ho hyears
    rw [List.forall_mem_cons] at hyears
    exact (Sqlite.after_numbered json cs).appendsExactly_iff ho
      (Sqlite.after_readable json hyears.2) (Sqlite.datedMessage_of_append hyears.1)

/-- An order is given back for a late retry, claimed again and acknowledged. -/
def lateRetry : List Call :=
  [.append [Memory.arrival "a" "orders" 1], .claim ⟨"orders", "c", 1, 30, 2⟩,
    .scheduleRetry ⟨"a", 1, "busy", 9, 3⟩, .claim ⟨"orders", "c", 1, 30, 10⟩, .acknowledge "a" 11]

theorem appends_exactly_iff_secondOrder :
    Memory.AppendsExactly (after Memory.exec Memory.Store.new lateRetry)
        [Memory.arrival "b" "orders" 5] ∧
      Sqlite.AppendsExactly Sqlite.tally
        (after (Sqlite.call Sqlite.tally) Sqlite.Database.new lateRetry)
        [Memory.arrival "b" "orders" 5] := by
  have h := appends_exactly_iff Sqlite.tally lateRetry [Memory.arrival "b" "orders" 5] (by decide)
  have hsettled : ∀ row ∈ (after (Sqlite.call Sqlite.tally) Sqlite.Database.new lateRetry).messages,
      ¬ Sqlite.Waiting row.state := by decide +kernel
  refine ⟨(h.1 (by decide +kernel)).mpr (Or.inl (by decide)),
    (h.2 (by decide +kernel) (by decide)).mpr ⟨?_, fun _ => ⟨by decide, by decide, ?_⟩⟩⟩
  · intro before msg later hmsgs hpayload
    have hmem : msg ∈ [Memory.arrival "b" "orders" 5] := hmsgs ▸ by simp
    rw [List.mem_singleton.mp hmem] at hpayload
    exact absurd hpayload (by decide)
  · intro row hr old hold hw
    exact absurd (Sqlite.state_of_scanMessage hold ▸ hw) (hsettled row hr)

/-- The in-memory driver accepts a batch that names one id twice, and lists it twice. -/
theorem appends_exactly_iff_repeatedId :
    (Memory.Store.new.append
        [Memory.arrival "a" "orders" 1, Memory.arrival "a" "orders" 2]).1 = .ok () ∧
      (Memory.Store.new.append
        [Memory.arrival "a" "orders" 1, Memory.arrival "a" "orders" 2]).2.order "orders" =
          ["a", "a"] := by
  constructor <;> decide +kernel

end RabbitmqLite.Storage
