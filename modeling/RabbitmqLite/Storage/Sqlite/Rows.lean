import RabbitmqLite.Storage.Memory.Reference
import RabbitmqLite.Storage.Sqlite.Store

/-! # Rows that encode records

A table of messages represents a map of records if it has exactly one row for
each record and the row encodes it. Insertions, updates and deletions of rows
follow the changes of the map.
-/

namespace RabbitmqLite.Storage.Sqlite
open Collections Sql
open Memory (Record Messages)

variable {json : JsonMaps}

/-- The row that encodes a record; NULL stands for the unset lease. -/
def encodeRow (json : JsonMaps) (seq : ℕ) (entry : Record) : Row :=
  { insertedRow json seq entry.msg with
    leaseExpiresAt := if entry.lease = zeroTime then none else some (formatTime entry.lease)
    consumer := entry.consumer }

/-- What a table holds without loss: a record with instants of the years 0 to 9999 and a payload
that is nil if it is empty. -/
structure Regular (entry : Record) : Prop where
  copied : Payload.copied entry.msg.payload = entry.msg.payload
  created : InYears entry.msg.createdAt
  updated : InYears entry.msg.updatedAt
  available : InYears entry.msg.availableAt
  lease : InYears entry.lease

theorem scanMessage_encodeRow {entry : Record} (h : Regular entry) (seq : ℕ) :
    scanMessage json (encodeRow json seq entry) = .ok entry.msg := by
  simp only [scanMessage, encodeRow, insertedRow, decodeHeaders_encodeHeaders,
    parseTime_formatTime h.created, parseTime_formatTime h.updated,
    parseTime_formatTime h.available, Payload.copied_some_bytes, h.copied]

/-- The table represents the map. -/
structure RowsOf (json : JsonMaps) (m : Messages) (rows : List Row) : Prop where
  nodup : (rows.map Row.id).Nodup
  encodes : ∀ row ∈ rows, ∃ entry, m.lookup row.id = some entry ∧ row = encodeRow json row.seq entry
  stored : ∀ id entry, m.lookup id = some entry → id ∈ rows.map Row.id
  regular : ∀ id entry, m.lookup id = some entry → Regular entry

/-- The columns of a row that the selections look at. -/
theorem RowsOf.columns {m : Messages} {rows : List Row} (h : RowsOf json m rows) {row : Row}
    (hr : row ∈ rows) : ∃ entry, m.lookup row.id = some entry ∧ row.queue = entry.msg.queue ∧
      row.state = entry.msg.state ∧ row.availableAt = formatTime entry.msg.availableAt := by
  obtain ⟨entry, hl, henc⟩ := h.encodes row hr
  exact ⟨entry, hl, congrArg Row.queue henc, congrArg Row.state henc,
    congrArg Row.availableAt henc⟩

theorem RowsOf.mem_ids {m : Messages} {rows : List Row} (h : RowsOf json m rows) {id : String} :
    id ∈ rows.map Row.id ↔ ∃ entry, m.lookup id = some entry := by
  constructor
  · intro hm
    obtain ⟨row, hr, rfl⟩ := List.mem_map.mp hm
    obtain ⟨entry, hl, -⟩ := h.encodes row hr
    exact ⟨entry, hl⟩
  · rintro ⟨entry, hl⟩
    exact h.stored id entry hl

theorem RowsOf.mem {m : Messages} {rows : List Row} (h : RowsOf json m rows) {id : String}
    {entry : Record} (hl : m.lookup id = some entry) :
    ∃ seq, encodeRow json seq entry ∈ rows ∧ entry.msg.id = id := by
  obtain ⟨row, hr, rfl⟩ := List.mem_map.mp (h.stored id entry hl)
  obtain ⟨e, he, hrow⟩ := h.encodes row hr
  rw [hl] at he
  obtain rfl := Option.some.inj he
  exact ⟨row.seq, hrow ▸ hr, (congrArg Row.id hrow).symm⟩

theorem RowsOf.keyed {m : Messages} {rows : List Row} (h : RowsOf json m rows) {id : String}
    {entry : Record} (hl : m.lookup id = some entry) : entry.msg.id = id :=
  let ⟨_, _, hid⟩ := h.mem hl
  hid

/-- Loading a message finds the record of the map. -/
theorem RowsOf.loadMessage {m : Messages} {db : Db} (h : RowsOf json m db.messages) (id : String) :
    db.loadMessage json id =
      match m.lookup id with
      | none => .error .notFound
      | some entry => .ok entry.msg := by
  unfold Db.loadMessage
  cases hl : m.lookup id with
  | none =>
    have hnone : byKey Row.id id db.messages = none := by
      rw [byKey_eq_none, h.mem_ids]
      simp [hl]
    rw [hnone]
  | some entry =>
    obtain ⟨seq, hm, hid⟩ := h.mem hl
    have hsome : byKey Row.id id db.messages = some (encodeRow json seq entry) :=
      (byKey_eq_some h.nodup).mpr ⟨hm, hid⟩
    rw [hsome]
    exact scanMessage_encodeRow (h.regular id entry hl) seq

def storedMessage (m : Messages) (id : String) : Option Message := (m.lookup id).map Record.msg

/-- Scanning rows of the table yields the stored messages. -/
theorem RowsOf.scanMessages {m : Messages} {rows : List Row} (h : RowsOf json m rows)
    {selected : List Row} (hs : ∀ row ∈ selected, row ∈ rows) :
    Sqlite.scanMessages json selected =
      .ok ((selected.map Row.id).filterMap (storedMessage m)) := by
  induction selected with
  | nil => rfl
  | cons row selected ih =>
    obtain ⟨entry, hl, henc⟩ := h.encodes row (hs row List.mem_cons_self)
    have hscan : scanMessage json row = .ok entry.msg := by
      rw [henc]
      exact scanMessage_encodeRow (h.regular row.id entry hl) row.seq
    rw [Sqlite.scanMessages, scanRows, hscan]
    rw [← Sqlite.scanMessages, ih (fun other ho => hs other (List.mem_cons_of_mem row ho)),
      List.map_cons, List.filterMap_cons_some (b := entry.msg) (by simp [storedMessage, hl])]
    rfl

/-- A condition on rows that depends on the record selects by id. -/
theorem map_id_filter {rows : List Row} {cond : Row → Bool} (cond' : String → Bool)
    (h : ∀ row ∈ rows, cond row = cond' row.id) :
    (rows.filter cond).map Row.id = (rows.map Row.id).filter cond' := by
  rw [List.filter_map]
  congr 1
  exact List.filter_congr h

/-- An update of the row of one id keeps every column in which the new record agrees
with the old one. -/
theorem RowsOf.map_update {m : Messages} {rows : List Row} (h : RowsOf json m rows) {id : String}
    {entry entry' : Record} (hl : m.lookup id = some entry) {set : Row → Row}
    (hset : ∀ seq, set (encodeRow json seq entry) = encodeRow json seq entry') {κ : Type}
    {column : Row → κ}
    (hcol : ∀ seq, column (encodeRow json seq entry') = column (encodeRow json seq entry)) :
    (Sql.update (fun row => row.id = id) set rows).map column = rows.map column := by
  simp only [Sql.update, List.map_map]
  apply List.map_congr_left
  intro row hr
  simp only [Function.comp_apply, decide_eq_true_eq]
  split_ifs with hrow
  · obtain ⟨e, he, henc⟩ := h.encodes row hr
    rw [hrow, hl] at he
    obtain rfl := Option.some.inj he
    rw [henc, hset]
    exact hcol row.seq
  · rfl

/-- An update of the row of an id follows a change of its record. -/
theorem RowsOf.update {m : Messages} {rows : List Row} (h : RowsOf json m rows) {id : String}
    {entry entry' : Record} (hl : m.lookup id = some entry) (hd : Regular entry')
    (hid : entry'.msg.id = entry.msg.id) {set : Row → Row}
    (hset : ∀ seq, set (encodeRow json seq entry) = encodeRow json seq entry') :
    RowsOf json (m.insert id entry') (Sql.update (fun row => row.id = id) set rows) := by
  have hkey : entry'.msg.id = id := hid.trans (h.keyed hl)
  have hids : (Sql.update (fun row => row.id = id) set rows).map Row.id = rows.map Row.id :=
    h.map_update hl hset (fun _ => hid)
  refine ⟨by rw [hids]; exact h.nodup, fun row hr => ?_, fun x e hx => ?_, fun x e hx => ?_⟩
  · obtain ⟨old, ho, rfl⟩ := List.mem_map.mp hr
    obtain ⟨e, he, henc⟩ := h.encodes old ho
    by_cases hrow : old.id = id
    · rw [hrow, hl] at he
      obtain rfl := Option.some.inj he
      rw [if_pos (by simpa using hrow), henc, hset, lookup_insert_eq]
      exact ⟨entry', if_pos hkey, rfl⟩
    · rw [if_neg (by simpa using hrow), lookup_insert_eq, if_neg hrow]
      exact ⟨e, he, henc⟩
  · rw [hids]
    rw [lookup_insert_eq] at hx
    split_ifs at hx with hxid
    · subst hxid
      exact h.stored x entry hl
    · exact h.stored x e hx
  · rw [lookup_insert_eq] at hx
    split_ifs at hx with hxid
    · obtain rfl := Option.some.inj hx
      exact hd
    · exact h.regular x e hx

/-- A row for a new record. -/
theorem RowsOf.insert {m : Messages} {rows : List Row} (h : RowsOf json m rows) {entry : Record}
    (hfresh : m.lookup entry.msg.id = none) (hd : Regular entry) (seq : ℕ) :
    RowsOf json (m.insert entry.msg.id entry) (rows ++ [encodeRow json seq entry]) := by
  have hnew : entry.msg.id ∉ rows.map Row.id := by
    rw [h.mem_ids]
    simp [hfresh]
  refine ⟨?_, fun row hr => ?_, fun x e hx => ?_, fun x e hx => ?_⟩
  · rw [List.map_append, List.nodup_append]
    refine ⟨h.nodup, List.nodup_singleton _, ?_⟩
    rintro a ha b hb rfl
    obtain rfl : a = entry.msg.id := by simpa [encodeRow, insertedRow] using hb
    exact hnew ha
  · rcases List.mem_append.mp hr with hr | hr
    · obtain ⟨e, he, henc⟩ := h.encodes row hr
      have hne : row.id ≠ entry.msg.id := by
        intro hc
        rw [hc, hfresh] at he
        cases he
      rw [lookup_insert_eq, if_neg hne]
      exact ⟨e, he, henc⟩
    · obtain rfl := List.mem_singleton.mp hr
      refine ⟨entry, ?_, rfl⟩
      rw [lookup_insert_eq]
      exact if_pos rfl
  · rw [lookup_insert_eq] at hx
    rw [List.map_append, List.mem_append]
    split_ifs at hx with hxid
    · exact Or.inr (by simp [hxid, encodeRow, insertedRow])
    · exact Or.inl (h.stored x e hx)
  · rw [lookup_insert_eq] at hx
    split_ifs at hx with hxid
    · obtain rfl := Option.some.inj hx
      exact hd
    · exact h.regular x e hx

/-- Deleting rows follows the deletion of their records. -/
theorem RowsOf.delete {m m' : Messages} {rows : List Row} (h : RowsOf json m rows)
    {cond : Row → Bool} {doomed : String → Prop} [DecidablePred doomed]
    (hc : ∀ row ∈ rows, cond row = true ↔ doomed row.id)
    (hm : ∀ id, m'.lookup id = if doomed id then none else m.lookup id) :
    RowsOf json m' (Sql.delete cond rows) := by
  have hsub : (Sql.delete cond rows).Sublist rows := List.filter_sublist
  have hkeep : ∀ id e, m'.lookup id = some e → ¬ doomed id ∧ m.lookup id = some e := by
    intro id e he
    rw [hm] at he
    split_ifs at he with hd
    exact ⟨hd, he⟩
  refine ⟨h.nodup.sublist (hsub.map _), fun row hr => ?_, fun x e hx => ?_, fun x e hx => ?_⟩
  · obtain ⟨hr, hcond⟩ := List.mem_filter.mp hr
    obtain ⟨e, he, henc⟩ := h.encodes row hr
    have hd : ¬ doomed row.id := fun hd => by simp [(hc row hr).mpr hd] at hcond
    exact ⟨e, by rw [hm, if_neg hd, he], henc⟩
  · obtain ⟨hd, he⟩ := hkeep x e hx
    obtain ⟨row, hr, rfl⟩ := List.mem_map.mp (h.stored x e he)
    refine List.mem_map_of_mem (List.mem_filter.mpr ⟨hr, ?_⟩)
    have hcond : ¬ cond row = true := fun hcond => hd ((hc row hr).mp hcond)
    simpa using hcond
  · exact h.regular x e (hkeep x e hx).2

end RabbitmqLite.Storage.Sqlite
