import RabbitmqLite.Storage.Memory.Paging
import RabbitmqLite.Storage.Sqlite.Topology

/-! # Dead letters and history in both drivers

Both drivers keep the same archive: a list of dead letters that grows at its
end, in which letters are marked and removed, and a list of events that only
grows. The in-memory driver has the letters in a map and a slice and the events
by message, the SQLite driver has a row for each. Whatever else is done to the
stores, the methods on letters and events answer alike.
-/

namespace RabbitmqLite.Storage.Sqlite
open Collections Sql Atomic
open Memory (Archive Holds filed archiveAfter replayedOnce)

variable {json : JsonMaps}

/-! ## Rows -/

/-- A dead letter with a payload, whose instants lie in the years 0 to 9999. -/
structure RegularLetter (d : DeadLetter) : Prop where
  payload : d.payload.bytes ≠ []
  published : InYears d.publishedAt
  firstFailed : InYears d.firstFailedAt
  deadLettered : InYears d.deadLetteredAt
  replayed : InYears d.replayedAt

theorem scanDeadLetter_letterRow {d : DeadLetter} (h : RegularLetter d) :
    scanDeadLetter json (letterRow json d) = .ok d := by
  simp only [scanDeadLetter, letterRow, decodeHeaders_encodeHeaders,
    readTime_formatTime h.published, readTime_formatTime h.firstFailed,
    readTime_formatTime h.deadLettered,
    readTime_formatTime h.replayed, Payload.copied_some_bytes, Payload.copied_eq_self h.payload]
  rfl

theorem scanRows_letters {letters : List DeadLetter} (h : ∀ d ∈ letters, RegularLetter d) :
    scanRows (scanDeadLetter json) (letters.map (letterRow json)) = .ok letters := by
  rw [scanRows_eq_ok, List.forall₂_map_left_iff, List.forall₂_same]
  exact fun d hd => scanDeadLetter_letterRow (h d hd)

/-! ## The table of dead letters -/

/-- The table represents the archive, row by row. -/
structure Files (json : JsonMaps) (db : Database) (a : Archive) : Prop where
  rows : db.deadLetters = a.letters.map (letterRow json)
  regular : ∀ d ∈ a.letters, RegularLetter d
  nodup : (a.letters.map DeadLetter.id).Nodup

theorem new_files : Files json Database.new ⟨[], false⟩ := ⟨rfl, nofun, List.nodup_nil⟩

section Files
variable {db db' : Database} {a : Archive}

theorem Files.map_id (h : Files json db a) :
    db.deadLetters.map DeadLetterRow.id = a.letters.map DeadLetter.id := by
  rw [h.rows, List.map_map]
  rfl

theorem Files.same (h : Files json db a) (hs : db'.deadLetters = db.deadLetters) :
    Files json db' a :=
  ⟨hs.trans h.rows, h.regular, h.nodup⟩

theorem Files.count_eq_zero (h : Files json db a) (id : String) :
    db.deadLetters.countP (fun row => row.id = id) = 0 ↔ id ∉ a.letters.map DeadLetter.id := by
  rw [List.countP_eq_zero, ← h.map_id, List.mem_map]
  simp

theorem RegularLetter.filed {entry : DeadLetter} (h : RegularLetter entry) (newID : String) :
    RegularLetter (filed entry newID) := by
  unfold Memory.filed
  split_ifs
  · exact ⟨h.payload, h.published, h.firstFailed, h.deadLettered, h.replayed⟩
  · exact h

theorem saveDeadLetter_eq {entry : DeadLetter} {newID : String} (h : Files json db a)
    (hr : RegularLetter entry) :
    db.saveDeadLetter json entry newID =
      if (filed entry newID).id ∈ a.letters.map DeadLetter.id then (.error .conflict, db)
      else (.ok (), { db with
        deadLetters := db.deadLetters ++ [letterRow json (filed entry newID)] }) := by
  have hany : db.deadLetters.any (fun other =>
      decide (other.id = (letterRow json (filed entry newID)).id)) =
        decide ((filed entry newID).id ∈ a.letters.map DeadLetter.id) := by
    rw [← h.map_id, Bool.eq_iff_iff, List.any_eq_true, decide_eq_true_eq, List.mem_map]
    simp only [decide_eq_true_eq]
    rfl
  have hpayload : (filed entry newID).payload ≠ none :=
    Payload.ne_none (hr.filed newID).payload
  have hfiled : (if entry.id = "" then { entry with id := newID } else entry) =
      filed entry newID := rfl
  simp only [Database.saveDeadLetter, hfiled]
  rw [if_neg hpayload, insertUnique, hany]
  by_cases hmem : (filed entry newID).id ∈ a.letters.map DeadLetter.id
  · rw [if_pos hmem, decide_eq_true hmem]
    rfl
  · rw [if_neg hmem, decide_eq_false hmem]
    rfl

theorem Files.save (h : Files json db a) (ho : a.closed = false) {entry : DeadLetter}
    {newID : String} (hr : RegularLetter entry) :
    Files json (db.saveDeadLetter json entry newID).2 (a.take (.saveDeadLetter entry newID)) := by
  rw [saveDeadLetter_eq h hr, Archive.take, ho]
  simp only [Bool.false_eq_true, false_or]
  split_ifs with hmem
  · exact h
  · refine ⟨?_, fun d hin => ?_, ?_⟩
    · rw [List.map_append, ← h.rows]
      rfl
    · rcases List.mem_append.mp hin with hin | hin
      · exact h.regular d hin
      · rw [List.mem_singleton.mp hin]
        exact hr.filed newID
    · rw [List.map_append, List.map_singleton]
      exact h.nodup.append (List.nodup_singleton _) (List.disjoint_singleton.mpr hmem)

theorem markDeadLetterReplayed_eq (h : Files json db a) (id replayedAs : String) (now : Time) :
    db.markDeadLetterReplayed id replayedAs now =
      if id ∈ a.letters.map DeadLetter.id then
        (.ok (), { db with
          deadLetters := (a.letters.map (fun d =>
            if d.id = id then replayedOnce replayedAs now d else d)).map (letterRow json) })
      else (.error .notFound, db) := by
  rw [Database.markDeadLetterReplayed]
  by_cases hmem : id ∈ a.letters.map DeadLetter.id
  · rw [if_neg ((h.count_eq_zero id).not.mpr (not_not.mpr hmem)), if_pos hmem]
    congr 2
    rw [update, h.rows, List.map_map, List.map_map]
    refine List.map_congr_left (fun d _ => ?_)
    by_cases hid : d.id = id
    · rw [Function.comp_apply, if_pos (show decide ((letterRow json d).id = id) = true from
        decide_eq_true hid), Function.comp_apply, if_pos hid]
      rfl
    · rw [Function.comp_apply, if_neg (show ¬ decide ((letterRow json d).id = id) = true from
        fun hrow => hid (of_decide_eq_true hrow)), Function.comp_apply, if_neg hid]
  · rw [if_pos ((h.count_eq_zero id).mpr hmem), if_neg hmem]

theorem Files.mark (h : Files json db a) {id replayedAs : String} {now : Time}
    (hnow : InYears now) :
    Files json (db.markDeadLetterReplayed id replayedAs now).2
      (a.take (.markDeadLetterReplayed id replayedAs now)) := by
  have hids : (a.letters.map (fun d => if d.id = id then replayedOnce replayedAs now d else d)).map
      DeadLetter.id = a.letters.map DeadLetter.id := by
    rw [List.map_map]
    refine List.map_congr_left (fun d _ => ?_)
    simp only [Function.comp_apply]
    split_ifs <;> rfl
  have hregular : ∀ d ∈ a.letters.map (fun d =>
      if d.id = id then replayedOnce replayedAs now d else d), RegularLetter d := by
    intro d hd
    obtain ⟨d, hmem, rfl⟩ := List.mem_map.mp hd
    have hold := h.regular d hmem
    split_ifs
    · exact ⟨hold.payload, hold.published, hold.firstFailed, hold.deadLettered, hnow⟩
    · exact hold
  rw [markDeadLetterReplayed_eq h]
  by_cases hmem : id ∈ a.letters.map DeadLetter.id
  · rw [if_pos hmem]
    exact ⟨rfl, hregular, hids ▸ h.nodup⟩
  · rw [if_neg hmem]
    have hsame : a.letters.map (fun d => if d.id = id then replayedOnce replayedAs now d else d) =
        a.letters := by
      refine (List.map_congr_left (fun d hd => if_neg (fun hid => ?_))).trans (List.map_id _)
      exact hmem (List.mem_map.mpr ⟨d, hd, hid⟩)
    exact ⟨by rw [Archive.take, hsame]; exact h.rows, hregular, hids ▸ h.nodup⟩

theorem deleteDeadLetter_eq (h : Files json db a) (id : String) :
    db.deleteDeadLetter id =
      if id ∈ a.letters.map DeadLetter.id then
        (.ok (), { db with
          deadLetters := (a.letters.filter (fun d => d.id ≠ id)).map (letterRow json) })
      else (.error .notFound, db) := by
  rw [Database.deleteDeadLetter]
  by_cases hmem : id ∈ a.letters.map DeadLetter.id
  · rw [if_neg ((h.count_eq_zero id).not.mpr (not_not.mpr hmem)), if_pos hmem]
    congr 2
    rw [delete, h.rows, List.filter_map]
    congr 1
    exact List.filter_congr (fun d _ => (decide_not (p := d.id = id)).symm)
  · rw [if_pos ((h.count_eq_zero id).mpr hmem), if_neg hmem]

theorem Files.delete (h : Files json db a) (id : String) :
    Files json (db.deleteDeadLetter id).2 (a.take (.deleteDeadLetter id)) := by
  have hregular : ∀ d ∈ a.letters.filter (fun d => d.id ≠ id), RegularLetter d :=
    fun d hd => h.regular d (List.mem_of_mem_filter hd)
  have hnodup : ((a.letters.filter (fun d => d.id ≠ id)).map DeadLetter.id).Nodup :=
    h.nodup.sublist (List.filter_sublist.map _)
  rw [deleteDeadLetter_eq h]
  by_cases hmem : id ∈ a.letters.map DeadLetter.id
  · rw [if_pos hmem]
    exact ⟨rfl, hregular, hnodup⟩
  · rw [if_neg hmem]
    have hsame : a.letters.filter (fun d => d.id ≠ id) = a.letters := by
      rw [List.filter_eq_self]
      intro d hd
      rw [decide_eq_true_eq]
      exact fun hid => hmem (List.mem_map.mpr ⟨d, hd, hid⟩)
    exact ⟨by rw [Archive.take, hsame]; exact h.rows, hregular, hnodup⟩

theorem Files.byKey (h : Files json db a) (id : String) :
    byKey DeadLetterRow.id id db.deadLetters =
      (a.letters.find? (fun d => d.id = id)).map (letterRow json) := by
  rw [Sql.byKey, h.rows, List.find?_map]
  rfl

end Files

/-! ## The table of events -/

/-- The rows decode to the events, and their keys rise. -/
structure Remembers (db : Database) (events : List HistoryEvent) : Prop where
  rows : List.Forall₂ (fun row e => scanEvent row = .ok e) db.history events
  rising : (db.history.map HistoryRow.id).Pairwise (· < ·)
  next : ∀ n ∈ db.history.map HistoryRow.id, n < db.nextEvent

theorem new_remembers : Remembers Database.new [] := ⟨.nil, .nil, nofun⟩

theorem scanEvent_eq_ok {row : HistoryRow} {e : HistoryEvent} (h : scanEvent row = .ok e) :
    row.messageID = e.messageID := by
  obtain ⟨time, -, he⟩ := exists_of_bind_eq_ok h
  cases he
  rfl

theorem Remembers.append {db : Database} {events : List HistoryEvent} (h : Remembers db events)
    {event : HistoryEvent} (hy : InYears event.time) :
    Remembers (db.appendHistory event).2 (events ++ [event]) := by
  refine ⟨List.rel_append h.rows (.cons ?_ .nil), ?_, fun n hn => ?_⟩
  · simp only [scanEvent, readTime_formatTime hy]
    rfl
  · simp only [Database.appendHistory, List.map_append, List.map_singleton]
    exact List.pairwise_append.mpr ⟨h.rising, List.pairwise_singleton _ _, fun n hn m hm => by
      rw [List.mem_singleton.mp hm]
      exact h.next n hn⟩
  · simp only [Database.appendHistory, List.map_append, List.map_singleton, List.mem_append,
      List.mem_singleton] at hn
    rcases hn with hn | rfl
    · exact (h.next n hn).trans (Nat.lt_succ_self _)
    · exact Nat.lt_succ_self _

/-- The rows of a message are in the order of their keys already. -/
theorem Remembers.listHistory {db : Database} {events : List HistoryEvent}
    (h : Remembers db events) (id : String) :
    (db.listHistory id).1 = .ok (events.filter (fun e => e.messageID = id)) := by
  have hsorted : (db.history.filter (fun row => row.messageID = id)).Pairwise
      (fun a b => a.id ≤ b.id) :=
    ((List.pairwise_map.mp h.rising).filter _).imp (fun hab => hab.le)
  rw [Database.listHistory, orderBy, hsorted.insertionSort_eq, scanRows_eq_ok]
  refine List.rel_filter (fun row e hrow => ?_) h.rows
  simp only [decide_eq_true_eq, scanEvent_eq_ok hrow]

/-! ## One call -/

/-- Letters with a payload, and instants that a column can hold. The store is not closed. -/
def Archivable : Call → Prop
  | .saveDeadLetter entry _ => RegularLetter entry
  | .markDeadLetterReplayed _ _ now => InYears now
  | .appendHistory event => InYears event.time
  | .close => False
  | _ => True

/-- The event a call records. -/
def recorded : Call → List HistoryEvent
  | .appendHistory event => [event]
  | _ => []

theorem Files.serve {db : Database} {a : Archive} (h : Files json db a) (ho : a.closed = false)
    {c : Call} (hc : Archivable c) : Files json (serve json c db).2 (a.take c) := by
  cases c with
  | saveDeadLetter entry newID => exact h.save ho hc
  | markDeadLetterReplayed id replayedAs now => exact h.mark hc
  | deleteDeadLetter id => exact h.delete id
  | close => exact hc.elim
  | deadLetter | deleteQueue | deleteBinding =>
    refine h.same ?_
    simp only [Sqlite.serve, Database.deadLetter, Database.deleteQueue, Database.deleteBinding]
    split <;> rfl
  | _ => exact h.same rfl

/-- The calls that record no event leave the table of events alone. -/
structure SameHistory (db db' : Database) : Prop where
  rows : db'.history = db.history
  next : db'.nextEvent = db.nextEvent
  closed : db'.closed = db.closed

theorem serve_sameHistory (db : Database) {c : Call} (hc : Archivable c) (he : recorded c = []) :
    SameHistory db (serve json c db).2 := by
  cases c with
  | appendHistory => cases he
  | close => exact hc.elim
  | saveDeadLetter | deadLetter | markDeadLetterReplayed | deleteDeadLetter | deleteQueue
  | deleteBinding =>
    simp only [serve, Database.saveDeadLetter, Database.deadLetter, Database.markDeadLetterReplayed,
      Database.deleteDeadLetter, Database.deleteQueue, Database.deleteBinding]
    repeat' split
    all_goals exact ⟨rfl, rfl, rfl⟩
  | _ => exact ⟨rfl, rfl, rfl⟩

theorem Remembers.serve {db : Database} {events : List HistoryEvent} (h : Remembers db events)
    {c : Call} (hc : Archivable c) : Remembers (serve json c db).2 (events ++ recorded c) := by
  by_cases he : recorded c = []
  · have hs : SameHistory db (Sqlite.serve json c db).2 := serve_sameHistory db hc he
    rw [he, List.append_nil]
    exact ⟨hs.rows ▸ h.rows, hs.rows ▸ h.rising, hs.rows ▸ hs.next ▸ h.next⟩
  · cases c with
    | appendHistory event => exact h.append hc
    | _ => exact absurd rfl he

theorem serve_closed (db : Database) {c : Call} (hc : Archivable c) :
    (serve json c db).2.closed = db.closed := by
  by_cases he : recorded c = []
  · exact (serve_sameHistory db hc he).closed
  · cases c with
    | appendHistory event => rfl
    | _ => exact absurd rfl he

/-! ## Both drivers -/

/-- The calls on dead letters and on the history. -/
def Archival : Call → Prop
  | .saveDeadLetter _ _ | .deadLetter _ | .markDeadLetterReplayed _ _ _ | .deleteDeadLetter _
  | .appendHistory _ | .history _ => True
  | _ => False

/-- Both drivers have the letters of the archive and the events of the history. -/
structure Shared (json : JsonMaps) (s : Memory.Store) (db : Database) (a : Archive)
    (events : List HistoryEvent) : Prop where
  holds : Holds s a
  recalls : ∀ id, s.history id = events.filter (fun e => e.messageID = id)
  files : Files json db a
  remembers : Remembers db events
  opened : s.closed = false
  openedDb : db.closed = false

theorem new_shared : Shared json Memory.Store.new Database.new ⟨[], false⟩ [] :=
  ⟨Memory.new_holds, fun _ => rfl, new_files, new_remembers, rfl, rfl⟩

section Shared
variable {s : Memory.Store} {db : Database} {a : Archive} {events : List HistoryEvent}

theorem Shared.archive_open (h : Shared json s db a events) : a.closed = false :=
  h.holds.closed ▸ h.opened

theorem Shared.lookup_eq_none (h : Shared json s db a events) (id : String) :
    s.deadLetters.lookup id = none ↔ id ∉ a.letters.map DeadLetter.id :=
  h.holds.letters.lookup_eq_none

/-- The letter under an id, in the map and in the list. -/
theorem Shared.lookup_eq_find (h : Shared json s db a events) (id : String) :
    s.deadLetters.lookup id = a.letters.find? (fun d => d.id = id) := by
  cases hl : s.deadLetters.lookup id with
  | none =>
    refine (List.find?_eq_none.mpr (fun d hd => ?_)).symm
    rw [decide_eq_true_eq]
    exact fun hid => (h.lookup_eq_none id).mp hl (List.mem_map.mpr ⟨d, hd, hid⟩)
  | some d =>
    obtain ⟨hmem, hid⟩ := (h.holds.letters.lookup id d).mp hl
    exact ((byKey_eq_some h.files.nodup).mpr ⟨hmem, hid⟩).symm

theorem Shared.reply (h : Shared json s db a events) {c : Call} (hc : Archivable c)
    (ha : Archival c) : (Memory.exec c s).1 = (serve json c db).1 := by
  cases c with
  | saveDeadLetter entry newID =>
    simp only [Memory.exec, serve, Memory.Store.saveDeadLetter_eq, Memory.Store.unlessClosed,
      h.opened, Bool.false_eq_true, if_false, saveDeadLetter_eq h.files hc]
    cases hl : s.deadLetters.lookup (filed entry newID).id with
    | none => rw [if_neg ((h.lookup_eq_none _).mp hl)]
    | some d =>
      have hmem := (h.lookup_eq_none (filed entry newID).id).not.mp (by simp [hl])
      rw [if_pos (not_not.mp hmem)]
  | deadLetter id =>
    simp only [Memory.exec, serve, Memory.Store.deadLetter, Database.deadLetter, h.files.byKey,
      h.lookup_eq_find]
    cases hf : a.letters.find? (fun d => d.id = id) with
    | none => rfl
    | some d =>
      exact (scanDeadLetter_letterRow (h.files.regular d (List.mem_of_find?_eq_some hf))).symm
  | markDeadLetterReplayed id replayedAs now =>
    simp only [Memory.exec, serve, Memory.Store.markDeadLetterReplayed,
      markDeadLetterReplayed_eq h.files]
    cases hl : s.deadLetters.lookup id with
    | none => rw [if_neg ((h.lookup_eq_none id).mp hl)]
    | some d => rw [if_pos (not_not.mp ((h.lookup_eq_none id).not.mp (by simp [hl])))]
  | deleteDeadLetter id =>
    simp only [Memory.exec, serve, Memory.Store.deleteDeadLetter, deleteDeadLetter_eq h.files]
    cases hl : s.deadLetters.lookup id with
    | none => rw [if_neg ((h.lookup_eq_none id).mp hl)]
    | some d => rw [if_pos (not_not.mp ((h.lookup_eq_none id).not.mp (by simp [hl])))]
  | appendHistory event =>
    simp only [Memory.exec, serve, Memory.Store.appendHistory, Memory.Store.unlessClosed, h.opened,
      Database.appendHistory, Bool.false_eq_true, if_false]
  | history id =>
    simp only [Memory.exec, serve, h.recalls id, h.remembers.listHistory id]
  | _ => exact ha.elim

theorem Shared.recalls_exec (h : Shared json s db a events) (c : Call) (id : String) :
    (Memory.exec c s).2.history id =
      (events ++ recorded c).filter (fun e => e.messageID = id) := by
  rw [Memory.exec_history, h.recalls id, List.filter_append]
  congr 1
  cases c with
  | appendHistory event =>
    simp only [Memory.exec, Memory.Store.appendHistory, Memory.Store.unlessClosed, h.opened,
      Bool.false_eq_true, if_false, Memory.written, recorded]
    by_cases hid : event.messageID = id <;> simp [hid]
  | _ => rfl

/-- Every call keeps what the drivers share. -/
theorem Shared.step (h : Shared json s db a events) {c : Call} (hc : Archivable c) :
    Shared json (Memory.exec c s).2 (serve json c db).2 (a.take c) (events ++ recorded c) := by
  have hne : c ≠ .close := by
    rintro rfl
    exact hc
  exact ⟨h.holds.exec c, h.recalls_exec c, h.files.serve h.archive_open hc, h.remembers.serve hc,
    (Memory.exec_closed hne s).trans h.opened, (serve_closed db hc).trans h.openedDb⟩

end Shared

/-- The store and the database after a run of any calls. -/
theorem after_shared {cs : List Call} (hcs : ∀ c ∈ cs, Archivable c) :
    Shared json (after Memory.exec Memory.Store.new cs) (after (call json) Database.new cs)
      (archiveAfter cs) (cs.flatMap recorded) := by
  induction cs using List.reverseRecOn with
  | nil => exact new_shared
  | append_singleton cs c ih =>
    have hbefore := ih (fun d hd => hcs d (List.mem_append_left _ hd))
    rw [after_append, after_singleton, after_append, after_singleton,
      call_of_open json hbefore.openedDb, List.flatMap_append, List.flatMap_singleton,
      archiveAfter, List.foldl_append]
    exact hbefore.step (hcs c (List.mem_append_right _ (List.mem_singleton_self c)))

end RabbitmqLite.Storage.Sqlite
