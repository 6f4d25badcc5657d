import RabbitmqLite.Storage.Sqlite.Correspondence
import RabbitmqLite.Collections.SortedPrefix

/-! # Claims in the two drivers

Both drivers choose among the claimable messages of the queue. The in-memory
driver takes the first ones in append order, the SQLite driver the first ones
by availability and then append order. If the two choices have the same
members, the replies do too and the states stay in correspondence.
-/

namespace RabbitmqLite.Storage.Sqlite
open Broker Collections Sql
open Memory (Record Messages claimable claimableIn takenOver handedOut Indexed)

variable {json : JsonMaps}

/-- The message is stored in this queue and can be claimed now. -/
def claimableOf (m : Messages) (now : Time) (q id : String) : Bool :=
  match m.lookup id with
  | none => false
  | some entry => decide (entry.msg.queue = q) && claimable entry.msg now

theorem claimableOf_iff {m : Messages} {now : Time} {q id : String} :
    claimableOf m now q id = true ↔
      ∃ entry, m.lookup id = some entry ∧ entry.msg.queue = q ∧ claimable entry.msg now = true := by
  unfold claimableOf
  cases m.lookup id <;> simp

theorem claimableIn_of_claimableOf {m : Messages} {now : Time} {q id : String}
    (h : claimableOf m now q id = true) : claimableIn m now id = true := by
  obtain ⟨entry, hl, -, hc⟩ := claimableOf_iff.mp h
  exact Memory.claimableIn_iff.mpr ⟨entry, hl, hc⟩

/-- The claimable ids of a queue, in the order of a list of ids. -/
def inLine (m : Messages) (now : Time) (q : String) (ids : List String) : List String :=
  ids.filter (claimableOf m now q)

def availableOf (m : Messages) (id : String) : ℤ :=
  match m.lookup id with
  | none => 0
  | some entry => entry.msg.availableAt

/-- One message has been available for at least as long as the other. -/
def availableBefore (m : Messages) (a b : String) : Prop := availableOf m a ≤ availableOf m b

instance (m : Messages) : DecidableRel (availableBefore m) :=
  fun a b => by unfold availableBefore; infer_instance

instance (m : Messages) : Std.Total (availableBefore m) :=
  ⟨fun a b => le_total (availableOf m a) (availableOf m b)⟩

instance (m : Messages) : IsTrans String (availableBefore m) :=
  ⟨fun _ _ _ h h' => le_trans (α := ℤ) h h'⟩

/-! ## What each driver picks -/

theorem RowsOf.ready_eq {m : Messages} {rows : List Row} (h : RowsOf json m rows)
    {req : ClaimRequest} (hn : InYears req.now) :
    ∀ row ∈ rows, Db.ready req row = claimableOf m req.now req.queue row.id := by
  intro row hr
  obtain ⟨entry, hl, hq, hs, ha⟩ := h.columns hr
  rw [Bool.eq_iff_iff, claimableOf_iff]
  simp only [Db.ready, hq, hs, ha, hl, Bool.and_eq_true, decide_eq_true_eq, Option.some.injEq,
    exists_eq_left', Memory.claimable_iff, and_assoc,
    formatTime_le_formatTime (h.regular row.id entry hl).available hn]

/-- The in-memory driver scans the claimable ids in the order of the table. -/
theorem Corresponds.filter_claimableIn {s : Memory.Store} {db : Db} (h : Corresponds json s db)
    (hi : Indexed s) (now : Time) (q : String) :
    (s.order q).filter (claimableIn s.messages now) =
      inLine s.messages now q (db.messages.map Row.id) := by
  have hlive : ∀ id, claimableOf s.messages now q id = true →
      Memory.pending s.messages q id = true := by
    intro id hid
    obtain ⟨entry, hl, hq, hc⟩ := claimableOf_iff.mp hid
    exact Memory.pending_iff.mpr ⟨entry, hl, hq, Memory.terminal_of_claimable hc⟩
  rw [inLine, filter_eq_of_imp (h.listed q) hlive]
  apply List.filter_congr
  intro id hid
  obtain ⟨entry, hl, hq⟩ := hi.listed q id hid
  simp [claimableIn, claimableOf, hl, hq]

/-- The SQLite driver sorts them by availability. -/
theorem Corresponds.orderBy_ready {s : Memory.Store} {db : Db} (h : Corresponds json s db)
    {req : ClaimRequest} (hn : InYears req.now) :
    (orderBy deliveredBefore (db.messages.filter (Db.ready req))).map Row.id =
      (inLine s.messages req.now req.queue (db.messages.map Row.id)).insertionSort
        (availableBefore s.messages) := by
  rw [inLine, ← map_id_filter _ (h.rows.ready_eq hn), orderBy]
  apply map_insertionSort
  have hseq : db.messages.Pairwise (fun a b => a.seq < b.seq) := List.pairwise_map.mp h.ordered
  refine List.Pairwise.imp_of_mem ?_ (hseq.sublist List.filter_sublist)
  intro a b ha hb hab
  obtain ⟨e, hle, -, -, hava⟩ := h.rows.columns (List.mem_filter.mp ha).1
  obtain ⟨e', hle', -, -, havb⟩ := h.rows.columns (List.mem_filter.mp hb).1
  simp only [deliveredBefore, hab.le, and_true, ← le_iff_lt_or_eq, hava, havb,
    formatTime_le_formatTime (h.rows.regular _ e hle).available
      (h.rows.regular _ e' hle').available, availableBefore, availableOf, hle, hle']

/-- The ids the SQLite driver picks. -/
def picks (m : Messages) (req : ClaimRequest) (ids : List String) : List String :=
  ((inLine m req.now req.queue ids).insertionSort (availableBefore m)).take req.limit.toNat

theorem picks_claimable {m : Messages} {req : ClaimRequest} {ids : List String} :
    ∀ id ∈ picks m req ids, claimableIn m req.now id = true := by
  intro id hid
  have hin := (List.mem_insertionSort _).mp (List.mem_of_mem_take hid)
  exact claimableIn_of_claimableOf (List.mem_filter.mp hin).2

theorem RowsOf.picks_nodup {m : Messages} {rows : List Row} (h : RowsOf json m rows)
    (req : ClaimRequest) : (picks m req (rows.map Row.id)).Nodup := by
  have hline : (inLine m req.now req.queue (rows.map Row.id)).Nodup := h.nodup.filter _
  exact ((List.perm_insertionSort _ _).nodup_iff.mpr hline).sublist (List.take_sublist _ _)

/-! ## The loop over the candidates -/

theorem leaseCandidate_of_claimable {req : ClaimRequest} {entry : Record}
    (h : claimable entry.msg req.now = true) :
    leaseCandidate req entry.msg = .ok (takenOver req entry).msg := by
  obtain ⟨hs | hs, -⟩ := Memory.claimable_iff.mp h <;>
    simp [leaseCandidate, takenOver, Message.transition_eq, hs, State.canTransitionTo_eq,
      State.valid_eq]

theorem regular_takenOver {req : ClaimRequest} {entry : Record} (h : Regular entry)
    (hn : InYears req.now) (hl : InYears (req.now + req.lease)) : Regular (takenOver req entry) :=
  ⟨h.copied, h.created, hn, h.available, hl⟩

/-- The loop hands out the picked messages and updates their rows. -/
theorem RowsOf.claimLoop {m : Messages} {rows : List Row} (h : RowsOf json m rows)
    {req : ClaimRequest} (hn : InYears req.now) (hl : InYears (req.now + req.lease))
    (hz : req.now + req.lease ≠ zeroTime) {picked : List String} (hnd : picked.Nodup)
    (hc : ∀ id ∈ picked, claimableIn m req.now id = true) :
    ∃ rows', Sqlite.claimLoop req (picked.filterMap (storedMessage m)) rows =
        .ok (picked.filterMap (handedOut req m), rows') ∧
      RowsOf json (adjustAll (takenOver req) m picked) rows' ∧
      rows'.map Row.id = rows.map Row.id ∧ rows'.map Row.seq = rows.map Row.seq := by
  induction picked generalizing m rows with
  | nil => exact ⟨rows, rfl, h, rfl, rfl⟩
  | cons id picked ih =>
    obtain ⟨hid, hnd⟩ := List.nodup_cons.mp hnd
    obtain ⟨entry, he, hce⟩ := Memory.claimableIn_iff.mp (hc id List.mem_cons_self)
    have hset : ∀ seq, leaseRow req (takenOver req entry).msg (encodeRow json seq entry) =
        encodeRow json seq (takenOver req entry) := by
      intro seq
      simp [leaseRow, encodeRow, insertedRow, takenOver, hz]
    have hstep := h.update he (regular_takenOver (h.regular id entry he) hn hl) rfl hset
    -- The other candidates are not touched by this round.
    have hother : ∀ x ∈ picked, (m.insert id (takenOver req entry)).lookup x = m.lookup x := by
      intro x hx
      have hne : x ≠ id := fun hxid => hid (hxid ▸ hx)
      rw [lookup_insert_eq, if_neg hne]
    obtain ⟨rows', hloop, hrows, hids, hseqs⟩ := ih hstep hnd (fun x hx => by
      rw [claimableIn, hother x hx]
      exact hc x (List.mem_cons_of_mem id hx))
    have hadjust : adjustAll (takenOver req) m (id :: picked) =
        adjustAll (takenOver req) (m.insert id (takenOver req entry)) picked := by
      simp [adjustAll, he]
    have hmsgs : picked.filterMap (storedMessage (m.insert id (takenOver req entry))) =
        picked.filterMap (storedMessage m) :=
      List.filterMap_congr (fun x hx => by rw [storedMessage, hother x hx, storedMessage])
    have hout : picked.filterMap (handedOut req (m.insert id (takenOver req entry))) =
        picked.filterMap (handedOut req m) :=
      List.filterMap_congr (fun x hx => by rw [handedOut, hother x hx, handedOut])
    have hstored : storedMessage m id = some entry.msg := by simp [storedMessage, he]
    have hhanded : handedOut req m id = some (takenOver req entry).msg := by simp [handedOut, he]
    rw [hmsgs, hout] at hloop
    have hkey : entry.msg.id = id := h.keyed he
    have hkey' : (takenOver req entry).msg.id = id := hkey
    refine ⟨rows', ?_, hadjust ▸ hrows, hids.trans (h.map_update he hset (fun _ => rfl)),
      hseqs.trans (h.map_update he hset (fun _ => rfl))⟩
    rw [List.filterMap_cons_some hstored, List.filterMap_cons_some hhanded, Sqlite.claimLoop,
      leaseCandidate_of_claimable hce]
    simp only [hkey', hloop, Except.map]

/-- What a claim does to the database. -/
theorem Corresponds.sqlite_claim {s : Memory.Store} {db : Db} (h : Corresponds json s db)
    {req : ClaimRequest} (hn : InYears req.now) (hl : InYears (req.now + req.lease))
    (hz : req.now + req.lease ≠ zeroTime) :
    ∃ rows', db.claim json req =
        (.ok ((picks s.messages req (db.messages.map Row.id)).filterMap (handedOut req s.messages)),
          { db with messages := rows' }) ∧
      RowsOf json (adjustAll (takenOver req) s.messages
        (picks s.messages req (db.messages.map Row.id))) rows' ∧
      rows'.map Row.id = db.messages.map Row.id ∧ rows'.map Row.seq = db.messages.map Row.seq := by
  unfold Db.claim
  by_cases hlim : req.limit ≤ 0
  · have h0 : req.limit.toNat = 0 := Int.toNat_of_nonpos hlim
    rw [if_pos hlim, picks, h0]
    exact ⟨db.messages, rfl, h.rows, rfl, rfl⟩
  · have hids : (db.candidates req).map Row.id = picks s.messages req (db.messages.map Row.id) := by
      rw [Db.candidates, limit, if_neg (by omega), picks, ← h.orderBy_ready hn, List.map_take]
    have hmem : ∀ row ∈ db.candidates req, row ∈ db.messages := by
      intro row hr
      rw [Db.candidates, limit, if_neg (by omega)] at hr
      exact (List.mem_filter.mp ((List.mem_insertionSort _).mp (List.mem_of_mem_take hr))).1
    have hscan := h.rows.scanMessages hmem
    rw [hids] at hscan
    obtain ⟨rows', hloop, hrest⟩ :=
      h.rows.claimLoop hn hl hz (h.rows.picks_nodup req) picks_claimable
    rw [if_neg hlim, hscan]
    dsimp only
    rw [hloop]
    exact ⟨rows', rfl, hrest⟩

/-- If both drivers pick the same messages, they stay in correspondence. -/
theorem Corresponds.claim {s : Memory.Store} {db : Db} (h : Corresponds json s db)
    (hi : Indexed s) (ho : s.closed = false) {req : ClaimRequest} (hlim : 0 ≤ req.limit)
    (hn : InYears req.now) (hl : InYears (req.now + req.lease))
    (hz : req.now + req.lease ≠ zeroTime)
    (hp : ((inLine s.messages req.now req.queue (db.messages.map Row.id)).take
      req.limit.toNat).Perm (picks s.messages req (db.messages.map Row.id))) :
    (s.claim req).1 = .ok (((inLine s.messages req.now req.queue
        (db.messages.map Row.id)).take req.limit.toNat).filterMap (handedOut req s.messages)) ∧
      (db.claim json req).1 = .ok ((picks s.messages req
        (db.messages.map Row.id)).filterMap (handedOut req s.messages)) ∧
      Corresponds json (s.claim req).2 (db.claim json req).2 := by
  obtain ⟨rows', hsql, hrows, hids, hseqs⟩ := h.sqlite_claim hn hl hz
  obtain ⟨t, messages, hc, hm, hmem⟩ := hi.claim ho hlim
  have ht := h.compacted hc
  have hline := ht.filter_claimableIn hc.indexed req.now req.queue
  rw [hc.messages_eq] at hline
  rw [hline] at hm hmem
  have hmsgs : messages = adjustAll (takenOver req) s.messages
      (picks s.messages req (db.messages.map Row.id)) := by
    apply Finmap.ext_lookup
    intro id
    rw [hm, lookup_adjustAll _ _ (h.rows.picks_nodup req)]
    simp only [hp.mem_iff]
  have hrefresh := Memory.refreshed_takenOver (picks_claimable (m := s.messages)) (fun id => by
    rw [← lookup_adjustAll _ s.messages (h.rows.picks_nodup req)])
  rw [hmem, hsql]
  refine ⟨rfl, rfl, ht.queues, ?_, ?_, ?_, fun q => ?_⟩
  · rw [hmsgs]
    exact hrows
  · simpa only [hseqs] using h.ordered
  · simpa only [hseqs] using h.fresh
  · dsimp only
    rw [hids, hmsgs]
    have hlisted := ht.listed q
    rw [hc.messages_eq] at hlisted
    refine filter_eq_of_imp hlisted (fun id hid => ?_)
    obtain ⟨e', he', hq, hterm⟩ := Memory.pending_iff.mp hid
    obtain ⟨e, he, -, hq', hterm'⟩ := hrefresh.lookup he'
    exact Memory.pending_iff.mpr ⟨e, he, hq' ▸ hq, hterm' ▸ hterm⟩

end RabbitmqLite.Storage.Sqlite
