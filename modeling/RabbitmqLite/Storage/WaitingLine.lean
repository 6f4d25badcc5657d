import RabbitmqLite.Storage.Memory.Ledger
import RabbitmqLite.Storage.Sqlite.Appending

/-! # The waiting line of a queue

A queue is a line for its publishers and for a consumer that never fails: what
is appended joins at the end, a claim takes from the front. Both drivers serve
it as such a line, as long as the messages become available in the order in
which they are appended.
-/

namespace RabbitmqLite.Storage
open Broker Collections
open Memory (Record Messages RecordStep Indexed Compacted claimable claimableIn handedOut takenOver
  unleased exec exec_recordStep)
open Sqlite (availableOf availableBefore inLine picks Corresponds JsonMaps Db Row InYears)

/-! ## The line -/

/-- What waits in the queue, all ids the store knows, and when the last message became
available. -/
structure Line where
  waiting : List String
  known : List String
  latest : Time

namespace Line

/-- What a batch adds. -/
def join (l : Line) (q : String) (msgs : List Message) : Line where
  waiting := l.waiting ++ (msgs.filter (fun msg => msg.queue = q)).map Message.id
  known := l.known ++ msgs.map Message.id
  latest := (msgs.head?.map Message.availableAt).getD l.latest

/-- How the line goes on with a call and its reply. -/
inductive Serves (q : String) (l : Line) : (c : Call) → c.Reply → Line → Prop where
  | appended (msgs : List Message) : Serves q l (.append msgs) (.ok ()) (l.join q msgs)
  | refused (msgs : List Message) (e : Error) : Serves q l (.append msgs) (.error e) l
  | claimed {req : ClaimRequest} {msgs : List Message} {rest : List String}
      (h : l.waiting = msgs.map Message.id ++ rest) :
      Serves q l (.claim req) (.ok msgs) { l with waiting := rest }
  | acknowledged (id : String) (now : Time) (reply : Except Error Unit) :
      Serves q l (.acknowledge id now) reply l
  | recorded (event : HistoryEvent) (reply : Except Error Unit) :
      Serves q l (.appendHistory event) reply l
  | parked (letter : DeadLetter) (newID : String) (reply : Except Error Unit) :
      Serves q l (.saveDeadLetter letter newID) reply l

end Line

/-- The message was made and queued at this time. -/
structure QueuedAt (now : Time) (msg : Message) : Prop where
  state : msg.state = .queued
  created : msg.createdAt = now
  updated : msg.updatedAt = now
  available : msg.availableAt = now

/-- The calls of publishers and of a consumer that never fails. Batches come with new ids and in
the order of time; `readings` are the instants the clock has shown and `leases` the durations the
consumer asks for. -/
def Line.Admits (readings : Set Time) (leases : Set Duration) (q : String) (l : Line) : Call → Prop
  | .append msgs => (msgs.map Message.id).Nodup ∧ (∀ msg ∈ msgs, msg.id ∉ l.known) ∧
      ∃ now ∈ readings, l.latest ≤ now ∧ ∀ msg ∈ msgs, QueuedAt now msg
  | .claim req => req.queue = q ∧ 0 ≤ req.limit ∧ req.now ∈ readings ∧ req.lease ∈ leases
  | .acknowledge _ now => now ∈ readings
  | .appendHistory _ | .saveDeadLetter _ _ => True
  | _ => False

theorem Line.join_latest {l : Line} {q : String} {msgs : List Message} {now : Time}
    (h : ∀ msg ∈ msgs, QueuedAt now msg) :
    (l.join q msgs).latest = l.latest ∨ (l.join q msgs).latest = now := by
  cases msgs with
  | nil => exact Or.inl rfl
  | cons msg msgs => exact Or.inr (h msg List.mem_cons_self).available

theorem Line.join_latest_of_mem {l : Line} {q : String} {msgs : List Message} {now : Time}
    (h : ∀ msg ∈ msgs, QueuedAt now msg) {msg : Message} (hm : msg ∈ msgs) :
    (l.join q msgs).latest = now := by
  obtain ⟨first, rest, rfl⟩ := List.exists_cons_of_ne_nil (List.ne_nil_of_mem hm)
  exact (h first List.mem_cons_self).available

/-! ## What waits in a store -/

/-- The message is stored and waits to be claimed. -/
def waitingIn (messages : Messages) (id : String) : Bool :=
  match messages.lookup id with
  | none => false
  | some entry => decide (entry.msg.state = .queued ∨ entry.msg.state = .retrying)

/-- The ids that wait in a queue. -/
def lineOf (s : Memory.Store) (q : String) : List String :=
  (s.order q).filter (waitingIn s.messages)

/-- The messages of the line became available one after the other. -/
def LineInTurn (s : Memory.Store) (q : String) : Prop :=
  (lineOf s q).Pairwise (availableBefore s.messages)

theorem waitingIn_iff {messages : Messages} {id : String} :
    waitingIn messages id = true ↔ ∃ entry, messages.lookup id = some entry ∧
      (entry.msg.state = .queued ∨ entry.msg.state = .retrying) := by
  unfold waitingIn
  cases messages.lookup id <;> simp

theorem claimableIn_eq (messages : Messages) (now : Time) (id : String) :
    claimableIn messages now id =
      (waitingIn messages id && decide (availableOf messages id ≤ now)) := by
  rw [Bool.eq_iff_iff, Bool.and_eq_true, Memory.claimableIn_iff, waitingIn_iff, decide_eq_true_eq]
  unfold availableOf
  cases messages.lookup id <;> simp [Memory.claimable_iff]

theorem live_of_waitingIn {messages : Messages} {id : String} (h : waitingIn messages id = true) :
    Memory.live messages id = true := by
  obtain ⟨entry, hl, hs⟩ := waitingIn_iff.mp h
  rcases hs with hs | hs <;> simp only [Memory.live, Memory.isSettled, hl, hs] <;> rfl

variable {s t : Memory.Store} {q : String}

theorem Compacted.lineOf_eq (h : Compacted s t) (q : String) : lineOf t q = lineOf s q := by
  rw [lineOf, lineOf, h.messages_eq]
  exact filter_eq_of_imp (h.live_eq q) (fun _ => live_of_waitingIn)

theorem lineOf_nodup (h : Indexed s) (q : String) : (lineOf s q).Nodup := (h.nodup q).filter _

/-! ## The front of the line -/

/-- The claimable messages of a queue stand at the front of its line. -/
theorem LineInTurn.claimable_prefix (h : LineInTurn s q) (now : Time) :
    (s.order q).filter (claimableIn s.messages now) <+: lineOf s q := by
  have hfilter : (s.order q).filter (claimableIn s.messages now) =
      (lineOf s q).filter (fun id => decide (availableOf s.messages id ≤ now)) := by
    rw [lineOf, List.filter_filter]
    exact List.filter_congr (fun id _ => by rw [claimableIn_eq, Bool.and_comm])
  rw [hfilter]
  exact filter_prefix_of_pairwise (availableOf s.messages) now h

/-- What a claim on the queue takes. -/
structure TakenInTurn (s : Memory.Store) (req : ClaimRequest) (claimed : List Message) : Prop where
  reply : (s.claim req).1 = .ok claimed
  front : lineOf s req.queue = claimed.map Message.id ++ lineOf (s.claim req).2 req.queue
  rest : ∀ id ∈ lineOf (s.claim req).2 req.queue,
    availableOf (s.claim req).2.messages id = availableOf s.messages id

/-- A claim takes messages off the front of the line. -/
theorem LineInTurn.claim {req : ClaimRequest} (h : LineInTurn s req.queue) (hi : Indexed s)
    (ho : s.closed = false) (hlim : 0 ≤ req.limit) : ∃ claimed, TakenInTurn s req claimed := by
  obtain ⟨t, messages, hc, hm, hr⟩ := hi.claim ho hlim
  have hline := Compacted.lineOf_eq hc req.queue
  have hturn : LineInTurn t req.queue := by
    rw [LineInTurn, hline, hc.messages_eq]
    exact h
  have hinitial := hturn.claimable_prefix req.now
  rw [hc.messages_eq] at hinitial
  set picked := ((t.order req.queue).filter (claimableIn s.messages req.now)).take
    req.limit.toNat with hpicked
  have hclaimable : ∀ id ∈ picked, claimableIn s.messages req.now id = true :=
    fun id hid => (List.mem_filter.mp (List.mem_of_mem_take hid)).2
  obtain ⟨rest, hrest⟩ := (List.take_prefix req.limit.toNat _).trans hinitial
  rw [← hpicked, hline] at hrest
  have hnodup : (picked ++ rest).Nodup := hrest ▸ lineOf_nodup hi req.queue
  -- What was picked does not wait any more, and nothing else has changed.
  have hwaiting : ∀ id,
      waitingIn messages id = (waitingIn s.messages id && decide (id ∉ picked)) := by
    intro id
    by_cases hid : id ∈ picked
    · obtain ⟨entry, hl, -⟩ := Memory.claimableIn_iff.mp (hclaimable id hid)
      simp [waitingIn, hm id, hid, hl, takenOver]
    · simp [waitingIn, hm id, hid]
  have hnew : lineOf { t with messages := messages } req.queue = rest := by
    have hfilter : lineOf { t with messages := messages } req.queue =
        (lineOf t req.queue).filter (fun id => decide (id ∉ picked)) := by
      rw [lineOf, lineOf, List.filter_filter, hc.messages_eq]
      exact List.filter_congr (fun id _ => by rw [hwaiting id, Bool.and_comm])
    rw [hfilter, hline, ← hrest]
    simpa using @filter_notMem_append _ _ _ id picked rest (by simpa using hnodup)
  refine ⟨_, by rw [hr], ?_, ?_⟩
  · rw [hr]
    dsimp only
    rw [Memory.map_id_handedOut hi.keyed hclaimable, hnew, hrest]
  · rw [hr]
    dsimp only
    rw [hnew]
    intro id hid
    have hnot : id ∉ picked := fun hp => (List.nodup_append.mp hnodup).2.2 id hp id hid rfl
    simp only [availableOf, hm id, if_neg hnot]

/-- The SQLite driver picks the same messages. -/
theorem LineInTurn.picks_eq {json : JsonMaps} {db : Db} {req : ClaimRequest}
    (h : LineInTurn s req.queue) (hi : Indexed s) (hc : Corresponds json s db) :
    picks s.messages req (db.messages.map Row.id) =
      (inLine s.messages req.now req.queue (db.messages.map Row.id)).take req.limit.toNat := by
  rw [picks, ← hc.filter_claimableIn hi]
  have hsorted : ((s.order req.queue).filter (claimableIn s.messages req.now)).Pairwise
      (availableBefore s.messages) := h.sublist (h.claimable_prefix req.now).sublist
  rw [hsorted.insertionSort_eq]

/-! ## The end of the line -/

/-- New messages stand at the end of the line, and all became available at the same time. -/
structure Joined (q : String) (now : Time) (added : List String) (s t : Memory.Store) : Prop where
  line : lineOf t q = lineOf s q ++ added
  before : ∀ id ∈ lineOf s q, availableOf t.messages id = availableOf s.messages id
  added : ∀ id ∈ added, availableOf t.messages id = now

theorem Joined.inTurn {now : Time} {added : List String} (h : Joined q now added s t)
    (hturn : LineInTurn s q) (hlate : ∀ id ∈ lineOf s q, availableOf s.messages id ≤ now) :
    LineInTurn t q := by
  rw [LineInTurn, h.line, List.pairwise_append]
  refine ⟨hturn.imp_of_mem (fun ha hb hab => ?_), ?_, fun a ha b hb => ?_⟩
  · rw [availableBefore, h.before _ ha, h.before _ hb]
    exact hab
  · exact List.pairwise_of_forall_mem_list (fun a ha b hb =>
      ((h.added a ha).trans (h.added b hb).symm).le)
  · rw [availableBefore, h.before a ha, h.added b hb]
    exact hlate a ha

theorem lookup_storeAll_listed {msgs : List Message} (hi : Indexed s)
    (hfresh : ∀ msg ∈ msgs, s.messages.lookup msg.id = none) {id : String} (hid : id ∈ s.order q) :
    (Memory.Store.storeAll s.messages msgs).lookup id = s.messages.lookup id := by
  refine Memory.storeAll_of_notMem (fun hm => ?_)
  obtain ⟨msg, hmsg, rfl⟩ := List.mem_map.mp hm
  exact hi.not_listed_of_none (hfresh msg hmsg) q hid

theorem joined_append {msgs : List Message} {now : Time} (hi : Indexed s) (ho : s.closed = false)
    (hn : (msgs.map Message.id).Nodup) (hfresh : ∀ msg ∈ msgs, s.messages.lookup msg.id = none)
    (hqueued : ∀ msg ∈ msgs, QueuedAt now msg) :
    Joined q now ((msgs.filter (fun msg => msg.queue = q)).map Message.id) s (s.append msgs).2 := by
  rw [Memory.append_of_fresh ho hfresh]
  have hold : ∀ id ∈ s.order q,
      (Memory.Store.storeAll s.messages msgs).lookup id = s.messages.lookup id :=
    fun id hid => lookup_storeAll_listed hi hfresh hid
  refine ⟨?_, fun id hid => ?_, fun id hid => ?_⟩
  · simp only [lineOf]
    rw [Memory.appendOrder_apply, List.filter_append]
    congr 1
    · exact List.filter_congr (fun id hid => by rw [waitingIn, hold id hid, waitingIn])
    · rw [List.filter_eq_self]
      intro id hid
      obtain ⟨msg, hm, rfl⟩ := List.mem_map.mp hid
      have hmsg := List.mem_of_mem_filter hm
      exact waitingIn_iff.mpr ⟨_, Memory.storeAll_of_nodup hn hmsg, Or.inl (hqueued msg hmsg).state⟩
  · rw [availableOf, hold id (List.mem_of_mem_filter hid), availableOf]
  · obtain ⟨msg, hm, rfl⟩ := List.mem_map.mp hid
    have hmsg := List.mem_of_mem_filter hm
    rw [availableOf, Memory.storeAll_of_nodup hn hmsg]
    exact (hqueued msg hmsg).available

/-! ## The in-memory driver -/

/-- The store is the line of this queue. -/
structure Backs (q : String) (s : Memory.Store) (l : Line) : Prop where
  indexed : Indexed s
  opened : s.closed = false
  known : ∀ id entry, s.messages.lookup id = some entry → id ∈ l.known
  waiting : l.waiting = lineOf s q
  inTurn : LineInTurn s q
  latest : ∀ id ∈ lineOf s q, availableOf s.messages id ≤ l.latest

theorem new_backs (q : String) (now : Time) : Backs q Memory.Store.new ⟨[], [], now⟩ where
  indexed := Memory.new_indexed
  opened := rfl
  known := fun id entry h => by simp [Memory.Store.new] at h
  waiting := rfl
  inTurn := List.Pairwise.nil
  latest := fun id h => absurd h List.not_mem_nil

section Backs
variable {l : Line} {readings : Set Time} {leases : Set Duration}

/-- The messages and the index matter, nothing else does. -/
theorem Backs.same (h : Backs q s l) (hi : Indexed t) (ho : t.closed = false)
    (hline : lineOf t q = lineOf s q)
    (hav : ∀ id, availableOf t.messages id = availableOf s.messages id)
    (hstored : ∀ id entry, t.messages.lookup id = some entry →
      ∃ entry', s.messages.lookup id = some entry') : Backs q t l where
  indexed := hi
  opened := ho
  known := by
    intro id entry hl
    obtain ⟨entry', hl'⟩ := hstored id entry hl
    exact h.known id entry' hl'
  waiting := h.waiting.trans hline.symm
  inTurn := by
    rw [LineInTurn, hline]
    exact h.inTurn.imp (fun hab => by simpa only [availableBefore, hav] using hab)
  latest := by
    rw [hline]
    exact fun id hid => (hav id).trans_le (h.latest id hid)

theorem Backs.fresh (h : Backs q s l) {id : String} (hid : id ∉ l.known) :
    s.messages.lookup id = none := by
  by_contra hne
  obtain ⟨entry, hl⟩ := Option.ne_none_iff_exists'.mp hne
  exact hid (h.known id entry hl)

theorem Backs.append (h : Backs q s l) {msgs : List Message}
    (ha : l.Admits readings leases q (.append msgs)) :
    l.Serves q (.append msgs) (s.append msgs).1 (l.join q msgs) ∧
      Backs q (s.append msgs).2 (l.join q msgs) := by
  obtain ⟨hn, hnew, now, -, hlate, hqueued⟩ := ha
  have hfresh : ∀ msg ∈ msgs, s.messages.lookup msg.id = none :=
    fun msg hm => h.fresh (hnew msg hm)
  have hindexed : Indexed (s.append msgs).2 := h.indexed.append hn
  have hjoined := joined_append (q := q) h.indexed h.opened hn hfresh hqueued
  rw [Memory.append_of_fresh h.opened hfresh] at hindexed hjoined ⊢
  have hlatest : l.latest ≤ (l.join q msgs).latest := by
    rcases Line.join_latest hqueued with hl | hl <;> rw [hl]
    exact hlate
  refine ⟨.appended msgs, hindexed, h.opened, ?_, ?_, ?_, ?_⟩
  · intro id entry hl
    by_cases hid : id ∈ msgs.map Message.id
    · exact List.mem_append_right _ hid
    · rw [Memory.storeAll_of_notMem hid] at hl
      exact List.mem_append_left _ (h.known id entry hl)
  · rw [hjoined.line, ← h.waiting]
    rfl
  · exact hjoined.inTurn h.inTurn (fun id hid => (h.latest id hid).trans hlate)
  · rw [hjoined.line]
    intro id hid
    rcases List.mem_append.mp hid with hid | hid
    · rw [hjoined.before id hid]
      exact (h.latest id hid).trans hlatest
    · rw [hjoined.added id hid]
      obtain ⟨msg, hm, -⟩ := List.mem_map.mp hid
      exact (Line.join_latest_of_mem hqueued (List.mem_of_mem_filter hm)).ge

theorem Backs.claim (h : Backs q s l) {req : ClaimRequest}
    (ha : l.Admits readings leases q (.claim req)) :
    ∃ l', l.Serves q (.claim req) (s.claim req).1 l' ∧ Backs q (s.claim req).2 l' := by
  obtain ⟨rfl, hlim, -, -⟩ := ha
  obtain ⟨claimed, hreply, hfront, hrest⟩ := h.inTurn.claim h.indexed h.opened hlim
  have hsuffix : lineOf (s.claim req).2 req.queue <:+ lineOf s req.queue := ⟨_, hfront.symm⟩
  refine ⟨{ l with waiting := lineOf (s.claim req).2 req.queue }, ?_, ?_⟩
  · rw [hreply]
    exact .claimed (h.waiting.trans hfront)
  · refine ⟨h.indexed.serveClaim req, ?_, ?_, rfl, ?_, ?_⟩
    · exact (Memory.exec_closed (c := .claim req) (by simp) s).trans h.opened
    · intro id entry hl
      have hstep := exec_recordStep h.indexed.keyed (.claim req) id
      rw [show (exec (.claim req) s).2.messages.lookup id = some entry from hl] at hstep
      cases hs : s.messages.lookup id with
      | none =>
        rw [hs] at hstep
        obtain ⟨_, _, ⟨⟩, -⟩ := RecordStep.of_none hstep
      | some entry' => exact h.known id entry' hs
    · refine (h.inTurn.sublist hsuffix.sublist).imp_of_mem (fun ha hb hab => ?_)
      rw [availableBefore, hrest _ ha, hrest _ hb]
      exact hab
    · intro id hid
      rw [hrest id hid]
      exact h.latest id (hsuffix.subset hid)

/-- A message that is settled does not wait. -/
theorem Backs.acknowledge (h : Backs q s l) (id : String) (now : Time) :
    Backs q (s.acknowledge id now).2 l := by
  have hindexed := Memory.exec_indexed h.indexed (.acknowledge id now) List.nodup_nil
  have hopened := (Memory.exec_closed (c := .acknowledge id now) (by simp) s).trans h.opened
  simp only [exec, Memory.Store.acknowledge_eq] at hindexed hopened
  rw [Memory.Store.acknowledge_eq]
  rcases s.onLeased_cases id (fun entry => (s.settle entry.msg.queue).put id
    (unleased (Memory.acknowledged entry.msg now))) with ⟨entry, hl, hp, he⟩ | ⟨e, he⟩
  · rw [he] at hindexed hopened ⊢
    refine h.same hindexed hopened ?_ ?_ ?_
    · refine List.filter_congr (fun x _ => ?_)
      by_cases hx : x = id
      · subst hx
        simp [waitingIn, hl, hp, Memory.acknowledged, unleased]
      · simp [waitingIn, hx]
    · intro x
      by_cases hx : x = id
      · subst hx
        simp [availableOf, hl, Memory.acknowledged, unleased]
      · simp [availableOf, hx]
    · intro x entry' hx
      by_cases hxid : x = id
      · exact ⟨entry, hxid ▸ hl⟩
      · exact ⟨entry', by simpa [hxid] using hx⟩
  · rw [he]
    exact h

theorem Backs.passive (h : Backs q s l) {c : Call} (hc : Memory.Passive c) (hclose : c ≠ .close)
    (hn : c.appendedIds.Nodup) : Backs q (exec c s).2 l := by
  obtain ⟨hm, horder, -⟩ := Memory.exec_passive hc s
  refine h.same (Memory.exec_indexed h.indexed c hn) ((Memory.exec_closed hclose s).trans h.opened)
    ?_ (fun id => by rw [hm]) (fun id entry hl => ⟨entry, hm ▸ hl⟩)
  rw [lineOf, lineOf, hm, horder]

/-- The in-memory driver serves a line. -/
theorem Backs.serve (h : Backs q s l) {c : Call} (ha : l.Admits readings leases q c) :
    ∃ l', l.Serves q c (exec c s).1 l' ∧ Backs q (exec c s).2 l' := by
  cases c with
  | append msgs => exact ⟨_, h.append ha⟩
  | claim req => exact h.claim ha
  | acknowledge id now => exact ⟨l, .acknowledged id now _, h.acknowledge id now⟩
  | appendHistory event =>
    exact ⟨l, .recorded event _, h.passive trivial (by simp) List.nodup_nil⟩
  | saveDeadLetter letter newID =>
    exact ⟨l, .parked letter newID _, h.passive trivial (by simp) List.nodup_nil⟩
  | _ => exact ha.elim

end Backs

/-! ## The SQLite driver -/

/-- The database is the line of this queue. -/
def BacksOnDisk (json : JsonMaps) (q : String) (db : Sqlite.Database) (l : Line) : Prop :=
  db.closed = false ∧ ∃ s, Backs q s l ∧ Corresponds json s db.toDb

theorem new_backsOnDisk (json : JsonMaps) (q : String) (now : Time) :
    BacksOnDisk json q Sqlite.Database.new ⟨[], [], now⟩ :=
  ⟨rfl, Memory.Store.new, new_backs q now, Sqlite.new_corresponds⟩

section OnDisk
variable {json : JsonMaps} {db : Sqlite.Database} {l : Line} {readings : Set Time}
  {leases : Set Duration}

/-- A batch without payloads is refused. -/
theorem BacksOnDisk.append (h : BacksOnDisk json q db l) (hyears : ∀ t ∈ readings, InYears t)
    {msgs : List Message} (ha : l.Admits readings leases q (.append msgs)) :
    ∃ l', l.Serves q (.append msgs) (Sqlite.call json (.append msgs) db).1 l' ∧
      BacksOnDisk json q (Sqlite.call json (.append msgs) db).2 l' := by
  obtain ⟨ho, s, hb, hc⟩ := h
  rw [Sqlite.call_of_open json ho]
  by_cases hp : ∀ msg ∈ msgs, msg.payload ≠ none
  · obtain ⟨hserves, hbacks⟩ := hb.append ha
    obtain ⟨hn, hnew, now, hnow, -, hqueued⟩ := ha
    have hfresh : ∀ msg ∈ msgs, s.messages.lookup msg.id = none :=
      fun msg hm => hb.fresh (hnew msg hm)
    have hunlisted : ∀ msg ∈ msgs, ∀ p, msg.id ∉ s.order p :=
      fun msg hm => hb.indexed.not_listed_of_none (hfresh msg hm)
    have hregular : ∀ msg ∈ msgs, Sqlite.Regular (unleased msg.clone) := by
      intro msg hm
      obtain ⟨-, hcreated, hupdated, havailable⟩ := hqueued msg hm
      have hnow' := hyears now hnow
      exact ⟨Payload.copied_copied msg.payload, hcreated ▸ hnow', hupdated ▸ hnow',
        havailable ▸ hnow', Sqlite.inYears_zeroTime⟩
    obtain ⟨hreply, hc'⟩ := hc.append hb.opened hn hfresh hunlisted hp hregular
    refine ⟨_, ?_, ho, _, hbacks, hc'⟩
    rw [← show (s.append msgs).1 = (Sqlite.serve json (.append msgs) db).1 from hreply]
    exact hserves
  · push Not at hp
    obtain ⟨msg, hm, hempty⟩ := hp
    cases hloop : Sqlite.insertLoop json msgs db.messages db.nextSeq with
    | ok rows => exact absurd hempty ((Sqlite.insertLoop_eq_ok.mp hloop).1 msg hm)
    | error e =>
      have hcall : Sqlite.serve json (.append msgs) db = (.error e, db) := by
        simp only [Sqlite.serve, Sqlite.Db.append, hloop]
        rfl
      rw [hcall]
      exact ⟨l, .refused msgs e, ho, s, hb, hc⟩

theorem BacksOnDisk.claim (h : BacksOnDisk json q db l) (hyears : ∀ t ∈ readings, InYears t)
    (hends : ∀ t ∈ readings, ∀ d ∈ leases, InYears (t + d) ∧ t + d ≠ zeroTime)
    {req : ClaimRequest} (ha : l.Admits readings leases q (.claim req)) :
    ∃ l', l.Serves q (.claim req) (Sqlite.call json (.claim req) db).1 l' ∧
      BacksOnDisk json q (Sqlite.call json (.claim req) db).2 l' := by
  obtain ⟨ho, s, hb, hc⟩ := h
  rw [Sqlite.call_of_open json ho]
  obtain ⟨l', hserves, hbacks⟩ := hb.claim ha
  obtain ⟨rfl, hlim, hnow, hlease⟩ := ha
  obtain ⟨hend, hzero⟩ := hends _ hnow _ hlease
  have hpicks := hb.inTurn.picks_eq hb.indexed hc
  obtain ⟨hmemory, hsqlite, hc'⟩ := hc.claim hb.indexed hb.opened hlim (hyears _ hnow) hend hzero
    (by rw [hpicks])
  refine ⟨l', ?_, ho, _, hbacks, hc'⟩
  have hreply : (s.claim req).1 = (Sqlite.serve json (.claim req) db).1 := by
    rw [hmemory, ← hpicks, ← hsqlite]
    rfl
  rw [← hreply]
  exact hserves

/-- The SQLite driver serves a line. -/
theorem BacksOnDisk.serve (h : BacksOnDisk json q db l) (hyears : ∀ t ∈ readings, InYears t)
    (hends : ∀ t ∈ readings, ∀ d ∈ leases, InYears (t + d) ∧ t + d ≠ zeroTime) {c : Call}
    (ha : l.Admits readings leases q c) :
    ∃ l', l.Serves q c (Sqlite.call json c db).1 l' ∧
      BacksOnDisk json q (Sqlite.call json c db).2 l' := by
  cases c with
  | append msgs => exact h.append hyears ha
  | claim req => exact h.claim hyears hends ha
  | acknowledge id now =>
    refine ⟨l, .acknowledged id now _, ?_⟩
    obtain ⟨ho, s, hb, hc⟩ := h
    rw [Sqlite.call_of_open json ho]
    exact ⟨ho, _, hb.acknowledge id now, (hc.acknowledge id (hyears now ha)).2⟩
  | appendHistory event =>
    refine ⟨l, .recorded event _, ?_⟩
    obtain ⟨ho, s, hb, hc⟩ := h
    rw [Sqlite.call_of_open json ho]
    exact ⟨ho, s, hb, hc⟩
  | saveDeadLetter letter newID =>
    refine ⟨l, .parked letter newID _, ?_⟩
    obtain ⟨ho, s, hb, hc⟩ := h
    rw [Sqlite.call_of_open json ho]
    simp only [Sqlite.serve, Sqlite.Database.saveDeadLetter]
    split_ifs
    · exact ⟨ho, s, hb, hc⟩
    · split <;> exact ⟨ho, s, hb, hc⟩
    · exact ⟨ho, s, hb, hc⟩
    · split <;> exact ⟨ho, s, hb, hc⟩
  | _ => exact ha.elim

end OnDisk
end RabbitmqLite.Storage
