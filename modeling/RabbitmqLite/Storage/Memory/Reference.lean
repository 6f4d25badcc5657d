import RabbitmqLite.Atomic.Machine
import RabbitmqLite.Storage.Memory.Index
import RabbitmqLite.Storage.Memory.Lifecycle

/-! # The in-memory driver against a store that never compacts

The reference store keeps, for every queue, the ids of all messages ever
appended to it, and says directly what each method is for. It has no settled
counter. Every run of the message methods gets the same replies from both.
-/

namespace RabbitmqLite.Storage.Memory
open Broker Collections Atomic

/-- The reference store. The index of a queue only ever grows. -/
structure Reference where
  queues : Map String Queue
  messages : Messages
  index : String → List String

namespace Reference

def new : Reference := ⟨∅, ∅, fun _ => []⟩

def append (r : Reference) (msgs : List Message) : Except Error Unit × Reference :=
  if msgs.any (fun msg => (r.messages.lookup msg.id).isSome) then (.error .conflict, r)
  else
    (.ok (), { r with
      messages := Store.storeAll r.messages msgs
      index := fun q => r.index q ++ (msgs.filter (fun msg => msg.queue = q)).map Message.id })

/-- The first claimable messages of the queue in append order. -/
def picked (r : Reference) (req : ClaimRequest) : List String :=
  ((r.index req.queue).filter (claimableIn r.messages req.now)).take req.limit.toNat

def claim (r : Reference) (req : ClaimRequest) : Except Error (List Message) × Reference :=
  (.ok ((r.picked req).filterMap (handedOut req r.messages)),
    { r with messages := adjustAll (takenOver req) r.messages (r.picked req) })

/-- Settle a message that is in processing. -/
def onLeased (r : Reference) (id : String) (change : Message → Message) :
    Except Error Unit × Reference :=
  match r.messages.lookup id with
  | none => (.error .notFound, r)
  | some entry =>
    if entry.msg.state = .processing then
      (.ok (), { r with messages := r.messages.insert id (unleased (change entry.msg)) })
    else (.error (.state id .processing entry.msg.state), r)

def markDeadLettered (r : Reference) (id reason : String) (now : Time) :
    Except Error Unit × Reference :=
  match r.messages.lookup id with
  | none => (.error .notFound, r)
  | some entry =>
    if Doomable entry.msg.state then
      (.ok (), { r with
        messages := r.messages.insert id (unleased (deadLettered entry.msg reason now)) })
    else (.error (.transition (.invalidTransition entry.msg.state .deadLettered)), r)

def message (r : Reference) (id : String) : Except Error Message × Reference :=
  match r.messages.lookup id with
  | none => (.error .notFound, r)
  | some entry => (.ok entry.msg, r)

def depth (r : Reference) (queue : String) : Except Error Depth × Reference :=
  match r.queues.lookup queue with
  | none => (.error .notFound, r)
  | some _ =>
    (.ok (Depth.withTotal (depthLoop r.messages (r.index queue) ⟨0, 0, 0, 0⟩)), r)

def purge (r : Reference) (queue : String) : Except Error ℤ × Reference :=
  match r.queues.lookup queue with
  | none => (.error .notFound, r)
  | some _ =>
    let doomed := (r.index queue).filter (live r.messages)
    (.ok doomed.length, { r with messages := eraseAll r.messages doomed })

def exec : (c : MessageCall) → Reference → c.Reply × Reference
  | .saveQueue queue, r => (.ok (), { r with queues := r.queues.insert queue.name queue })
  | .append msgs, r => r.append msgs
  | .message id, r => r.message id
  | .claim req, r => r.claim req
  | .acknowledge id now, r => r.onLeased id (fun msg => acknowledged msg now)
  | .scheduleRetry req, r => r.onLeased req.id (fun msg => retried msg req)
  | .release id now, r => r.onLeased id (fun msg => released msg now)
  | .markDeadLettered id reason now, r => r.markDeadLettered id reason now
  | .expiredLeases now limit, r => (.ok (limited limit (expired r.messages now)), r)
  | .depth queue, r => r.depth queue
  | .purge queue, r => r.purge queue

end Reference

/-- The driver, restricted to the methods that serve messages. -/
def execMessage (c : MessageCall) (s : Store) : c.Reply × Store := exec c.toCall s

/-- A store and a reference that hold the same messages and list the same live ids. -/
structure Similar (s : Store) (r : Reference) : Prop where
  queues : r.queues = s.queues
  messages : r.messages = s.messages
  live_eq : ∀ q, (s.order q).filter (live s.messages) = (r.index q).filter (live s.messages)

theorem Compacted.similar {s t : Store} {r : Reference} (h : Compacted s t) (hs : Similar s r) :
    Similar t r where
  queues := by rw [h.frame, hs.queues]
  messages := by rw [h.messages_eq, hs.messages]
  live_eq := by
    intro q
    rw [h.messages_eq, h.live_eq q, hs.live_eq q]

/-- The messages change in both alike, and no settled id comes back to life. -/
theorem Similar.update {s : Store} {r : Reference} (h : Similar s r) {m m' : Messages}
    (hm : ∀ id, m'.lookup id = m.lookup id)
    (hd : ∀ id, live m id = true → live s.messages id = true) :
    Similar { s with messages := m } { r with messages := m' } where
  queues := h.queues
  messages := Finmap.ext_lookup hm
  live_eq := fun q => filter_eq_of_imp (h.live_eq q) hd

theorem Similar.filter_claimable {s : Store} {r : Reference} (h : Similar s r) (q : String)
    (now : Time) : (s.order q).filter (claimableIn s.messages now) =
      (r.index q).filter (claimableIn s.messages now) := by
  apply filter_eq_of_imp (h.live_eq q)
  intro id hid
  obtain ⟨entry, hl, hc⟩ := claimableIn_iff.mp hid
  simp [live, isSettled_eq_false.mpr ⟨entry, hl, terminal_of_claimable hc⟩]

/-- Settled ids do not count. -/
theorem depthLoop_filter_live (m : Messages) (ids : List String) (d : Depth) :
    depthLoop m (ids.filter (live m)) d = depthLoop m ids d := by
  induction ids generalizing d with
  | nil => rfl
  | cons id ids ih =>
    cases hl : m.lookup id with
    | none =>
      have hs : live m id = false := by simp [live, isSettled, hl]
      simp [hs, ih, depthLoop, hl]
    | some entry =>
      by_cases ht : entry.msg.state.terminal = true
      · have hs : live m id = false := by simp [live, isSettled, hl, ht]
        have hcount : Depth.count d entry.msg.state = d := by
          cases h : entry.msg.state <;> simp_all [State.terminal_eq, Depth.count]
        simp [hs, ih, depthLoop, hl, hcount]
      · have hs : live m id = true := by simp [live, isSettled, hl, ht]
        simp [hs, ih, depthLoop, hl]

/-! ## Each method gets the same reply from both -/

/-- Both answer the call alike and are similar afterwards. -/
def Agree (c : MessageCall) (s : Store) (r : Reference) : Prop :=
  (execMessage c s).1 = (Reference.exec c r).1 ∧
    Similar (execMessage c s).2 (Reference.exec c r).2

theorem agree_saveQueue {s : Store} {r : Reference} (h : Similar s r) (ho : s.closed = false)
    (queue : Queue) : Agree (.saveQueue queue) s r := by
  simp only [Agree, execMessage, exec, Store.saveQueue, Store.unlessClosed, ho,
    Bool.false_eq_true, if_false, Reference.exec]
  exact ⟨trivial, by rw [h.queues], h.messages, h.live_eq⟩

/-- Fresh ids are appended at the end of both indexes. -/
theorem agree_append {s : Store} {r : Reference} (h : Similar s r) (ho : s.closed = false)
    {msgs : List Message} (hstored : ∀ msg ∈ msgs, s.messages.lookup msg.id = none)
    (hindex : ∀ q, ∀ msg ∈ msgs, msg.id ∉ s.order q ∧ msg.id ∉ r.index q) :
    Agree (.append msgs) s r := by
  have hany : msgs.any (fun msg => (s.messages.lookup msg.id).isSome) = false := by
    simpa using hstored
  simp only [Agree, execMessage, exec, Store.append, Store.unlessClosed, ho, Bool.false_eq_true,
    if_false, Reference.exec, Reference.append, h.messages, hany]
  refine ⟨trivial, h.queues, rfl, fun q => ?_⟩
  have hsame : ∀ id, id ∉ msgs.map Message.id →
      live (Store.storeAll s.messages msgs) id = live s.messages id :=
    fun id hid => by rw [live, isSettled, storeAll_of_notMem hid, live, isSettled]
  have hfilter : ∀ l : List String, (∀ msg ∈ msgs, msg.id ∉ l) →
      l.filter (live (Store.storeAll s.messages msgs)) = l.filter (live s.messages) := by
    intro l hl
    apply List.filter_congr
    intro id hid
    apply hsame
    intro hc
    obtain ⟨msg, hm, rfl⟩ := List.mem_map.mp hc
    exact hl msg hm hid
  dsimp only
  rw [appendOrder_apply, List.filter_append, List.filter_append,
    hfilter _ (fun msg hm => (hindex q msg hm).1), hfilter _ (fun msg hm => (hindex q msg hm).2),
    h.live_eq q]

theorem Similar.picked_nodup {s : Store} {r : Reference} (h : Similar s r) (hi : Indexed s)
    (req : ClaimRequest) : (r.picked req).Nodup := by
  rw [Reference.picked, h.messages, ← h.filter_claimable]
  exact ((hi.nodup req.queue).filter _).sublist (List.take_sublist _ _)

theorem agree_claim {s : Store} {r : Reference} (h : Similar s r) (hi : Indexed s)
    (ho : s.closed = false) {req : ClaimRequest} (hlim : 0 ≤ req.limit) :
    Agree (.claim req) s r := by
  obtain ⟨t, messages, hc, hm, he⟩ := hi.claim ho hlim
  have ht := hc.similar h
  have hp : ((t.order req.queue).filter (claimableIn s.messages req.now)).take req.limit.toNat =
      r.picked req := by
    rw [Reference.picked, h.messages, ← hc.messages_eq, ht.filter_claimable]
  rw [hp] at hm he
  simp only [Agree, execMessage, exec, he, Reference.exec, Reference.claim, h.messages]
  refine ⟨trivial, ht.update (fun id => ?_) (fun id hid => ?_)⟩
  · rw [lookup_adjustAll _ _ (h.picked_nodup hi req), hm]
  · have hr : Refreshed s.messages messages := by
      refine refreshed_takenOver (fun id hid => ?_) hm
      rw [Reference.picked, h.messages] at hid
      exact (List.mem_filter.mp (List.mem_of_mem_take hid)).2
    rw [live, hr.isSettled_eq] at hid
    rw [hc.messages_eq]
    exact hid

/-- Putting a new record in the place of a live one revives nothing. -/
theorem live_of_insert {m : Messages} {id : String} {e e' : Record}
    (hl : m.lookup id = some e) (ht : e.msg.state.terminal = false) (x : String)
    (hx : live (m.insert id e') x = true) : live m x = true := by
  by_cases hxid : x = id
  · subst hxid
    simp [live, isSettled_eq_false.mpr ⟨e, hl, ht⟩]
  · rw [live, isSettled_insert, if_neg hxid] at hx
    exact hx

/-- The settling methods agree, whatever else the driver does to its counter. -/
theorem Similar.onLeased {s : Store} {r : Reference} (h : Similar s r) (id : String)
    {change : Record → Store} {target : Message → Message}
    (hmsg : ∀ entry, ∃ settled, change entry = { s with
      messages := s.messages.insert id (unleased (target entry.msg)), settled := settled }) :
    (s.onLeased id change).1 = (r.onLeased id target).1 ∧
      Similar (s.onLeased id change).2 (r.onLeased id target).2 := by
  unfold Store.onLeased Store.leased Reference.onLeased
  rw [h.messages]
  cases hl : s.messages.lookup id with
  | none => exact ⟨rfl, h⟩
  | some entry =>
    by_cases hp : entry.msg.state = .processing
    · obtain ⟨settled, hc⟩ := hmsg entry
      simp only [hp, ne_eq, not_true_eq_false, if_false, if_true, hc]
      have hu := h.update (m := s.messages.insert id (unleased (target entry.msg)))
        (fun _ => rfl) (live_of_insert hl (by rw [hp]; rfl))
      exact ⟨trivial, hu.queues, hu.messages, hu.live_eq⟩
    · simp only [hp, ne_eq, not_false_eq_true, if_true, if_false]
      exact ⟨trivial, h⟩

theorem agree_markDeadLettered {s : Store} {r : Reference} (h : Similar s r) (id reason : String)
    (now : Time) : Agree (.markDeadLettered id reason now) s r := by
  simp only [Agree, execMessage, exec, Store.markDeadLettered_eq, Reference.exec,
    Reference.markDeadLettered, h.messages]
  cases hl : s.messages.lookup id with
  | none => exact ⟨rfl, h⟩
  | some entry =>
    dsimp only
    split_ifs with hd
    · have ht : entry.msg.state.terminal = false := by
        rcases hd with hd | hd <;> rw [hd] <;> rfl
      have hu := h.update (m := s.messages.insert id
        (unleased (deadLettered entry.msg reason now))) (fun _ => rfl)
        (live_of_insert hl ht)
      exact ⟨rfl, hu.queues, hu.messages, hu.live_eq⟩
    · exact ⟨rfl, h⟩

theorem agree_depth {s : Store} {r : Reference} (h : Similar s r) (queue : String) :
    Agree (.depth queue) s r := by
  simp only [Agree, execMessage, exec, Store.depth, Reference.exec, Reference.depth, h.queues,
    h.messages]
  cases s.queues.lookup queue with
  | none => exact ⟨rfl, h⟩
  | some q =>
    dsimp only
    rw [← depthLoop_filter_live, h.live_eq, depthLoop_filter_live]
    exact ⟨rfl, h⟩

theorem agree_purge {s : Store} {r : Reference} (h : Similar s r) (hi : Indexed s)
    (queue : String) : Agree (.purge queue) s r := by
  simp only [Agree, execMessage, exec, Reference.exec, Reference.purge, h.queues, h.messages]
  cases hq : s.queues.lookup queue with
  | none =>
    rw [Store.purge, hq]
    exact ⟨rfl, h⟩
  | some q =>
    obtain ⟨messages, hm, hp⟩ := hi.purge_eq hq
    rw [hp, h.live_eq]
    have hu : Similar { s with messages := messages } { r with
        messages := eraseAll s.messages ((r.index queue).filter (live s.messages)) } := by
      refine h.update (fun id => ?_) (fun id hid => ?_)
      · rw [lookup_eraseAll, hm, h.live_eq]
      · unfold live isSettled at hid ⊢
        rw [hm] at hid
        split_ifs at hid
        · simp at hid
        · exact hid
    refine ⟨rfl, rfl, hu.messages, fun p => ?_⟩
    refine Eq.trans ?_ (hu.live_eq p)
    by_cases hpq : p = queue
    · subst hpq
      -- What the purge dropped from the index it also deleted.
      simp only [Function.update_self, List.filter_filter]
      apply List.filter_congr
      intro id hid
      cases hs : isSettled s.messages id with
      | true => simp
      | false =>
        have hin : id ∈ (s.order p).filter (live s.messages) :=
          List.mem_filter.mpr ⟨hid, by simp [live, hs]⟩
        simp [live, isSettled, hm, hin]
    · simp [hpq]

theorem agree_exec {s : Store} {r : Reference} (h : Similar s r) (hi : Indexed s)
    (ho : s.closed = false) (c : MessageCall)
    (hstored : ∀ msg ∈ c.appended, s.messages.lookup msg.id = none)
    (hindex : ∀ q, ∀ msg ∈ c.appended, msg.id ∉ s.order q ∧ msg.id ∉ r.index q)
    (hlim : ∀ req, c = .claim req → 0 ≤ req.limit) : Agree c s r := by
  cases c with
  | saveQueue queue => exact agree_saveQueue h ho queue
  | append msgs => exact agree_append h ho hstored hindex
  | message id =>
    simp only [Agree, execMessage, exec, Store.message, Reference.exec, Reference.message,
      h.messages]
    cases s.messages.lookup id <;> exact ⟨rfl, h⟩
  | claim req => exact agree_claim h hi ho (hlim req rfl)
  | acknowledge id now =>
    simp only [Agree, execMessage, exec, Store.acknowledge_eq, Reference.exec]
    exact h.onLeased id (fun entry => ⟨_, rfl⟩)
  | scheduleRetry req =>
    simp only [Agree, execMessage, exec, Store.scheduleRetry_eq, Reference.exec]
    exact h.onLeased req.id (fun entry => ⟨_, rfl⟩)
  | release id now =>
    simp only [Agree, execMessage, exec, Store.release_eq, Reference.exec]
    exact h.onLeased id (fun entry => ⟨_, rfl⟩)
  | markDeadLettered id reason now => exact agree_markDeadLettered h id reason now
  | expiredLeases now limit =>
    simp only [Agree, execMessage, exec, Store.expiredLeases, Reference.exec, h.messages]
    exact ⟨trivial, h⟩
  | depth queue => exact agree_depth h queue
  | purge queue => exact agree_purge h hi queue

/-! ## Whole runs -/

/-- Appended ids are new and claims ask for no negative number of messages. -/
structure LegalRun (cs : List MessageCall) : Prop where
  nodup : ((cs.flatMap MessageCall.appended).map Message.id).Nodup
  limit : ∀ req, .claim req ∈ cs → 0 ≤ req.limit

theorem LegalRun.of_append {cs ds : List MessageCall} (h : LegalRun (cs ++ ds)) : LegalRun cs := by
  refine ⟨?_, fun req hm => h.limit req (List.mem_append_left _ hm)⟩
  have hn := h.nodup
  rw [List.flatMap_append, List.map_append] at hn
  exact hn.of_append_left

theorem LegalRun.last_fresh {cs : List MessageCall} {c : MessageCall} (h : LegalRun (cs ++ [c]))
    {msg : Message} (hm : msg ∈ c.appended) :
    msg.id ∉ (cs.flatMap MessageCall.appended).map Message.id := by
  have hn := h.nodup
  rw [List.flatMap_append, List.map_append] at hn
  intro hc
  exact List.disjoint_of_nodup_append hn hc (List.mem_map_of_mem (by simpa using hm))

theorem LegalRun.last_nodup {cs : List MessageCall} {c : MessageCall}
    (h : LegalRun (cs ++ [c])) : (c.appended.map Message.id).Nodup := by
  have hn := h.nodup
  rw [List.flatMap_append, List.map_append] at hn
  simpa using hn.of_append_right

theorem mem_appendOrderOf {cs : List MessageCall} {q id : String} (h : id ∈ appendOrderOf cs q) :
    id ∈ (cs.flatMap MessageCall.appended).map Message.id :=
  (List.filter_sublist.map _).subset h

theorem appendOrderOf_snoc (cs : List MessageCall) (c : MessageCall) (q : String) :
    appendOrderOf (cs ++ [c]) q =
      appendOrderOf cs q ++ (c.appended.filter (fun msg => msg.queue = q)).map Message.id := by
  simp [appendOrderOf]

theorem execMessage_closed (c : MessageCall) (s : Store) :
    (execMessage c s).2.closed = s.closed := by
  cases c with
  | saveQueue | append =>
    simp only [execMessage, exec, Store.saveQueue, Store.append, Store.unlessClosed]
    split_ifs <;> rfl
  | message | depth | purge =>
    simp only [execMessage, exec, Store.message, Store.depth, Store.purge]
    split <;> rfl
  | claim req =>
    obtain ⟨order, settled, ⟨e, h⟩ | ⟨picked, messages, -, -, h⟩⟩ := s.claim_cases req <;>
      simp only [execMessage, exec, h]
  | acknowledge | scheduleRetry | release =>
    simp only [execMessage, exec, Store.acknowledge_eq, Store.scheduleRetry_eq, Store.release_eq,
      Store.onLeased]
    split <;> rfl
  | markDeadLettered =>
    simp only [execMessage, exec, Store.markDeadLettered_eq]
    split
    · rfl
    · split_ifs <;> rfl
  | expiredLeases => rfl

/-- What a legal run keeps between the driver and the reference. -/
structure Matches (cs : List MessageCall) (s : Store) (r : Reference) : Prop where
  similar : Similar s r
  indexed : Indexed s
  opened : s.closed = false
  index : ∀ q, r.index q = appendOrderOf cs q
  known : ∀ id entry, s.messages.lookup id = some entry →
    id ∈ (cs.flatMap MessageCall.appended).map Message.id

theorem new_matches : Matches [] Store.new Reference.new where
  similar := ⟨rfl, rfl, fun _ => rfl⟩
  indexed := new_indexed
  opened := rfl
  index := fun _ => rfl
  known := fun id entry h => by simp [Store.new] at h

theorem Matches.agree {cs : List MessageCall} {c : MessageCall} {s : Store} {r : Reference}
    (h : Matches cs s r) (hl : LegalRun (cs ++ [c])) : Agree c s r := by
  refine agree_exec h.similar h.indexed h.opened c (fun msg hm => ?_) (fun q msg hm => ⟨?_, ?_⟩) ?_
  · by_contra hc
    obtain ⟨entry, he⟩ := Option.ne_none_iff_exists'.mp hc
    exact hl.last_fresh hm (h.known _ entry he)
  · intro hq
    obtain ⟨entry, he, -⟩ := h.indexed.listed q _ hq
    exact hl.last_fresh hm (h.known _ entry he)
  · rw [h.index q]
    exact fun hq => hl.last_fresh hm (mem_appendOrderOf hq)
  · rintro req rfl
    exact hl.limit req (by simp)

theorem Reference.exec_index {c : MessageCall} {r : Reference}
    (hfresh : ∀ msg ∈ c.appended, r.messages.lookup msg.id = none) (q : String) :
    (Reference.exec c r).2.index q =
      r.index q ++ (c.appended.filter (fun msg => msg.queue = q)).map Message.id := by
  cases c with
  | append msgs =>
    have hany : msgs.any (fun msg => (r.messages.lookup msg.id).isSome) = false := by
      simpa [MessageCall.appended] using hfresh
    simp [Reference.exec, Reference.append, hany, MessageCall.appended]
  | message | depth | purge =>
    simp only [Reference.exec, Reference.message, Reference.depth, Reference.purge]
    split <;> simp [MessageCall.appended]
  | acknowledge | scheduleRetry | release | markDeadLettered =>
    simp only [Reference.exec, Reference.onLeased, Reference.markDeadLettered]
    split
    · simp [MessageCall.appended]
    · split_ifs <;> simp [MessageCall.appended]
  | saveQueue | claim | expiredLeases =>
    simp [Reference.exec, Reference.claim, MessageCall.appended]

theorem Matches.step {cs : List MessageCall} {c : MessageCall} {s : Store} {r : Reference}
    (h : Matches cs s r) (hl : LegalRun (cs ++ [c])) :
    Matches (cs ++ [c]) (execMessage c s).2 (Reference.exec c r).2 where
  similar := (h.agree hl).2
  indexed := by
    refine exec_indexed h.indexed c.toCall ?_
    have hn := hl.last_nodup
    cases c with
    | append msgs => exact hn
    | _ => exact List.nodup_nil
  opened := by rw [execMessage_closed, h.opened]
  index := by
    intro q
    rw [Reference.exec_index, h.index q, appendOrderOf_snoc]
    intro msg hm
    by_contra hc
    obtain ⟨entry, he⟩ := Option.ne_none_iff_exists'.mp hc
    rw [h.similar.messages] at he
    exact hl.last_fresh hm (h.known _ entry he)
  known := by
    intro id entry he
    rw [List.flatMap_append, List.map_append, List.mem_append]
    have hs := exec_recordStep h.indexed.keyed c.toCall id
    cases ho : s.messages.lookup id with
    | some e => exact Or.inl (h.known id e ho)
    | none =>
      rw [ho] at hs
      change (exec c.toCall s).2.messages.lookup id = some entry at he
      rw [he] at hs
      obtain ⟨msgs, msg, hc, -, hm, rfl, -⟩ := hs.of_none
      right
      cases c <;> cases hc
      simpa [MessageCall.appended] using ⟨msg, hm, rfl⟩

/-- The driver after a run from the empty store. -/
def storeAfter (cs : List MessageCall) : Store := after execMessage Store.new cs

theorem matches_after {cs : List MessageCall} (h : LegalRun cs) :
    Matches cs (storeAfter cs) (after Reference.exec Reference.new cs) :=
  simulation_after (fun _ _ hl => hl.of_append) new_matches
    (fun _ _ _ _ hl hm => hm.step hl) cs h

/-- What it means that compaction cannot be observed along a run. -/
structure CompactionInvisible (cs : List MessageCall) : Prop where
  replies : trace execMessage Store.new cs = trace Reference.exec Reference.new cs
  first : ∀ ds req fs, cs = ds ++ .claim req :: fs →
    let messages := (storeAfter ds).messages
    let picked := ((appendOrderOf ds req.queue).filter
      (claimableIn messages req.now)).take req.limit.toNat
    ((storeAfter ds).claim req).1 = .ok (picked.filterMap (handedOut req messages)) ∧
      ∀ id, id ∉ picked → (storeAfter (ds ++ [.claim req])).messages.lookup id = messages.lookup id
  capacity : ∀ ds fs, cs = ds ++ fs → ∀ q,
    (storeAfter ds).settled q ≤
      (((storeAfter ds).order q).countP (isSettled (storeAfter ds).messages) : ℕ) ∧
    0 ≤ ((storeAfter ds).trimHead q).retainedCapacity q

/-- Along every legal run the driver answers as the store that never compacts. -/
theorem compaction_invisible (cs : List MessageCall) (h : LegalRun cs) :
    CompactionInvisible cs where
  replies := simulation_trace (fun _ _ hl => hl.of_append) new_matches
    (fun _ _ _ _ hl hm => hm.step hl) (fun _ _ _ _ hl hm => (hm.agree hl).1) cs h
  first := by
    rintro ds req fs rfl
    have hl : LegalRun (ds ++ [.claim req]) := by
      rw [List.append_cons] at h
      exact h.of_append
    have hm := matches_after hl.of_append
    obtain ⟨hr, hs⟩ := hm.agree hl
    have hp : (after Reference.exec Reference.new ds).picked req =
        ((appendOrderOf ds req.queue).filter
          (claimableIn (storeAfter ds).messages req.now)).take req.limit.toNat := by
      rw [Reference.picked, hm.index, hm.similar.messages]
    refine ⟨?_, fun id hid => ?_⟩
    · simpa only [execMessage, exec, Reference.exec, Reference.claim, hp, hm.similar.messages]
        using hr
    · have hafter :
          storeAfter (ds ++ [.claim req]) = (execMessage (.claim req) (storeAfter ds)).2 := by
        simp [storeAfter]
      rw [hafter, ← hs.messages, Reference.exec, Reference.claim,
        lookup_adjustAll _ _ (hm.similar.picked_nodup hm.indexed req), hp, if_neg hid,
        hm.similar.messages]
  capacity := by
    rintro ds fs rfl q
    have hi := (matches_after h.of_append).indexed
    exact ⟨(hi.counted q).2, (hi.trimHead q).indexed.retainedCapacity_nonneg q⟩

/-- The claim at the end trims the acknowledged id from the head of the index. -/
def trimmedHead : List MessageCall :=
  [.saveQueue ⟨⟨"orders", true, 3, 30 * second, ""⟩, 1⟩,
    .append [arrival "a" "orders" 1, arrival "b" "orders" 1],
    .claim ⟨"orders", "c", 1, 10, 2⟩, .acknowledge "a" 3, .claim ⟨"orders", "c", 5, 10, 4⟩]

theorem compaction_invisible_trimmedHead :
    LegalRun trimmedHead ∧ (storeAfter trimmedHead).order "orders" = ["b"] ∧
      CompactionInvisible trimmedHead := by
  have hl : LegalRun trimmedHead := ⟨by decide, by simp [trimmedHead]⟩
  exact ⟨hl, by decide, compaction_invisible _ hl⟩

end RabbitmqLite.Storage.Memory
