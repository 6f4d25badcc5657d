import RabbitmqLite.Storage.Memory.Index
import RabbitmqLite.Storage.Memory.Lifecycle

/-! # What a queue holds

The methods for whole queues in terms of the messages the store has, not of the
index: with a sound index a depth counts them, a purge and the deletion of the
queue remove those that are not settled.
-/

namespace RabbitmqLite.Storage.Memory
open Broker Collections Atomic

/-- The store has a message of this queue under the id, in such a state. -/
def holds (m : Messages) (queue : String) (p : State → Bool) (id : String) : Bool :=
  match m.lookup id with
  | none => false
  | some entry => entry.msg.queue == queue && p entry.msg.state

/-- The number of messages of a queue in such a state. -/
def countOf (m : Messages) (queue : String) (p : State → Bool) : ℕ :=
  (sortedKeys m).countP (holds m queue p)

/-- A message of the queue that is neither acknowledged nor dead-lettered. -/
def pending (m : Messages) (queue id : String) : Bool :=
  holds m queue (fun state => !state.terminal) id

theorem holds_iff {m : Messages} {queue id : String} {p : State → Bool} :
    holds m queue p id = true ↔
      ∃ entry, m.lookup id = some entry ∧ entry.msg.queue = queue ∧ p entry.msg.state = true := by
  unfold holds
  cases m.lookup id <;> simp

theorem pending_iff {m : Messages} {queue id : String} :
    pending m queue id = true ↔ ∃ entry, m.lookup id = some entry ∧ entry.msg.queue = queue ∧
      entry.msg.state.terminal = false := by
  simp [pending, holds_iff]

/-- The index lists every pending message of its queue exactly once. -/
theorem Indexed.countP_order {s : Store} (h : Indexed s) (q : String) (p : State → Bool)
    (hp : ∀ state, p state = true → state.terminal = false) :
    (s.order q).countP (holds s.messages q p) = countOf s.messages q p := by
  unfold countOf
  rw [List.countP_eq_length_filter, List.countP_eq_length_filter]
  apply List.Perm.length_eq
  rw [List.perm_ext_iff_of_nodup ((h.nodup q).filter _) ((sortedKeys_nodup _).filter _)]
  intro id
  simp only [List.mem_filter, mem_sortedKeys, mem_iff_lookup, holds_iff]
  constructor
  · rintro ⟨-, entry, hl, hrest⟩
    exact ⟨⟨entry, hl⟩, entry, hl, hrest⟩
  · rintro ⟨-, entry, hl, rfl, hstate⟩
    exact ⟨h.complete id entry hl (hp _ hstate), entry, hl, rfl, hstate⟩

/-! ## Depth -/

def awaiting : State → Bool
  | .retrying | .failed => true
  | _ => false

theorem terminal_of_queued {state : State} (h : (state == .queued) = true) :
    state.terminal = false := by
  rw [eq_of_beq h]
  rfl

theorem terminal_of_processing {state : State} (h : (state == .processing) = true) :
    state.terminal = false := by
  rw [eq_of_beq h]
  rfl

theorem terminal_of_awaiting {state : State} (h : awaiting state = true) :
    state.terminal = false := by
  cases state <;> first | rfl | cases h

/-- The loop of `Depth` counts the listed messages by their states. -/
theorem depthLoop_eq {m : Messages} {q : String} {ids : List String}
    (hl : ∀ id ∈ ids, ∃ entry, m.lookup id = some entry ∧ entry.msg.queue = q) (d : Depth) :
    depthLoop m ids d =
      { d with
        ready := d.ready + ids.countP (holds m q (· == .queued))
        inFlight := d.inFlight + ids.countP (holds m q (· == .processing))
        scheduled := d.scheduled + ids.countP (holds m q awaiting) } := by
  induction ids generalizing d with
  | nil => simp [depthLoop]
  | cons id ids ih =>
    obtain ⟨entry, hentry, hq⟩ := hl id List.mem_cons_self
    have hone : ∀ p, holds m q p id = p entry.msg.state := by
      intro p
      simp [holds, hentry, hq]
    simp only [depthLoop, hentry, List.countP_cons, hone]
    rw [ih (fun x hx => hl x (List.mem_cons_of_mem id hx))]
    cases entry.msg.state <;> simp [Depth.count, awaiting] <;> ring

/-- Every message is stored in a state it can rest in. -/
def Stocked (m : Messages) : Prop :=
  ∀ id entry, m.lookup id = some entry → entry.msg.state.Resting

theorem Stocked.countOf_pending {m : Messages} (h : Stocked m) (q : String) :
    countOf m q (fun state => !state.terminal) =
      countOf m q (· == .queued) + countOf m q (· == .processing) + countOf m q awaiting := by
  unfold countOf
  induction sortedKeys m with
  | nil => rfl
  | cons id ids ih =>
    simp only [List.countP_cons, ih]
    cases hl : m.lookup id with
    | none => simp [holds, hl]
    | some entry =>
      have hresting := h id entry hl
      by_cases hq : entry.msg.queue = q
      · cases hstate : entry.msg.state <;>
          simp [holds, hl, hq, hstate, awaiting, State.terminal_eq,
            State.Resting] at hresting ⊢ <;> omega
      · simp [holds, hl, hq]

theorem Stocked.countOf_awaiting {m : Messages} (h : Stocked m) (q : String) :
    countOf m q awaiting = countOf m q (· == .retrying) := by
  refine List.countP_congr (fun id _ => ?_)
  cases hl : m.lookup id with
  | none => simp [holds, hl]
  | some entry =>
    have hfailed := (h id entry hl).ne_failed
    cases hstate : entry.msg.state <;> simp [holds, hl, hstate, awaiting] at hfailed ⊢

/-- A depth counts the messages of the queue, by state and all that are not settled. -/
theorem Indexed.depth_eq {s : Store} (h : Indexed s) (hstates : Stocked s.messages) {q : String}
    {queue : Queue} (hq : s.queues.lookup q = some queue) :
    s.depth q = (.ok
      { ready := countOf s.messages q (· == .queued)
        inFlight := countOf s.messages q (· == .processing)
        scheduled := countOf s.messages q (· == .retrying)
        total := countOf s.messages q (fun state => !state.terminal) }, s) := by
  have hqueued := h.countP_order q (· == .queued) (fun _ => terminal_of_queued)
  have hprocessing := h.countP_order q (· == .processing) (fun _ => terminal_of_processing)
  have hawaiting := h.countP_order q awaiting (fun _ => terminal_of_awaiting)
  rw [Store.depth, hq]
  dsimp only
  rw [depthLoop_eq (h.listed q), hqueued, hprocessing, hawaiting, hstates.countOf_pending,
    hstates.countOf_awaiting]
  simp [Depth.withTotal]

/-! ## Purge and deletion -/

theorem Indexed.mem_live {s : Store} (h : Indexed s) {q id : String} :
    id ∈ (s.order q).filter (live s.messages) ↔ pending s.messages q id = true := by
  unfold pending
  rw [List.mem_filter, holds_iff]
  constructor
  · rintro ⟨hid, hlive⟩
    obtain ⟨entry, hl, hq⟩ := h.listed q id hid
    exact ⟨entry, hl, hq, by simpa [live, isSettled, hl] using hlive⟩
  · rintro ⟨entry, hl, rfl, hstate⟩
    have hterminal : entry.msg.state.terminal = false := by simpa using hstate
    exact ⟨h.complete id entry hl hterminal, by simp [live, isSettled, hl, hterminal]⟩

/-- A purge removes the pending messages of the queue and no other. -/
theorem Indexed.purge_pending {s : Store} (h : Indexed s) {q : String} {queue : Queue}
    (hq : s.queues.lookup q = some queue) :
    (s.purge q).1 = .ok (countOf s.messages q (fun state => !state.terminal) : ℕ) ∧
      ∀ id, (s.purge q).2.messages.lookup id =
        if pending s.messages q id then none else s.messages.lookup id := by
  obtain ⟨messages, hm, hp⟩ := h.purge_eq hq
  rw [hp]
  refine ⟨?_, fun id => ?_⟩
  · have hcount := h.countP_order q (fun state => !state.terminal) (by simp)
    rw [← hcount, List.countP_eq_length_filter]
    dsimp only
    congr 3
    apply List.filter_congr
    intro id hid
    obtain ⟨entry, hl, hentry⟩ := h.listed q id hid
    simp [live, isSettled, holds, hl, hentry]
  · rw [hm]
    exact if_congr h.mem_live rfl rfl

/-- With a queue its pending messages are gone. -/
theorem Indexed.deleteQueue_pending {s : Store} (h : Indexed s) {q : String} {queue : Queue}
    (hq : s.queues.lookup q = some queue) (id : String) :
    pending (s.deleteQueue q).2.messages q id = false := by
  by_contra hp
  rw [Bool.not_eq_false] at hp
  obtain ⟨entry, hl, hqueue, hstate⟩ := holds_iff.mp hp
  simp only [Store.deleteQueue, hq, lookup_eraseAll] at hl
  split_ifs at hl with hin
  have hin' := h.complete id entry hl (by simpa using hstate)
  rw [hqueue] at hin'
  exact hin hin'

/-- Every message of the queue, settled or not, is still in the index. -/
def Listed (s : Store) (q : String) : Prop :=
  ∀ id ∈ sortedKeys s.messages, holds s.messages q (fun _ => true) id = true → id ∈ s.order q

instance (s : Store) (q : String) : Decidable (Listed s q) := by unfold Listed; infer_instance

theorem listed_iff {s : Store} {q : String} :
    Listed s q ↔ ∀ id entry, s.messages.lookup id = some entry → entry.msg.queue = q →
      id ∈ s.order q := by
  unfold Listed
  constructor
  · intro h id entry hl hq
    apply h id
    · rw [mem_sortedKeys, mem_iff_lookup]
      exact ⟨entry, hl⟩
    · exact holds_iff.mpr ⟨entry, hl, hq, rfl⟩
  · intro h id _ hid
    obtain ⟨entry, hl, hq, -⟩ := holds_iff.mp hid
    exact h id entry hl hq

/-- No message that the queue had is found any more. -/
def Cleared (s t : Store) (q : String) : Prop :=
  ∀ id entry, s.messages.lookup id = some entry → entry.msg.queue = q →
    (t.message id).1 = .error .notFound

/-- The messages of the other queues are as before. -/
def SameElsewhere (s t : Store) (q : String) : Prop :=
  ∀ id entry, entry.msg.queue ≠ q →
    (t.messages.lookup id = some entry ↔ s.messages.lookup id = some entry)

theorem message_eq_notFound {s : Store} {id : String} :
    (s.message id).1 = .error .notFound ↔ s.messages.lookup id = none := by
  unfold Store.message
  cases s.messages.lookup id <;> simp

theorem Indexed.deleteQueue_sameElsewhere {s : Store} (h : Indexed s) {q : String}
    {queue : Queue} (hq : s.queues.lookup q = some queue) :
    SameElsewhere s (s.deleteQueue q).2 q := by
  intro id entry hne
  simp only [Store.deleteQueue, hq, lookup_eraseAll]
  split_ifs with hin
  · constructor
    · intro hl
      cases hl
    · intro hl
      exact absurd hin (h.not_listed hl hne)
  · exact Iff.rfl

theorem deleteQueue_cleared_iff {s : Store} {q : String} {queue : Queue}
    (hq : s.queues.lookup q = some queue) : Cleared s (s.deleteQueue q).2 q ↔ Listed s q := by
  have hgone : ∀ id entry, s.messages.lookup id = some entry →
      (((s.deleteQueue q).2.message id).1 = .error .notFound ↔ id ∈ s.order q) := by
    intro id entry hl
    rw [message_eq_notFound]
    simp only [Store.deleteQueue, hq, lookup_eraseAll]
    split_ifs with hin <;> simp [hin, hl]
  rw [listed_iff]
  constructor
  · intro h id entry hl hqueue
    exact (hgone id entry hl).mp (h id entry hl hqueue)
  · intro h id entry hl hqueue
    exact (hgone id entry hl).mpr (h id entry hl hqueue)

/-- After every run in which no batch names an id twice, the deletion of a saved queue succeeds
and leaves the other queues alone. It removes all messages of the queue if and only if the index
still lists them all: compaction has dropped the settled ones that it does not list. -/
theorem deleteQueue_removes_iff (cs : List Call) (hn : ∀ c ∈ cs, c.appendedIds.Nodup)
    (q : String) (queue : Queue)
    (hq : (after exec Store.new cs).queues.lookup q = some queue) :
    (exec (.deleteQueue q) (after exec Store.new cs)).1 = .ok () ∧
      SameElsewhere (after exec Store.new cs)
        (exec (.deleteQueue q) (after exec Store.new cs)).2 q ∧
      (Cleared (after exec Store.new cs) (exec (.deleteQueue q) (after exec Store.new cs)).2 q ↔
        Listed (after exec Store.new cs) q) := by
  have hindexed := after_indexed hn
  refine ⟨?_, hindexed.deleteQueue_sameElsewhere hq, deleteQueue_cleared_iff hq⟩
  simp only [exec, Store.deleteQueue, hq]

/-- One message of a saved queue is acknowledged. -/
def acknowledgedOrder : List Call :=
  [.saveQueue ⟨⟨"orders", true, 3, 30, ""⟩, 1⟩, .append [arrival "a" "orders" 1],
    .claim ⟨"orders", "c", 1, 30, 2⟩, .acknowledge "a" 3]

theorem deleteQueue_removes_iff_acknowledgedOrder :
    Listed (after exec Store.new acknowledgedOrder) "orders" ∧
      Cleared (after exec Store.new acknowledgedOrder)
        (exec (.deleteQueue "orders") (after exec Store.new acknowledgedOrder)).2 "orders" := by
  have hlisted : Listed (after exec Store.new acknowledgedOrder) "orders" := by decide +kernel
  have hremoved := deleteQueue_removes_iff acknowledgedOrder (by decide) "orders"
    ⟨⟨"orders", true, 3, 30, ""⟩, 1⟩ (by decide +kernel)
  exact ⟨hlisted, hremoved.2.2.mpr hlisted⟩

/-- One more claim trims the index, and the message outlives its queue. -/
theorem deleteQueue_removes_iff_claimedAgain :
    (exec (.deleteQueue "orders") (after exec Store.new
        (acknowledgedOrder ++ [.claim ⟨"orders", "c", 1, 30, 4⟩]))).1 = .ok () ∧
      ((exec (.message "a") (exec (.deleteQueue "orders") (after exec Store.new
        (acknowledgedOrder ++ [.claim ⟨"orders", "c", 1, 30, 4⟩]))).2).1.map Message.queue) =
          .ok "orders" := by
  constructor <;> decide +kernel

end RabbitmqLite.Storage.Memory
