import RabbitmqLite.Collections.Pages
import RabbitmqLite.Storage.Memory.Reference

/-! # First deliveries come in append order

Any number of consumers claim from a queue, acknowledge, fail and give back what
they were handed, and messages come back for a second delivery at any time.
Still no message overtakes another on its first delivery, whatever the batch
sizes and however the index of the queue is compacted, as long as nobody claims
with a clock that is behind the messages.
-/

namespace RabbitmqLite.Storage.Memory
open Collections Atomic

/-! ## Messages that were never handed out -/

def Untouched : Option Record → Bool
  | none => false
  | some entry => decide (entry.msg.state = .queued ∧ entry.msg.attempts = 0)

/-- The messages of the queue that were never handed out, in the order of its index. -/
def neverClaimed (s : Store) (q : String) : List String :=
  (s.order q).filter (fun id => Untouched (s.messages.lookup id))

/-- The ids a call handed out from the queue for the first time, in their order. -/
def firstsOf (q : String) : Event MessageCall MessageCall.Reply → List String
  | ⟨.claim req, .ok claimed⟩ =>
    if req.queue = q then (claimed.filter (fun msg => msg.attempts = 1)).map Message.id else []
  | _ => []

/-- The first deliveries from the queue along a run. -/
def firstDeliveries (cs : List MessageCall) (q : String) : List String :=
  (trace execMessage Store.new cs).flatMap (firstsOf q)

/-- A claim finds every message of its queue that was never handed out available. -/
def Timely (s : Store) : MessageCall → Prop
  | .claim req => ∀ id ∈ neverClaimed s req.queue, claimableIn s.messages req.now id = true
  | _ => True

instance (s : Store) : (c : MessageCall) → Decidable (Timely s c)
  | .claim _ => List.decidableBAll _ _
  | .saveQueue _ | .append _ | .message _ | .acknowledge _ _ | .scheduleRetry _ | .release _ _
  | .markDeadLettered _ _ _ | .expiredLeases _ _ | .depth _ | .purge _ => .isTrue trivial

/-- Who has no attempt is queued. -/
def Begun (o : Option Record) : Prop :=
  ∀ entry, o = some entry → 0 ≤ entry.msg.attempts ∧
    (entry.msg.attempts = 0 → entry.msg.state = .queued)

theorem untouched_iff {o : Option Record} :
    Untouched o = true ↔ ∃ entry, o = some entry ∧ entry.msg.state = .queued ∧
      entry.msg.attempts = 0 := by
  cases o <;> simp [Untouched]

theorem RecordStep.begun {c : Call} {reply : c.Reply} {id : String} {o o' : Option Record}
    (h : RecordStep c reply id o o') (hb : Begun o)
    (hnew : ∀ msgs, c = .append msgs → ∀ msg ∈ msgs, msg.state = .queued ∧ msg.attempts = 0) :
    Begun o' := by
  intro entry he
  cases h with
  | same => exact hb entry he
  | append hm =>
    obtain ⟨hstate, hattempts⟩ := hnew _ rfl _ hm
    obtain rfl := Option.some.inj he
    exact ⟨hattempts.ge, fun _ => hstate⟩
  | claim =>
    obtain rfl := Option.some.inj he
    have hpos := (hb _ rfl).1
    simp only [takenOver]
    omega
  | acknowledge hp | scheduleRetry hp | release hp =>
    obtain rfl := Option.some.inj he
    obtain ⟨hpos, hzero⟩ := hb _ rfl
    refine ⟨hpos, fun h0 => ?_⟩
    rw [hzero h0] at hp
    cases hp
  | markDeadLettered hd =>
    obtain rfl := Option.some.inj he
    obtain ⟨hpos, hzero⟩ := hb _ rfl
    refine ⟨hpos, fun h0 => ?_⟩
    rw [hzero h0] at hd
    simp [Doomable] at hd
  | purge => cases he
  | deleteQueue => cases he

/-- The calls that hand nothing out, take nothing in and remove nothing. -/
def Settling : Call → Prop
  | .append _ | .claim _ | .purge _ | .deleteQueue _ => False
  | _ => True

theorem RecordStep.untouched_eq {c : Call} {reply : c.Reply} {id : String} {o o' : Option Record}
    (h : RecordStep c reply id o o') (hb : Begun o) (hc : Settling c) :
    Untouched o' = Untouched o := by
  have hprocessing : ∀ {entry : Record}, entry.msg.state = .processing →
      Untouched (some entry) = false := by
    intro entry hp
    simp [Untouched, hp]
  cases h with
  | same => rfl
  | append | claim | purge | deleteQueue => exact hc.elim
  | acknowledge hp => rw [hprocessing hp]; rfl
  | scheduleRetry hp => rw [hprocessing hp]; rfl
  | @release _ _ entry hp =>
    -- it was handed out, so it has an attempt
    have hattempts : entry.msg.attempts ≠ 0 := by
      intro h0
      rw [(hb entry rfl).2 h0] at hp
      cases hp
    rw [hprocessing hp]
    simp [Untouched, unleased, released, hattempts]
  | markDeadLettered hd =>
    rcases hd with hp | hp
    · rw [hprocessing hp]; rfl
    · simp [Untouched, unleased, deadLettered, hp]

/-! ## One call -/

section Step
variable {cs : List MessageCall} {c : MessageCall} {s : Store} {r : Reference}

theorem Matches.neverClaimed_eq (h : Matches cs s r) (q : String) :
    neverClaimed s q =
      (appendOrderOf cs q).filter (fun id => Untouched (s.messages.lookup id)) := by
  rw [← h.index q]
  refine filter_eq_of_imp (h.similar.live_eq q) (fun id hid => ?_)
  obtain ⟨entry, he, hstate, -⟩ := untouched_iff.mp hid
  simp only [live, isSettled, he, hstate]
  decide

theorem LegalRun.queue_unique (h : LegalRun cs) {q q' id : String} (hq : id ∈ appendOrderOf cs q)
    (hq' : id ∈ appendOrderOf cs q') : q = q' := by
  obtain ⟨msg, hmsg, rfl⟩ := List.mem_map.mp hq
  obtain ⟨msg', hmsg', hid⟩ := List.mem_map.mp hq'
  obtain ⟨hmem, hqueue⟩ := List.mem_filter.mp hmsg
  obtain ⟨hmem', hqueue'⟩ := List.mem_filter.mp hmsg'
  obtain rfl := List.inj_on_of_nodup_map h.nodup hmem' hmem hid
  exact (of_decide_eq_true hqueue).symm.trans (of_decide_eq_true hqueue')

theorem appendOrderOf_nodup (h : LegalRun cs) (q : String) : (appendOrderOf cs q).Nodup :=
  h.nodup.sublist (List.filter_sublist.map _)

/-- The reply to a claim shows which messages are handed out for the first time. -/
theorem firsts_of_picked {req : ClaimRequest} (hids : ∀ id ∈ r.picked req, ∃ entry,
      r.messages.lookup id = some entry ∧ entry.msg.id = id)
    (hb : ∀ id, Begun (r.messages.lookup id)) :
    firstsOf req.queue ⟨.claim req, (Reference.exec (.claim req) r).1⟩ =
      (r.picked req).filter (fun id => Untouched (r.messages.lookup id)) := by
  simp only [firstsOf, Reference.exec, Reference.claim, if_true]
  generalize r.picked req = ids at hids
  induction ids with
  | nil => rfl
  | cons id ids ih =>
    obtain ⟨entry, he, hid⟩ := hids id List.mem_cons_self
    have hrest := ih (fun x hx => hids x (List.mem_cons_of_mem id hx))
    have hfirst : Untouched (r.messages.lookup id) = decide (entry.msg.attempts + 1 = 1) := by
      rw [he, Untouched]
      refine decide_eq_decide.mpr ⟨fun h => by omega, fun h => ?_⟩
      have h0 : entry.msg.attempts = 0 := by omega
      exact ⟨((hb id) entry he).2 h0, h0⟩
    rw [List.filterMap_cons, handedOut, he, Option.map_some]
    dsimp only
    rw [List.filter_cons, List.filter_cons, hfirst]
    by_cases h1 : entry.msg.attempts + 1 = 1
    · simp only [takenOver, h1, decide_true, if_true, List.map_cons, hid]
      exact congrArg _ hrest
    · simp only [takenOver, h1, decide_false, Bool.false_eq_true, if_false]
      exact hrest

/-- What a claim hands out for the first time are the first of those that wait for it. -/
theorem Matches.firsts_claim {req : ClaimRequest} (h : Matches cs s r)
    (hl : LegalRun (cs ++ [.claim req])) (hb : ∀ id, Begun (s.messages.lookup id))
    (ht : Timely s (.claim req)) (q : String) :
    firstsOf q ⟨.claim req, (execMessage (.claim req) s).1⟩ ++
        (appendOrderOf cs q).filter
          (fun id => Untouched ((execMessage (.claim req) s).2.messages.lookup id)) =
      (appendOrderOf cs q).filter (fun id => Untouched (s.messages.lookup id)) := by
  obtain ⟨hreply, hsimilar⟩ := h.agree hl
  have hpicked : r.picked req = ((appendOrderOf cs req.queue).filter
      (claimableIn s.messages req.now)).take req.limit.toNat := by
    rw [Reference.picked, h.index, h.similar.messages]
  have hnodup := h.similar.picked_nodup h.indexed req
  have hlookup : ∀ id, (execMessage (.claim req) s).2.messages.lookup id =
      if id ∈ r.picked req then (s.messages.lookup id).map (takenOver req)
      else s.messages.lookup id := by
    intro id
    rw [← hsimilar.messages, Reference.exec, Reference.claim, lookup_adjustAll _ _ hnodup,
      h.similar.messages]
  have hmark : ∀ id, Untouched ((execMessage (.claim req) s).2.messages.lookup id) =
      (Untouched (s.messages.lookup id) && decide (id ∉ r.picked req)) := by
    intro id
    rw [hlookup]
    split_ifs with hid
    · cases hm : s.messages.lookup id with
      | none => simp [Untouched]
      | some entry => simp [Untouched, takenOver, hid]
    · simp [hid]
  by_cases hq : req.queue = q
  · subst hq
    have hfirsts : firstsOf req.queue ⟨.claim req, (execMessage (.claim req) s).1⟩ =
        (r.picked req).filter (fun id => Untouched (s.messages.lookup id)) := by
      rw [hreply, firsts_of_picked (fun id hid => ?_) (fun id => h.similar.messages ▸ hb id)]
      · rw [h.similar.messages]
      · rw [hpicked] at hid
        obtain ⟨entry, he, -⟩ := claimableIn_iff.mp
          (List.mem_filter.mp (List.mem_of_mem_take hid)).2
        exact ⟨entry, h.similar.messages ▸ he, h.indexed.keyed id entry he⟩
    simp only [hfirsts, hmark]
    rw [hpicked]
    refine filter_take_append (appendOrderOf_nodup hl.of_append req.queue) (fun id hid hu => ?_) _
    refine ht id ?_
    rw [h.neverClaimed_eq]
    exact List.mem_filter.mpr ⟨hid, hu⟩
  · have hnone : firstsOf q ⟨.claim req, (execMessage (.claim req) s).1⟩ = [] := by
      cases (execMessage (.claim req) s).1 with
      | error => rfl
      | ok claimed => exact if_neg hq
    rw [hnone, List.nil_append]
    refine List.filter_congr (fun id hid => ?_)
    have hother : id ∉ r.picked req := by
      intro hp
      rw [hpicked] at hp
      have hin := (List.mem_filter.mp (List.mem_of_mem_take hp)).1
      exact hq (hl.of_append.queue_unique hin hid)
    rw [hmark, decide_eq_true hother, Bool.and_true]

theorem Matches.line_append {msgs : List Message} (h : Matches cs s r)
    (hl : LegalRun (cs ++ [.append msgs]))
    (hnew : ∀ msg ∈ msgs, msg.state = .queued ∧ msg.attempts = 0) (q : String) :
    (appendOrderOf (cs ++ [.append msgs]) q).filter
        (fun id => Untouched ((execMessage (.append msgs) s).2.messages.lookup id)) =
      (appendOrderOf cs q).filter (fun id => Untouched (s.messages.lookup id)) ++
        (msgs.filter (fun msg => msg.queue = q)).map Message.id := by
  have hmessages : (execMessage (.append msgs) s).2.messages = Store.storeAll s.messages msgs := by
    have hany : msgs.any (fun msg => (r.messages.lookup msg.id).isSome) = false := by
      rw [List.any_eq_false]
      intro msg hm hsome
      obtain ⟨entry, he⟩ := Option.isSome_iff_exists.mp hsome
      rw [h.similar.messages] at he
      exact hl.last_fresh hm (h.known _ entry he)
    rw [← (h.agree hl).2.messages, Reference.exec, Reference.append, hany, h.similar.messages]
    rfl
  rw [appendOrderOf_snoc, List.filter_append, hmessages]
  congr 1
  · refine List.filter_congr (fun id hid => ?_)
    rw [storeAll_of_notMem]
    intro hmem
    obtain ⟨msg, hm, rfl⟩ := List.mem_map.mp hmem
    exact hl.last_fresh hm (mem_appendOrderOf hid)
  · refine List.filter_eq_self.mpr (fun id hid => ?_)
    have hmem : id ∈ msgs.map Message.id := (List.filter_sublist.map _).subset hid
    obtain ⟨msg, hm, -, hlookup⟩ := @storeAll_of_mem s.messages _ _ hmem
    rw [hlookup]
    exact untouched_iff.mpr ⟨_, rfl, hnew msg hm⟩

theorem Matches.untouched_purge {queue : String} (h : Matches cs s r)
    (hl : LegalRun (cs ++ [.purge queue])) (id : String) :
    Untouched ((execMessage (.purge queue) s).2.messages.lookup id) = true →
      Untouched (s.messages.lookup id) = true := by
  rw [← (h.agree hl).2.messages, Reference.exec, Reference.purge, h.similar.messages]
  split
  · rw [h.similar.messages]
    exact fun hu => hu
  · dsimp only
    rw [lookup_eraseAll]
    split_ifs
    · exact fun hu => absurd hu (by simp [Untouched])
    · exact fun hu => hu

theorem Matches.lookup_purge {queue q : String} (h : Matches cs s r)
    (hl : LegalRun (cs ++ [.purge queue])) (hne : queue ≠ q) {id : String}
    (hid : id ∈ appendOrderOf cs q) :
    (execMessage (.purge queue) s).2.messages.lookup id = s.messages.lookup id := by
  rw [← (h.agree hl).2.messages, Reference.exec, Reference.purge, h.similar.messages]
  split
  · rw [h.similar.messages]
  · dsimp only
    rw [lookup_eraseAll, if_neg]
    intro hdoomed
    have hother := (List.mem_filter.mp hdoomed).1
    rw [h.index] at hother
    exact hne (hl.of_append.queue_unique hother hid)

/-- Those that are handed out for the first time and those that still wait for it are together
those that waited before, with the new ones behind them. Only a purge takes some away. -/
theorem Matches.firsts_step (h : Matches cs s r) (hl : LegalRun (cs ++ [c]))
    (hb : ∀ id, Begun (s.messages.lookup id))
    (hnew : ∀ msg ∈ c.appended, msg.state = .queued ∧ msg.attempts = 0) (ht : Timely s c)
    (q : String) :
    (firstsOf q ⟨c, (execMessage c s).1⟩ ++ neverClaimed (execMessage c s).2 q).Sublist
        (neverClaimed s q ++ (c.appended.filter (fun msg => msg.queue = q)).map Message.id) ∧
      (c ≠ .purge q →
        firstsOf q ⟨c, (execMessage c s).1⟩ ++ neverClaimed (execMessage c s).2 q =
          neverClaimed s q ++ (c.appended.filter (fun msg => msg.queue = q)).map Message.id) := by
  rw [h.neverClaimed_eq, (h.step hl).neverClaimed_eq]
  have hsettling : Settling c.toCall → c.appended = [] → firstsOf q ⟨c, (execMessage c s).1⟩ = [] →
      firstsOf q ⟨c, (execMessage c s).1⟩ ++ (appendOrderOf (cs ++ [c]) q).filter
          (fun id => Untouched ((execMessage c s).2.messages.lookup id)) =
        (appendOrderOf cs q).filter (fun id => Untouched (s.messages.lookup id)) ++
          (c.appended.filter (fun msg => msg.queue = q)).map Message.id := by
    intro hc happended hfirsts
    rw [hfirsts, appendOrderOf_snoc, happended]
    simp only [List.nil_append, List.filter_nil, List.map_nil, List.append_nil]
    refine List.filter_congr (fun id _ => ?_)
    exact (exec_recordStep h.indexed.keyed c.toCall id).untouched_eq (hb id) hc
  have heq : ∀ {l k : List String}, l = k → l.Sublist k ∧ (c ≠ .purge q → l = k) :=
    fun h => ⟨h ▸ List.Sublist.refl _, fun _ => h⟩
  cases c with
  | append msgs => exact heq (h.line_append hl hnew q)
  | claim req =>
    refine heq ?_
    rw [appendOrderOf_snoc]
    simp only [MessageCall.appended, List.filter_nil, List.map_nil, List.append_nil]
    exact h.firsts_claim hl hb ht q
  | purge queue =>
    rw [appendOrderOf_snoc]
    simp only [MessageCall.appended, List.filter_nil, List.map_nil, List.append_nil, firstsOf,
      List.nil_append]
    refine ⟨List.monotone_filter_right _ (fun id => h.untouched_purge hl id), fun hne => ?_⟩
    refine List.filter_congr (fun id hid => ?_)
    rw [h.lookup_purge hl (fun hq => hne (hq ▸ rfl)) hid]
  | saveQueue | message | acknowledge | scheduleRetry | release | markDeadLettered
  | expiredLeases | depth => exact heq (hsettling trivial rfl rfl)

end Step

/-! ## Runs -/

theorem storeAfter_snoc (cs : List MessageCall) (c : MessageCall) :
    storeAfter (cs ++ [c]) = (execMessage c (storeAfter cs)).2 := by
  rw [storeAfter, after_append, after_singleton]
  rfl

theorem begun_after {cs : List MessageCall} (h : LegalRun cs)
    (hnew : ∀ msg ∈ cs.flatMap MessageCall.appended, msg.state = .queued ∧ msg.attempts = 0)
    (id : String) : Begun ((storeAfter cs).messages.lookup id) := by
  induction cs using List.reverseRecOn with
  | nil =>
    intro entry he
    simp [storeAfter, Store.new] at he
  | append_singleton cs c ih =>
    rw [storeAfter_snoc]
    simp only [List.flatMap_append, List.mem_append, List.flatMap_singleton] at hnew
    have hold := ih h.of_append (fun msg hm => hnew msg (Or.inl hm))
    refine (exec_recordStep (matches_after h.of_append).indexed.keyed c.toCall id).begun hold ?_
    intro msgs hc msg hm
    refine hnew msg (Or.inr ?_)
    cases c <;> cases hc
    exact hm

/-- Whatever the consumers do, the messages that were handed out and those that still wait for
their first delivery, in this order, are in append order; if the queue is never purged they are
all messages ever appended to it. -/
theorem first_deliveries_in_order (cs : List MessageCall) (h : LegalRun cs)
    (hnew : ∀ msg ∈ cs.flatMap MessageCall.appended, msg.state = .queued ∧ msg.attempts = 0)
    (ht : StepsMeet execMessage Timely Store.new cs) (q : String) :
    (firstDeliveries cs q ++ neverClaimed (storeAfter cs) q).Sublist (appendOrderOf cs q) ∧
      (.purge q ∉ cs →
        firstDeliveries cs q ++ neverClaimed (storeAfter cs) q = appendOrderOf cs q) := by
  induction cs using List.reverseRecOn with
  | nil => exact ⟨List.Sublist.refl _, fun _ => rfl⟩
  | append_singleton cs c ih =>
    simp only [List.flatMap_append, List.mem_append, List.flatMap_singleton] at hnew
    have hold : ∀ msg ∈ cs.flatMap MessageCall.appended, msg.state = .queued ∧ msg.attempts = 0 :=
      fun msg hm => hnew msg (Or.inl hm)
    obtain ⟨hsub, heq⟩ := ih h.of_append hold (ht.of_prefix execMessage (List.prefix_append cs [c]))
    obtain ⟨hstep, hstepEq⟩ := (matches_after h.of_append).firsts_step h
      (begun_after h.of_append hold) (fun msg hm => hnew msg (Or.inr hm)) (ht.last execMessage) q
    have htrace : firstDeliveries (cs ++ [c]) q =
        firstDeliveries cs q ++ firstsOf q ⟨c, (execMessage c (storeAfter cs)).1⟩ := by
      rw [firstDeliveries, trace_snoc, List.flatMap_append, List.flatMap_singleton]
      rfl
    rw [storeAfter_snoc, htrace, appendOrderOf_snoc, List.append_assoc]
    constructor
    · refine (hstep.append_left _).trans ?_
      rw [← List.append_assoc]
      exact hsub.append_right _
    · intro hpurge
      rw [hstepEq (fun hc => hpurge (by simp [hc])), ← List.append_assoc,
        heq (fun hc => hpurge (List.mem_append_left _ hc))]

/-- One message fails and is delivered again between the first deliveries of the others. -/
def redelivered : List MessageCall :=
  [.append [arrival "a" "orders" 1, arrival "b" "orders" 1],
    .claim ⟨"orders", "one", 1, 10, 2⟩, .scheduleRetry ⟨"a", 1, "busy", 3, 3⟩,
    .append [arrival "c" "orders" 3],
    .claim ⟨"orders", "two", 2, 10, 4⟩, .release "b" 5, .claim ⟨"orders", "one", 1, 10, 6⟩]

theorem first_deliveries_in_order_redelivered :
    LegalRun redelivered ∧ StepsMeet execMessage Timely Store.new redelivered ∧
      firstDeliveries redelivered "orders" = ["a", "b"] ∧
      firstDeliveries redelivered "orders" ++ neverClaimed (storeAfter redelivered) "orders" =
        appendOrderOf redelivered "orders" := by
  have hl : LegalRun redelivered := ⟨by decide, by simp [redelivered]⟩
  have ht : StepsMeet execMessage Timely Store.new redelivered := by decide
  exact ⟨hl, ht, by decide,
    (first_deliveries_in_order redelivered hl (by decide) ht "orders").2 (by decide)⟩

end RabbitmqLite.Storage.Memory
