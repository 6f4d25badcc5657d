import RabbitmqLite.Storage.Sqlite.Claiming

/-! # Agreement of the two drivers up to delivery order

Along every run in which each claim asks for at least as many messages as are
claimable, the in-memory and the SQLite driver give the same replies and stay
in corresponding states. Two things are excluded. The in-memory driver reads a
lease that ends at the zero instant as none at all, and it leaves a message in
a purged queue if it does not know the state the message was appended in.
-/

namespace RabbitmqLite.Storage.Sqlite
open Broker Collections Atomic Sql
open Memory (Record RecordStep Messages unleased Indexed execMessage storeAfter LegalRun
  matches_after)

/-- The instants a call carries. -/
def times : MessageCall → List ℤ
  | .saveQueue queue => [queue.createdAt]
  | .append msgs => msgs.flatMap (fun msg => [msg.createdAt, msg.updatedAt, msg.availableAt])
  | .claim req => [req.now, req.now + req.lease]
  | .scheduleRetry req => [req.now, req.availableAt]
  | .acknowledge _ now | .release _ now | .markDeadLettered _ _ now | .expiredLeases now _ => [now]
  | .message _ | .depth _ | .purge _ => []

/-- New ids, payloads that are not nil, and instants of the years 0 to 9999. -/
structure DriverRun (cs : List MessageCall) : Prop where
  nodup : ((cs.flatMap MessageCall.appended).map Message.id).Nodup
  payload : ∀ msg ∈ cs.flatMap MessageCall.appended, msg.payload ≠ none
  years : ∀ c ∈ cs, ∀ t ∈ times c, InYears t

/-- The messages of a queue that can be claimed now. -/
def claimableNow (m : Messages) (now : Time) (q : String) : List String :=
  (sortedKeys m).filter (claimableOf m now q)

/-- Claims take everything there is, and expired leases are listed without a limit. -/
structure FullClaims (cs : List MessageCall) : Prop where
  limit : ∀ ds req fs, cs = ds ++ .claim req :: fs →
    ((claimableNow (storeAfter ds).messages req.now req.queue).length : ℤ) ≤ req.limit
  unlimited : ∀ now n, .expiredLeases now n ∈ cs → n = 0

/-- No lease ends at the zero instant. -/
def SetLeases (cs : List MessageCall) : Prop :=
  ∀ req, .claim req ∈ cs → req.now + req.lease ≠ zeroTime

/-- The messages of a queue that is purged are appended in declared states. -/
def DeclaredPurges (cs : List MessageCall) : Prop :=
  ∀ q, .purge q ∈ cs → ∀ msg ∈ cs.flatMap MessageCall.appended, msg.queue = q →
    msg.state.valid = true

/-- The database after a run from the empty tables. -/
def dbAfter (json : JsonMaps) (cs : List MessageCall) : Db := after (exec json) Db.new cs

/-- Lists of messages are compared as multisets. -/
def SameList : Except Error (List Message) → Except Error (List Message) → Prop
  | .ok a, .ok b => a.Perm b
  | x, y => x = y

def SameReply : (c : MessageCall) → c.Reply → c.Reply → Prop
  | .claim _, x, y => SameList x y
  | .expiredLeases _ _, x, y => SameList x y
  | _, x, y => x = y

variable {json : JsonMaps}

/-! ## One call -/

/-- What the drivers need to know about a call to answer it alike. -/
structure Admissible (s : Memory.Store) (db : Db) (c : MessageCall) : Prop where
  nodup : (c.appended.map Message.id).Nodup
  fresh : ∀ msg ∈ c.appended, s.messages.lookup msg.id = none
  unlisted : ∀ msg ∈ c.appended, ∀ q, msg.id ∉ s.order q
  payload : ∀ msg ∈ c.appended, msg.payload ≠ none
  years : ∀ t ∈ times c, InYears t
  claim : ∀ req, c = .claim req → 0 ≤ req.limit ∧ req.now + req.lease ≠ zeroTime ∧
    ((inLine s.messages req.now req.queue (db.messages.map Row.id)).take req.limit.toNat).Perm
      (picks s.messages req (db.messages.map Row.id))
  unlimited : ∀ now n, c = .expiredLeases now n → n = 0
  declared : ∀ q, c = .purge q → DeclaredIn s.messages q

/-- Every method answers alike and keeps the correspondence. -/
theorem Corresponds.step {s : Memory.Store} {db : Db} (h : Corresponds json s db)
    (hi : Indexed s) (ho : s.closed = false) {c : MessageCall} (ha : Admissible s db c) :
    SameReply c (execMessage c s).1 (exec json c db).1 ∧
      Corresponds json (execMessage c s).2 (exec json c db).2 := by
  cases c with
  | saveQueue queue => exact h.saveQueue ho queue
  | append msgs =>
    refine h.append ho ha.nodup ha.fresh ha.unlisted ha.payload (fun msg hm => ?_)
    have hy : ∀ t ∈ [msg.createdAt, msg.updatedAt, msg.availableAt], InYears t :=
      fun t ht => ha.years t (List.mem_flatMap.mpr ⟨msg, hm, ht⟩)
    exact ⟨Payload.copied_copied msg.payload, hy msg.createdAt (by simp),
      hy msg.updatedAt (by simp), hy msg.availableAt (by simp), inYears_zeroTime⟩
  | message id =>
    refine ⟨?_, ?_⟩
    · simp only [SameReply, execMessage, Memory.exec, Memory.Store.message, exec, Db.message,
        h.rows.loadMessage]
      cases s.messages.lookup id <;> rfl
    · simp only [execMessage, Memory.exec, Memory.Store.message]
      cases s.messages.lookup id <;> exact h
  | claim req =>
    obtain ⟨hlim, hz, hp⟩ := ha.claim req rfl
    obtain ⟨hm, hs, hc⟩ := h.claim hi ho hlim (ha.years _ (by simp [times]))
      (ha.years _ (by simp [times])) hz hp
    refine ⟨?_, hc⟩
    simp only [SameReply, execMessage, Memory.exec, exec, hm, hs, SameList]
    exact hp.filterMap _
  | acknowledge id now => exact h.acknowledge id (ha.years _ (by simp [times]))
  | scheduleRetry req =>
    exact h.scheduleRetry (ha.years _ (by simp [times])) (ha.years _ (by simp [times]))
  | release id now => exact h.release id (ha.years _ (by simp [times]))
  | markDeadLettered id reason now =>
    exact h.markDeadLettered id reason (ha.years _ (by simp [times]))
  | expiredLeases now n =>
    obtain rfl := ha.unlimited now n rfl
    obtain ⟨listed, listed', hm, hs, hp⟩ := h.expiredLeases (ha.years now (by simp [times]))
    refine ⟨?_, h⟩
    simp only [SameReply, execMessage, Memory.exec, exec, hm, hs, SameList]
    exact hp
  | depth queue =>
    refine ⟨h.depth hi queue, ?_⟩
    simp only [execMessage, Memory.exec, Memory.Store.depth, exec, Db.depth]
    split <;> split_ifs <;> exact h
  | purge queue => exact h.purge hi (ha.declared queue rfl)

/-! ## Whole runs -/

/-- A run in which both drivers pick the same messages at every claim. -/
structure PairedRun (json : JsonMaps) (cs : List MessageCall) : Prop where
  run : DriverRun cs
  leases : SetLeases cs
  declared : DeclaredPurges cs
  limit : ∀ req, .claim req ∈ cs → 0 ≤ req.limit
  unlimited : ∀ now n, .expiredLeases now n ∈ cs → n = 0
  picks : ∀ ds req fs, cs = ds ++ .claim req :: fs →
    Corresponds json (storeAfter ds) (dbAfter json ds) →
    ((inLine (storeAfter ds).messages req.now req.queue
        ((dbAfter json ds).messages.map Row.id)).take req.limit.toNat).Perm
      (picks (storeAfter ds).messages req ((dbAfter json ds).messages.map Row.id))

theorem DriverRun.of_append {cs ds : List MessageCall} (h : DriverRun (cs ++ ds)) :
    DriverRun cs := by
  refine ⟨?_, fun msg hm => h.payload msg (by simp [hm]), fun c hc => h.years c (by simp [hc])⟩
  have hn := h.nodup
  rw [List.flatMap_append, List.map_append] at hn
  exact hn.of_append_left

theorem PairedRun.of_append {cs ds : List MessageCall} (h : PairedRun json (cs ++ ds)) :
    PairedRun json cs where
  run := h.run.of_append
  leases := fun req hm => h.leases req (by simp [hm])
  declared := fun q hq msg hm => h.declared q (by simp [hq]) msg (by simp [hm])
  limit := fun req hm => h.limit req (by simp [hm])
  unlimited := fun now n hm => h.unlimited now n (by simp [hm])
  picks := by
    rintro as req bs rfl
    exact h.picks as req (bs ++ ds) (by simp)

theorem PairedRun.legal {cs : List MessageCall} (h : PairedRun json cs) : LegalRun cs :=
  ⟨h.run.nodup, h.limit⟩

/-- Where the state of a stored message comes from. -/
theorem recordStep_declared {c : Call} {reply : c.Reply} {id : String} {r : Option Record}
    {e : Record} (h : RecordStep c reply id r (some e)) :
    r = some e ∨ e.msg.state.valid = true ∨
      ∃ msgs, c = .append msgs ∧ ∃ msg ∈ msgs, e = unleased msg.clone := by
  cases h with
  | same => exact Or.inl rfl
  | append hm => exact Or.inr (Or.inr ⟨_, rfl, _, hm, rfl⟩)
  | claim | acknowledge | scheduleRetry | release | markDeadLettered => exact Or.inr (Or.inl rfl)

/-- Only messages that were appended so are in a state that is not declared. -/
theorem declared_after {cs : List MessageCall} (h : LegalRun cs) {id : String} {e : Record}
    (hl : (storeAfter cs).messages.lookup id = some e) :
    e.msg.state.valid = true ∨ ∃ msg ∈ cs.flatMap MessageCall.appended,
      msg.queue = e.msg.queue ∧ msg.state = e.msg.state := by
  refine run_induction (P := fun cs => ∀ e, (storeAfter cs).messages.lookup id = some e →
      e.msg.state.valid = true ∨ ∃ msg ∈ cs.flatMap MessageCall.appended,
        msg.queue = e.msg.queue ∧ msg.state = e.msg.state)
    (fun _ _ (hlegal : LegalRun _) => hlegal.of_append) (by simp [storeAfter, Memory.Store.new])
    (fun ds c hlegal ih e he => ?_) cs h e hl
  have hs := Memory.exec_recordStep (matches_after hlegal.of_append).indexed.keyed c.toCall id
  have he' : (Memory.exec c.toCall (storeAfter ds)).2.messages.lookup id = some e := by
    simpa [storeAfter, execMessage] using he
  rw [he'] at hs
  rcases recordStep_declared hs with hold | hvalid | ⟨msgs, hc, msg, hm, rfl⟩
  · refine (ih e hold).imp_right (fun h => ?_)
    obtain ⟨msg, hmsg, hrest⟩ := h
    rw [List.flatMap_append]
    exact ⟨msg, List.mem_append_left _ hmsg, hrest⟩
  · exact Or.inl hvalid
  · cases c <;> simp [MessageCall.toCall] at hc
    subst hc
    exact Or.inr ⟨msg, by simp [MessageCall.appended, hm], rfl, rfl⟩

theorem PairedRun.admissible {cs fs : List MessageCall} {c : MessageCall}
    (h : PairedRun json (cs ++ c :: fs))
    (hc : Corresponds json (storeAfter cs) (dbAfter json cs)) :
    Admissible (storeAfter cs) (dbAfter json cs) c := by
  have h' := h
  rw [List.append_cons] at h'
  have hl := h'.of_append.legal
  have hm := matches_after hl.of_append
  have hfresh : ∀ msg ∈ c.appended, (storeAfter cs).messages.lookup msg.id = none := by
    intro msg hmsg
    by_contra hne
    obtain ⟨entry, he⟩ := Option.ne_none_iff_exists'.mp hne
    exact hl.last_fresh hmsg (hm.known _ entry he)
  refine ⟨hl.last_nodup, hfresh, fun msg hmsg => hm.indexed.not_listed_of_none (hfresh msg hmsg),
    fun msg hmsg => ?_, h.run.years c (by simp), ?_,
    fun now n hn => h.unlimited now n (by simp [hn]), ?_⟩
  · exact h.run.payload msg (by simp [hmsg])
  · rintro req rfl
    exact ⟨h.limit req (by simp), h.leases req (by simp), h.picks cs req fs rfl hc⟩
  · rintro q rfl id e he hq
    rcases declared_after hl.of_append he with hvalid | ⟨msg, hmsg, hqueue, hstate⟩
    · exact hvalid
    · rw [← hstate]
      exact h.declared q (by simp) msg (by simp [hmsg]) (hqueue.trans hq)

theorem PairedRun.corresponds {cs : List MessageCall} (h : PairedRun json cs) :
    Corresponds json (storeAfter cs) (dbAfter json cs) := by
  refine run_induction (P := fun cs => Corresponds json (storeAfter cs) (dbAfter json cs))
    (fun _ _ (hl : PairedRun json _) => hl.of_append) new_corresponds (fun ds c hl ih => ?_) cs h
  have hm := matches_after hl.of_append.legal
  have hstep := (ih.step hm.indexed hm.opened (hl.admissible ih)).2
  simpa [storeAfter, dbAfter] using hstep

/-- What it means that the drivers agree along a run. -/
structure DriversAgree (json : JsonMaps) (cs : List MessageCall) : Prop where
  replies : ∀ ds c fs, cs = ds ++ c :: fs →
    SameReply c (execMessage c (storeAfter ds)).1 (exec json c (dbAfter json ds)).1
  states : ∀ ds fs, cs = ds ++ fs → Corresponds json (storeAfter ds) (dbAfter json ds)

theorem PairedRun.agree {cs : List MessageCall} (h : PairedRun json cs) : DriversAgree json cs where
  replies := by
    rintro ds c fs rfl
    have hc := h.of_append.corresponds
    have hm := matches_after h.of_append.legal
    exact (hc.step hm.indexed hm.opened (h.admissible hc)).1
  states := by
    rintro ds fs rfl
    exact h.of_append.corresponds

/-- A limit that covers everything claimable leaves no choice to either driver. -/
theorem FullClaims.paired {cs : List MessageCall} (h : DriverRun cs) (hf : FullClaims cs)
    (hs : SetLeases cs) (hp : DeclaredPurges cs) : PairedRun json cs where
  run := h
  leases := hs
  declared := hp
  limit := by
    intro req hm
    obtain ⟨ds, fs, rfl⟩ := List.append_of_mem hm
    exact le_trans (by positivity) (hf.limit ds req fs rfl)
  unlimited := hf.unlimited
  picks := by
    rintro ds req fs rfl hc
    have hperm := hc.rows.perm_sortedKeys.filter
      (claimableOf (storeAfter ds).messages req.now req.queue)
    have hlen := hf.limit ds req fs rfl
    rw [claimableNow, ← hperm.length_eq] at hlen
    have hall : (inLine (storeAfter ds).messages req.now req.queue
        ((dbAfter json ds).messages.map Row.id)).length ≤ req.limit.toNat := by
      unfold inLine
      omega
    rw [picks, List.take_of_length_le hall,
      List.take_of_length_le (by rwa [List.length_insertionSort])]
    exact (List.perm_insertionSort _ _).symm

/-- The two drivers agree up to delivery order. -/
theorem drivers_agree (json : JsonMaps) (cs : List MessageCall) (h : DriverRun cs)
    (hf : FullClaims cs) (hs : SetLeases cs) (hp : DeclaredPurges cs) : DriversAgree json cs :=
  (hf.paired h hs hp).agree

theorem countable_headers : Countable Headers := by
  have hchar : Countable Char := Function.Injective.countable (f := Char.toNat)
    (fun a b h => Char.ext (UInt32.toNat_inj.mp h))
  have hstring : Countable String :=
    Function.Injective.countable (f := String.toList) (fun _ _ h => String.toList_injective h)
  have hentries : Countable (Multiset (Sigma (fun _ : String => String))) :=
    inferInstanceAs (Countable (Quotient _))
  exact Function.Injective.countable (f := Finmap.entries) (fun _ _ h => Finmap.ext h)

/-- A codec that writes the number of a header map as a row of strokes. -/
noncomputable def tally : JsonMaps :=
  let number := (countable_iff_exists_injective Headers).mp countable_headers |>.choose
  let marshal := fun headers => String.ofList (List.replicate (number headers + 1) '|')
  have hm : Function.Injective marshal := by
    intro a b h
    apply ((countable_iff_exists_injective Headers).mp countable_headers).choose_spec
    have hl := congrArg (fun s => s.toList.length) h
    simpa [marshal, number] using hl
  { marshal := marshal
    unmarshal := Function.partialInv marshal
    roundTrip := fun headers _ => Function.partialInv_left hm headers
    object := by
      intro headers _
      constructor <;> intro h <;>
        simpa [marshal, List.replicate_succ] using congrArg String.toList h }

/-- A message is claimed and listed once its lease has ended. -/
def endedLease (lease : Duration) : List MessageCall :=
  [.append [Memory.arrival "m" "orders" (-20)], .claim ⟨"orders", "a", 1, lease, -10⟩,
    .expiredLeases 5 0]

theorem endedLease_fullClaims (lease : Duration) : FullClaims (endedLease lease) := by
  refine ⟨fun ds req fs h => ?_, by simp [endedLease]⟩
  rcases ds with _ | ⟨c, _ | ⟨c', _ | ⟨c'', ds⟩⟩⟩ <;> simp [endedLease] at h
  obtain ⟨rfl, rfl, -⟩ := h
  dsimp only
  decide +kernel

theorem drivers_agree_endedLease :
    DriverRun (endedLease 15) ∧ DriversAgree tally (endedLease 15) := by
  have h : DriverRun (endedLease 15) := ⟨by decide, by decide, by decide⟩
  exact ⟨h, drivers_agree tally _ h (endedLease_fullClaims 15)
    (by simp [SetLeases, endedLease, zeroTime]) (by simp [DeclaredPurges, endedLease])⟩

/-- A lease that ends at the zero instant is listed by the SQLite driver only. -/
theorem endedLease_disagrees : ¬ DriversAgree tally (endedLease 10) := by
  intro h
  have hr := h.replies ((endedLease 10).take 2) (.expiredLeases 5 0) [] rfl
  have hm :
      (execMessage (.expiredLeases 5 0) (storeAfter ((endedLease 10).take 2))).1 = .ok [] := by
    decide +kernel
  have hs : ((exec tally (.expiredLeases 5 0) (dbAfter tally ((endedLease 10).take 2))).1.map
      List.length).toOption = some 1 := by
    decide +kernel
  rw [hm] at hr
  cases hx : (exec tally (.expiredLeases 5 0) (dbAfter tally ((endedLease 10).take 2))).1 with
  | error e => simp [hx, Except.map, Except.toOption] at hs
  | ok listed =>
    rw [hx] at hr hs
    obtain rfl : listed = [] := List.nil_perm.mp hr
    simp [Except.map, Except.toOption] at hs

/-- A message is appended in a state that is not declared, and its queue is purged. -/
def unknownState : List MessageCall :=
  [.saveQueue ⟨⟨"orders", true, 3, 30, ""⟩, 1⟩,
    .append [{ Memory.arrival "m" "orders" 1 with state := .other "" (by decide) }],
    .purge "orders"]

/-- The in-memory driver keeps the message, the SQLite driver deletes it. -/
theorem unknownState_disagrees : ¬ DriversAgree tally unknownState := by
  intro h
  have hr := h.replies (unknownState.take 2) (.purge "orders") [] rfl
  have hm : (execMessage (.purge "orders") (storeAfter (unknownState.take 2))).1 = .ok 0 := by
    decide +kernel
  have hs : (exec tally (.purge "orders") (dbAfter tally (unknownState.take 2))).1 = .ok 1 := by
    decide +kernel
  rw [hm, hs] at hr
  cases hr

theorem drivers_disagree :
    (DriverRun (endedLease 10) ∧ FullClaims (endedLease 10) ∧ DeclaredPurges (endedLease 10) ∧
      ¬ DriversAgree tally (endedLease 10)) ∧
    DriverRun unknownState ∧ FullClaims unknownState ∧ SetLeases unknownState ∧
      ¬ DriversAgree tally unknownState := by
  refine ⟨⟨⟨by decide, by decide, by decide⟩, endedLease_fullClaims 10,
    by simp [DeclaredPurges, endedLease], endedLease_disagrees⟩,
    ⟨by decide, by decide, by decide⟩, ⟨fun ds req fs h => ?_, by simp [unknownState]⟩,
    by simp [SetLeases, unknownState], unknownState_disagrees⟩
  have hmem : .claim req ∈ unknownState := h ▸ by simp
  simp [unknownState] at hmem

end RabbitmqLite.Storage.Sqlite
